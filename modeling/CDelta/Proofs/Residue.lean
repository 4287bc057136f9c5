import CDelta.Proofs.Extent
import CDelta.Proofs.Fingerprint
import CDelta.Report

/-! # Functions and the rest

What a comparison sees of a file is split between its functions and the view of the rest. A
byte is blanked from the rest exactly when it lies in a function. A literal is dropped from the
rest when it begins in a function but belongs to a function only when it lies in it as a whole;
the two agree because no function cuts a literal in two.
-/

namespace CDelta

namespace View

/-- Excluding spans takes from the bytes that are looked at those in the spans. -/
theorem significant_excluded (source : Bytes) (marks : List Mark) (excluded : List Span) :
    (ofMarks source marks excluded).significant =
      (ofMarks source marks []).significant.filter fun element =>
        !Span.cover excluded element.2 := by
  rw [significant_ofMarks, significant_ofMarks, List.filter_filter, List.append_nil]
  refine List.filter_congr fun element _ => ?_
  rw [Span.cover_append, Bool.not_or, ← Bool.and_assoc, Bool.and_comm (!Span.cover excluded _)]

/-- Excluding spans takes from the literals those that begin in the spans. -/
theorem literals_excluded (source : Bytes) (marks : List Mark) (excluded : List Span) :
    (ofMarks source marks excluded).literals =
      (ofMarks source marks []).literals.filter fun mark =>
        !excludes source.length excluded mark.first := by
  simp only [ofMarks, List.filter_filter]
  refine List.filter_congr fun mark _ => ?_
  simp only [excludes, List.any_nil, Bool.not_false, Bool.and_true]
  rw [Bool.and_assoc, Bool.and_left_comm]

theorem mem_literalsIn_plain_iff (source : Bytes) {marks : List Mark} {mark : Mark}
    (hmark : mark ∈ marks) (hliteral : mark.kind.isLiteral = true) (region : Span) :
    mark ∈ (ofMarks source marks []).literalsIn region ↔ region.contains mark.toSpan = true := by
  rw [literalsIn, List.mem_filter, mem_literals_ofMarks]
  simp [hmark, hliteral, excludes]

end View

namespace Survey

variable {settings : Settings} {path : String} {source : Bytes} {survey : Survey}

/-- A mark of a file is not empty and lies in its text. -/
theorem bounds_of_mem_marks (hsurvey : ofSource settings path source = .ok survey) {mark : Mark}
    (hmark : mark ∈ survey.marks) :
    0 ≤ mark.first ∧ mark.first ≤ mark.last ∧ mark.last < source.length := by
  obtain ⟨marks, layout, hprepare, rfl, _⟩ := ofSource_eq_ok_iff.mp hsurvey
  have hmarks := (prepare_eq_ok_iff.mp hprepare).1
  exact (Piece.separates_of_marks hmarks).inside mark hmark

/-- A mark begins in a function exactly when it lies in it as a whole. -/
theorem has_first_iff_contains (hsurvey : ofSource settings path source = .ok survey)
    {function : Footprint} (hfunction : function ∈ survey.functions) {mark : Mark}
    (hmark : mark ∈ survey.marks) :
    function.span.has mark.first = true ↔ function.span.contains mark.toSpan = true := by
  have hordered := (bounds_of_mem_marks hsurvey hmark).2.1
  have hdelimits := delimits_of_mem_functions hsurvey hfunction
  have huncut := hdelimits.contains_or_not_meets (List.mem_append_left _ hmark)
  rw [Span.contains_iff, Span.meets, Bool.and_eq_false_iff, decide_eq_false_iff_not,
    decide_eq_false_iff_not] at huncut
  rw [Span.has_iff, Span.contains_iff]
  omega

/-- A mark begins in some function exactly when some function holds it as a whole. -/
theorem excludes_iff_exists_contains (hsurvey : ofSource settings path source = .ok survey)
    {mark : Mark} (hmark : mark ∈ survey.marks) :
    View.excludes source.length (survey.functions.map (·.span)) mark.first = true ↔
      ∃ function ∈ survey.functions, function.span.contains mark.toSpan = true := by
  have hlast : ∀ span ∈ survey.functions.map (·.span), 0 ≤ span.last := by
    intro span hspan
    obtain ⟨function, hfunction, rfl⟩ := List.mem_map.mp hspan
    have hdelimits := delimits_of_mem_functions hsurvey hfunction
    exact Int.le_trans hdelimits.nonneg (Int.le_of_lt hdelimits.ordered)
  rw [View.excludes_eq_any hlast, List.any_map, List.any_eq_true]
  exact exists_congr fun function => and_congr_right fun hfunction =>
    has_first_iff_contains hsurvey hfunction hmark

/-- A literal is one of the rest of a file exactly when no function holds it. -/
theorem mem_literalsIn_residue_iff (hsurvey : ofSource settings path source = .ok survey)
    {mark : Mark} (hmark : mark ∈ survey.marks) (hliteral : mark.kind.isLiteral = true) :
    mark ∈ (View.ofMarks source survey.marks (survey.functions.map (·.span))).literalsIn
        (Span.whole source) ↔
      ¬ ∃ function ∈ survey.functions, function.span.contains mark.toSpan = true := by
  have hbounds := bounds_of_mem_marks hsurvey hmark
  have hwhole : (Span.whole source).contains mark.toSpan = true := by
    rw [Span.contains_iff, Span.whole]
    simp only
    omega
  rw [View.literalsIn, List.mem_filter, View.mem_literals_ofMarks, Bool.eq_false_iff, ne_eq,
    excludes_iff_exists_contains hsurvey hmark]
  simp [hmark, hliteral, hwhole]

/-- The views that a survey is compared by are those of its source. -/
theorem view_eq_ofSource (hsurvey : ofSource settings path source = .ok survey)
    (excluded : List Span) :
    View.ofSource settings.comments source excluded =
      .ok (View.ofMarks survey.source survey.marks excluded) := by
  obtain ⟨marks, layout, hprepare, rfl, _⟩ := ofSource_eq_ok_iff.mp hsurvey
  rw [View.ofSource, (prepare_eq_ok_iff.mp hprepare).1]
  rfl

end Survey

/-- All that a comparison sees of a file is seen either in some function or in the rest, and
never in both: each byte that is looked at is one of the rest exactly when it lies in no
function, and so is each literal. The rest holds nothing besides. -/
theorem nothing_escapes_comparison {settings : Settings} {path : String} {source : Bytes}
    {survey : Survey} (hsurvey : Survey.ofSource settings path source = .ok survey) :
    ∃ plain residue, View.ofSource settings.comments source [] = .ok plain ∧
      View.ofSource settings.comments source (survey.functions.map (·.span)) = .ok residue ∧
      survey.side.view = plain ∧ survey.residueSide.view = residue ∧
      (∀ element ∈ plain.significant, element ∈ residue.significant ↔
        ¬ ∃ function ∈ survey.functions, function.span.has element.2 = true) ∧
      (∀ literal ∈ plain.literals, literal ∈ residue.literals ↔
        ¬ ∃ function ∈ survey.functions, literal ∈ plain.literalsIn function.span) ∧
      residue.significant.Sublist plain.significant ∧
      residue.literals.Sublist plain.literals := by
  have hsource := Survey.source_eq hsurvey
  have hview := Survey.view_eq_ofSource hsurvey
  rw [hsource] at hview
  have hside : survey.side.view = View.ofMarks source survey.marks [] := by
    rw [Survey.side, hsource]
  have hresidue : survey.residueSide.view =
      View.ofMarks source survey.marks (survey.functions.map (·.span)) := by
    rw [Survey.residueSide, hsource]
  refine ⟨_, _, hview [], hview _, hside, hresidue, ?_, ?_, ?_, ?_⟩
  · intro element helement
    rw [View.significant_excluded, List.mem_filter, and_iff_right helement, Bool.not_eq_true',
      Bool.eq_false_iff, ne_eq, Span.cover, List.any_map, List.any_eq_true]
    rfl
  · intro literal hliteral
    have hmark : literal ∈ survey.marks := (View.mem_literals_ofMarks.mp hliteral).1
    rw [View.literals_excluded, List.mem_filter, Bool.not_eq_true', Bool.eq_false_iff, ne_eq,
      Survey.excludes_iff_exists_contains hsurvey hmark, and_iff_right hliteral]
    simp only [View.literalsIn, List.mem_filter, hliteral, true_and]
  · rw [View.significant_excluded]
    exact List.filter_sublist
  · rw [View.literals_excluded]
    exact List.filter_sublist

/-- The literal in front of a function is one of the rest, and the one in the function is not. -/
theorem nothing_escapes_comparison_two_heads :
    ∃ survey plain residue,
      Survey.ofSource Settings.default "a.c" Survey.twoHeads = .ok survey ∧
      View.ofSource .nested Survey.twoHeads [] = .ok plain ∧
      View.ofSource .nested Survey.twoHeads (survey.functions.map (·.span)) = .ok residue ∧
      (∀ element ∈ plain.significant,
        element ∈ residue.significant ↔ ¬ (⟨21, 87⟩ : Span).has element.2 = true) ∧
      ⟨⟨10, 12⟩, .string⟩ ∈ residue.literals ∧ ⟨⟨74, 76⟩, .character⟩ ∉ residue.literals := by
  obtain ⟨survey, hsurvey, hfunctions, hmarks⟩ := Survey.ofSource_twoHeads
  obtain ⟨plain, residue, hplain, hresidue, hside, _, hbytes, hliterals, _⟩ :=
    nothing_escapes_comparison hsurvey
  have hseen : plain.literals = [⟨⟨10, 12⟩, .string⟩, ⟨⟨74, 76⟩, .character⟩] := by
    rw [← hside, Survey.side, hmarks]
    rfl
  refine ⟨survey, plain, residue, hsurvey, hplain, hresidue, ?_, ?_, ?_⟩
  · simpa [hfunctions] using hbytes
  · rw [hliterals _ (by simp [hseen]), hfunctions]
    simp only [View.literalsIn, hseen]
    decide
  · rw [hliterals _ (by simp [hseen]), hfunctions]
    simp only [View.literalsIn, hseen]
    decide

end CDelta
