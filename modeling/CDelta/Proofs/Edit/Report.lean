import CDelta.Proofs.Edit.Survey
import CDelta.Proofs.Finding
import CDelta.Proofs.Residue

/-! # An edited literal is reported where it stands

The two versions of a file show the same bytes outside of literals and the same literals with
one exception. So a region differs exactly when the edited literal lies in it, and then at its
first byte. Both versions show the same directives, so no difference is forgiven as a
collapsed conditional.
-/

namespace CDelta

namespace Outcome

/-- Under keys that tell only one element apart, a list differs from itself at that element. -/
theorem firstDifference_self {α κ : Type} [DecidableEq α] [DecidableEq κ] {keyA keyB : α → κ}
    {elements : List α} {changed : α}
    (hdiffers : ∀ element ∈ elements, keyA element ≠ keyB element ↔ element = changed) :
    firstDifference keyA keyB elements elements =
      if changed ∈ elements then some (some changed, some changed) else none := by
  induction elements with
  | nil => rfl
  | cons element rest ih =>
      obtain ⟨hhere, hrest⟩ := List.forall_mem_cons.mp hdiffers
      rw [firstDifference, ih hrest]
      by_cases hchanged : element = changed
      · subst hchanged
        rw [if_neg (hhere.mpr rfl), if_pos List.mem_cons_self]
      · rw [if_pos (not_not.mp (mt hhere.mp hchanged))]
        simp [Ne.symm hchanged]

end Outcome

namespace View

variable {source : Bytes} {marks : List Mark} {literal : Mark} {offset : Nat} {old new : UInt8}

/-- A literal is blanked, so an edit in it shows in no other byte. -/
theorem data_edit (hmem : literal ∈ marks) (hedit : LiteralEdit source literal offset old new)
    (excluded : List Span) :
    (ofMarks (source.edit offset new) marks excluded).data = (ofMarks source marks excluded).data := by
  have hvisible : literal ∈ marks.filter (Recorded.visible.wants ·.kind) :=
    List.mem_filter.mpr ⟨hmem, wants_visible_of_isLiteral hedit.isLiteral⟩
  exact congrArg (Bytes.blank excluded) (Bytes.blankMarks_edit hvisible hedit.has_offset new source)

theorem literals_edit (excluded : List Span) :
    (ofMarks (source.edit offset new) marks excluded).literals =
      (ofMarks source marks excluded).literals := by
  simp [ofMarks]

/-- A comparison tells exactly the edited literal from what it was. -/
theorem literalKey_edit_iff (hedit : LiteralEdit source literal offset old new)
    (hunique : ∀ mark ∈ marks, mark.has offset = true → mark = literal) (excluded : List Span)
    {mark : Mark} (hmark : mark ∈ marks) :
    (ofMarks source marks excluded).literalKey mark ≠
      (ofMarks (source.edit offset new) marks excluded).literalKey mark ↔ mark = literal := by
  simp only [literalKey, ofMarks, ne_eq, Prod.mk.injEq, true_and]
  constructor
  · intro hdiffers
    by_contra hother
    have houtside : ¬ mark.has offset = true := fun hhas => hother (hunique mark hmark hhas)
    exact hdiffers (Span.slice_edit_of_not_has houtside new source).symm
  · rintro rfl hsame
    exact Span.slice_edit_ne hedit.has_offset hedit.stands hedit.changes hsame.symm

end View

/-- Two versions of a text that differ inside of a literal differ in the regions that hold it,
at its first byte. -/
theorem Outcome.ofRegions_edit {source : Bytes} {marks : List Mark} {literal : Mark}
    {offset : Nat} {old new : UInt8} (hmem : literal ∈ marks)
    (hedit : LiteralEdit source literal offset old new)
    (hunique : ∀ mark ∈ marks, mark.has offset = true → mark = literal) (excluded : List Span)
    (region : Span) :
    ofRegions (View.ofMarks source marks excluded) region
        (View.ofMarks (source.edit offset new) marks excluded) region =
      if literal ∈ (View.ofMarks source marks excluded).literalsIn region then
        .differs literal.first literal.first
      else .same := by
  let before := View.ofMarks source marks excluded
  let after := View.ofMarks (source.edit offset new) marks excluded
  have hliterals : after.literalsIn region = before.literalsIn region := by
    rw [View.literalsIn, View.literals_edit excluded]
    rfl
  have hbytes : byteDifference before region after region = none := by
    rw [byteDifference, firstDifference_eq_none_iff, View.significantIn, View.significantIn,
      View.data_edit hmem hedit excluded]
  have hmarks : ∀ mark ∈ before.literalsIn region, mark ∈ marks := fun mark hmark =>
    (View.mem_literals_ofMarks.mp (List.mem_filter.mp hmark).1).1
  have hdifference : literalDifference before region after region =
      if literal ∈ before.literalsIn region then some (some literal, some literal) else none := by
    rw [literalDifference, hliterals]
    exact firstDifference_self fun mark hmark =>
      View.literalKey_edit_iff hedit hunique excluded (hmarks mark hmark)
  change ofRegions before region after region =
    if literal ∈ before.literalsIn region then .differs literal.first literal.first else .same
  rw [ofRegions, hdifference, hbytes]
  by_cases hinside : literal ∈ before.literalsIn region
  · rw [if_pos hinside, if_pos hinside]
    rfl
  · rw [if_neg hinside, if_neg hinside]

namespace Survey

variable {settings : Settings} {path : String} {source : Bytes} {survey edited : Survey}

/-- No two marks of a file share an offset. -/
theorem mark_unique (hsurvey : ofSource settings path source = .ok survey) {mark other : Mark}
    (hmark : mark ∈ survey.marks) (hother : other ∈ survey.marks) {offset : Int}
    (hhas : mark.has offset = true) (hotherHas : other.has offset = true) : mark = other := by
  obtain ⟨marks, layout, hprepare, rfl, _⟩ := ofSource_eq_ok_iff.mp hsurvey
  obtain ⟨pieces, _, hparts⟩ := exists_parts hprepare
  have hmarks : marks = Piece.marksFrom 0 pieces := hparts.marks_eq
  exact Piece.mark_unique (hmarks ▸ hmark) (hmarks ▸ hother) hhas hotherHas

namespace Edited

variable {literal : Mark} {offset : Nat} {old new : UInt8}

/-- The two versions show the same directives, so nothing is forgiven. -/
theorem compare_eq (hedited : survey.Edited offset new edited) (excluded : List Span)
    (region : Span) :
    (Side.mk survey (View.ofMarks survey.source survey.marks excluded) region).compare
        ⟨edited, View.ofMarks edited.source edited.marks excluded, region⟩ =
      Outcome.ofRegions (View.ofMarks survey.source survey.marks excluded) region
        (View.ofMarks (survey.source.edit offset new) survey.marks excluded) region := by
  have hcontrols : (Side.mk survey (View.ofMarks survey.source survey.marks excluded)
      region).showsControls = (Side.mk edited (View.ofMarks edited.source edited.marks excluded)
        region).showsControls := by
    simp only [Side.showsControls, controlSpans, View.shows, View.ofMarks, hedited.layout,
      hedited.source, Bytes.length_edit]
    rfl
  rw [Side.compare, Side.isCollapse, hcontrols, bne_self_eq_false, Bool.and_false, Bool.false_and,
    if_neg (by decide), Side.compareAsWritten, hedited.source, hedited.marks]

/-- What is found in a region of both versions: a change at the edited literal if the region
holds it, else none. -/
theorem finding_eq (hsurvey : ofSource settings path source = .ok survey)
    (hmem : literal ∈ survey.marks) (hedit : LiteralEdit source literal offset old new)
    (hedited : survey.Edited offset new edited) (name : String) (excluded : List Span)
    (region : Span) :
    Finding.ofOutcome survey edited name
        ((Side.mk survey (View.ofMarks survey.source survey.marks excluded) region).compare
          ⟨edited, View.ofMarks edited.source edited.marks excluded, region⟩) =
      if literal ∈ (View.ofMarks source survey.marks excluded).literalsIn region then
        ⟨name, .changed, some (survey.place literal.first), some (edited.place literal.first)⟩
      else ⟨name, .unchanged, none, none⟩ := by
  have hunique : ∀ mark ∈ survey.marks, mark.has offset = true → mark = literal :=
    fun mark hmark hhas => mark_unique hsurvey hmark hmem hhas hedit.has_offset
  rw [hedited.compare_eq, source_eq hsurvey, Outcome.ofRegions_edit hmem hedit hunique]
  split <;> rfl

end Edited

end Survey

/-- A file in which a byte inside of a literal gives way to another has the same functions. A
function is reported as changed exactly when the literal lies in it, the rest of the file
exactly when the literal lies in no function, and in both files at the first byte of the
literal; all else is unchanged. -/
theorem literal_edit_is_reported_in_place {settings : Settings} {path : String} {source : Bytes}
    {survey : Survey} (hsurvey : Survey.ofSource settings path source = .ok survey)
    {literal : Mark} (hmem : literal ∈ survey.marks) {offset : Nat} {old new : UInt8}
    (hedit : LiteralEdit source literal offset old new) (other : String) :
    ∃ edited, Survey.ofSource settings other (source.edit offset new) = .ok edited ∧
      edited.functions = survey.functions ∧
      Finding.functions survey edited = survey.functions.map (fun function =>
        if function.span.contains literal.toSpan then
          ⟨function.name, .changed, some (survey.place literal.first),
            some (edited.place literal.first)⟩
        else ⟨function.name, .unchanged, none, none⟩) ∧
      Finding.residue survey edited =
        if survey.functions.any (·.span.contains literal.toSpan) then
          ⟨Finding.residueName, .unchanged, none, none⟩
        else ⟨Finding.residueName, .changed, some (survey.place literal.first),
          some (edited.place literal.first)⟩ := by
  obtain ⟨edited, hother, hedited⟩ := Survey.exists_edited hsurvey hmem hedit other
  have hnodup := Survey.nodup_functions hsurvey
  have hsource := Survey.source_eq hsurvey
  have hfound := hedited.finding_eq hsurvey hmem hedit
  refine ⟨edited, hother, hedited.functions, ?_, ?_⟩
  · have hnames := congrArg (List.map (·.name)) hedited.functions
    rw [Finding.functions, Finding.newFunctions_eq_nil hnames, List.map_nil, List.append_nil]
    refine List.map_congr_left fun function hfunction => ?_
    have hpaired : edited.function? function.name = some function := by
      rw [Survey.function?, hedited.functions, Footprint.find?_name hnodup hfunction]
    have hinside := View.mem_literalsIn_plain_iff source hmem hedit.isLiteral function.span
    rw [Finding.ofFunction_eq_ofOutcome hpaired]
    refine (hfound function.name [] function.span).trans ?_
    simp only [hinside]
  · have hregion : Span.whole edited.source = Span.whole survey.source := by
      rw [hedited.source, Span.whole, Bytes.length_edit, Span.whole]
    have hinside := Survey.mem_literalsIn_residue_iff hsurvey hmem hedit.isLiteral
    rw [← List.any_eq_true] at hinside
    rw [Finding.residue, Survey.residueSide, Survey.residueSide, hregion, hedited.functions,
      hfound, hsource]
    simp only [hinside, Bool.not_eq_true]
    cases survey.functions.any (·.span.contains literal.toSpan) <;> rfl

/-- The literal in a function is edited, and the function alone is reported. -/
theorem literal_edit_is_reported_in_place_two_heads :
    ∃ survey edited, Survey.ofSource Settings.default "a.c" Survey.twoHeads = .ok survey ∧
      Survey.ofSource Settings.default "b.c" (Survey.twoHeads.edit 75 'c'.toUInt8) = .ok edited ∧
      edited.functions = [⟨"f", ⟨21, 87⟩⟩] ∧
      Finding.functions survey edited =
        [⟨"f", .changed, some (survey.place 74), some (edited.place 74)⟩] ∧
      Finding.residue survey edited = ⟨Finding.residueName, .unchanged, none, none⟩ := by
  obtain ⟨survey, hsurvey, hfunctions, hmarks⟩ := Survey.ofSource_twoHeads
  have hmem : ⟨⟨74, 76⟩, .character⟩ ∈ survey.marks := by simp [hmarks]
  have hedit : LiteralEdit Survey.twoHeads ⟨⟨74, 76⟩, .character⟩ 75 'b'.toUInt8 'c'.toUInt8 := by
    have hquote : Survey.twoHeads[74]? = some Byte.singleQuote := by decide +kernel
    refine ⟨rfl, by decide, by decide, by decide +kernel, by decide, fun quote hmem => ?_, by decide⟩
    obtain rfl : Byte.singleQuote = quote := Option.some.inj (hquote.symm.trans hmem)
    decide
  obtain ⟨edited, hedited, hkept, hfindings, hresidue⟩ :=
    literal_edit_is_reported_in_place hsurvey hmem hedit "b.c"
  rw [hfunctions] at hkept hfindings hresidue
  exact ⟨survey, edited, hsurvey, hedited, hkept, hfindings, hresidue⟩

end CDelta
