import CDelta.Proofs.Collapse.Survey
import CDelta.Proofs.Extent
import CDelta.Proofs.Finding
import CDelta.Proofs.Variant

/-! # Collapsing a conditional is no change

A text collapsed to a choice that survived is surveyed, has no conditionals, and its functions
are those found under the choice. A function whose united span holds nothing else to be seen
is reported as unchanged: what is left of it is one of the variants of the old text.
-/

namespace CDelta

namespace View

theorem isSignificant_of_literalKind? {byte : UInt8}
    (hkind : (Marking.literalKind? byte).isSome = true) : isSignificant byte = true := by
  unfold Marking.literalKind? at hkind
  split at hkind
  next hquote =>
    subst hquote
    decide
  next =>
    split at hkind
    next hquote =>
      subst hquote
      decide
    next => simp at hkind

end View

namespace Bytes

/-- Between an outer and an inner span a text shows only blanks, comments and what is
overwritten. -/
def Idle (source : Bytes) (marks : List Mark) (overwritten : List Span) (outer inner : Span) :
    Prop :=
  ∀ (offset : Nat) (byte : UInt8), source[offset]? = some byte → outer.has offset = true →
    ¬ inner.has offset = true →
    (byte = Byte.space ∨ byte = Byte.tab ∨ byte = Byte.newline) ∨
      (∃ mark ∈ marks, mark.kind = .comment ∧ mark.has offset = true) ∨
      ∃ span ∈ overwritten, span.has offset = true

/-- What is looked at in the outer span stands in the inner one. -/
theorem Idle.has_inner {source : Bytes} {marks : List Mark} {overwritten : List Span}
    {outer inner : Span} (hidle : source.Idle marks overwritten outer inner) {offset : Nat}
    {byte : UInt8} (hbyte : source[offset]? = some byte) (houter : outer.has offset = true)
    (hsignificant : View.isSignificant byte = true)
    (hcomment : ∀ mark ∈ marks, mark.kind = .comment → ¬ mark.has offset = true)
    (hshown : Span.cover overwritten offset = false) : inner.has offset = true := by
  by_contra hinner
  rcases hidle offset byte hbyte houter hinner with hblank | ⟨mark, hmark, hkind, hhas⟩ | hspan
  · rcases hblank with rfl | rfl | rfl <;> exact absurd hsignificant (by decide)
  · exact hcomment mark hmark hkind hhas
  · rw [← Span.cover_iff, hshown] at hspan
    cases hspan

end Bytes

namespace Survey.Parts

variable {rule : CommentRule} {source : Bytes} {marks : List Mark} {layout : Layout}
  {pieces blocks : List Piece} {choice : Int} {outer inner : Span} {hidden : List Span}

/-- The bytes seen in a span of a text when what is overwritten is hidden are those seen in the
collapsed text. -/
theorem bytes_fingerprint_collapse (hparts : Parts rule source marks layout pieces blocks)
    (hcontains : outer.contains inner = true)
    (hhidden : ∀ offset : Nat, outer.has offset = true →
      Span.cover hidden offset = Span.cover (layout.overwritten choice) offset)
    (hidle : source.Idle marks (layout.overwritten choice) outer inner) :
    ((View.ofMarks source marks []).fingerprint outer hidden).bytes =
      ((View.ofMarks (source.blank (layout.overwritten choice))
        (collapsedMarks layout pieces choice) []).fingerprint inner []).bytes := by
  rw [View.bytes_fingerprint, View.bytes_fingerprint, Bytes.blank_eq_mask,
    Bytes.filter_zipIdx_mask _ fun offset => by simp [View.seesByte, View.isSignificant_space]]
  congr 1
  refine List.filter_congr fun element helement => ?_
  obtain ⟨byte, offset⟩ := element
  have hbyte : source[offset]? = some byte := List.mem_zipIdx_iff_getElem?.mp helement
  have hveils : Span.cover (View.veils marks) offset =
      Piece.covers Recorded.visible.wants 0 pieces offset := by
    rw [hparts.marks_eq]
    rfl
  have hcollapsed : Span.cover (layout.overwritten choice) offset = false →
      Span.cover (View.veils (collapsedMarks layout pieces choice)) offset =
        Span.cover (View.veils marks) offset := by
    intro hshown
    rw [hveils]
    exact Piece.covers_collapse (hparts.aligned_pieces choice) _ hshown
  rw [Span.contains_iff] at hcontains
  rw [Bool.eq_iff_iff]
  simp only [View.seesByte, Bool.and_eq_true, Bool.not_eq_true', Bool.or_eq_false_iff]
  constructor
  · rintro ⟨⟨hsignificant, houter⟩, ⟨hveiled, _⟩, hhides⟩
    have hshown := (hhidden offset houter).symm.trans hhides
    have hinner : inner.has offset = true := by
      refine hidle.has_inner hbyte houter hsignificant (fun mark hmark hkind hhas => ?_) hshown
      rw [Bool.eq_false_iff, ne_eq, Span.cover_iff] at hveiled
      refine hveiled ⟨mark.toSpan, List.mem_map_of_mem (List.mem_filter.mpr ⟨hmark, ?_⟩), hhas⟩
      rw [hkind]
      rfl
    exact ⟨hshown, ⟨hsignificant, hinner⟩, ⟨(hcollapsed hshown).trans hveiled, rfl⟩, rfl⟩
  · rintro ⟨hshown, ⟨hsignificant, hinner⟩, ⟨hveiled, _⟩, _⟩
    have houter : outer.has offset = true := by
      rw [Span.has_iff] at hinner ⊢
      omega
    exact ⟨⟨hsignificant, houter⟩, ⟨(hcollapsed hshown).symm.trans hveiled, rfl⟩,
      (hhidden offset houter).trans hshown⟩

/-- A literal is seen when what is overwritten is hidden exactly when it is seen in the collapsed
text, unless it is overwritten there. -/
theorem seesLiteral_collapse (hparts : Parts rule source marks layout pieces blocks)
    (hcontains : outer.contains inner = true)
    (hhidden : ∀ offset : Nat, outer.has offset = true →
      Span.cover hidden offset = Span.cover (layout.overwritten choice) offset)
    (hidle : source.Idle marks (layout.overwritten choice) outer inner)
    (hends : ∀ mark ∈ marks, ¬ mark.has inner.last = true) {mark : Mark} (hmark : mark ∈ marks)
    (length lengthOther : Nat) :
    View.seesLiteral length [] outer hidden mark =
      (View.seesLiteral lengthOther [] inner [] mark &&
        !Span.cover (layout.overwritten choice) mark.first.toNat) := by
  have hbounds :=
    Piece.bounds_of_mem_marksFrom hparts.fit.text_ne_nil (hparts.marks_eq ▸ hmark)
  have hfirst : (mark.first.toNat : Int) = mark.first := Int.toNat_of_nonneg (by omega)
  have hcover : hidden.any (·.has mark.first) = Span.cover hidden mark.first.toNat := by
    rw [Span.cover, hfirst]
  rw [Bool.eq_iff_iff]
  simp only [View.seesLiteral, View.excludes, hcover, Bool.and_eq_true, List.any_nil,
    Bool.not_false, and_true, Bool.not_eq_true']
  rw [Span.contains_iff] at hcontains
  constructor
  · rintro ⟨⟨hliteral, houter⟩, hhides⟩
    rw [Span.contains_iff] at houter
    have hhas : outer.has mark.first.toNat = true := by
      rw [Span.has_iff]
      omega
    have hshown := (hhidden _ hhas).symm.trans hhides
    obtain ⟨quote, hquote, hkind⟩ := Piece.quote_of_mem_marksFrom hparts.fit
      (hparts.marks_eq ▸ hmark) hliteral
    rw [hparts.bytes_eq] at hquote
    -- the opening quote is significant and in no comment, so it stands in the inner span
    have hinner : inner.has mark.first.toNat = true := by
      refine hidle.has_inner hquote hhas (View.isSignificant_of_literalKind? hkind) ?_ hshown
      intro other hother hcomment hotherHas
      have hself : mark.has mark.first.toNat = true := by
        rw [Span.has_iff]
        omega
      rw [hparts.marks_eq] at hmark hother
      obtain rfl := Piece.mark_unique hmark hother hself hotherHas
      rw [hcomment] at hliteral
      exact absurd hliteral (by decide)
    have hlast := hends mark hmark
    rw [Span.has_iff] at hinner hlast
    refine ⟨⟨hliteral, ?_⟩, hshown⟩
    rw [Span.contains_iff]
    omega
  · rintro ⟨⟨hliteral, hinner⟩, hshown⟩
    rw [Span.contains_iff] at hinner
    refine ⟨⟨hliteral, Span.contains_iff.mpr (by omega)⟩, ?_⟩
    rw [hhidden _ (Span.has_iff.mpr (by omega)), hshown]

/-- The literals seen in a span of a text when what is overwritten is hidden are those seen in
the collapsed text. -/
theorem literals_fingerprint_collapse (hparts : Parts rule source marks layout pieces blocks)
    (hcontains : outer.contains inner = true)
    (hhidden : ∀ offset : Nat, outer.has offset = true →
      Span.cover hidden offset = Span.cover (layout.overwritten choice) offset)
    (hidle : source.Idle marks (layout.overwritten choice) outer inner)
    (hends : ∀ mark ∈ marks, ¬ mark.has inner.last = true) :
    ((View.ofMarks source marks []).fingerprint outer hidden).literals =
      ((View.ofMarks (source.blank (layout.overwritten choice))
        (collapsedMarks layout pieces choice) []).fingerprint inner []).literals := by
  rw [View.literals_fingerprint, View.literals_fingerprint, collapsedMarks,
    Piece.marksFrom_collapse, List.filter_filter, ← hparts.marks_eq]
  rw [List.filter_congr fun mark hmark => hparts.seesLiteral_collapse hcontains hhidden hidle
    hends hmark source.length (source.blank (layout.overwritten choice)).length]
  refine List.map_congr_left fun mark hmark => ?_
  obtain ⟨hmem, hkept⟩ := List.mem_filter.mp hmark
  rw [Bool.and_eq_true, Bool.not_eq_true'] at hkept
  have hslice : mark.toSpan.slice (source.blank (layout.overwritten choice)) =
      mark.toSpan.slice source := by
    rw [Bytes.blank_eq_mask]
    refine Bytes.slice_mask fun offset hhas => ?_
    exact ((hparts.aligned_pieces choice).hidden_eq (hparts.marks_eq ▸ hmem) hhas).trans hkept.2
  rw [hslice]

theorem fingerprint_collapse (hparts : Parts rule source marks layout pieces blocks)
    (hcontains : outer.contains inner = true)
    (hhidden : ∀ offset : Nat, outer.has offset = true →
      Span.cover hidden offset = Span.cover (layout.overwritten choice) offset)
    (hidle : source.Idle marks (layout.overwritten choice) outer inner)
    (hends : ∀ mark ∈ marks, ¬ mark.has inner.last = true) :
    (View.ofMarks source marks []).fingerprint outer hidden =
      (View.ofMarks (source.blank (layout.overwritten choice))
        (collapsedMarks layout pieces choice) []).fingerprint inner [] := by
  have hliterals := hparts.literals_fingerprint_collapse hcontains hhidden hidle hends
  have hbytes := hparts.bytes_fingerprint_collapse hcontains hhidden hidle
  exact Fingerprint.mk.injEq _ _ _ _ ▸ ⟨hliterals, hbytes⟩

/-- What stands in the scratch copy of a choice is neither marked nor overwritten. -/
theorem clear_of_scratch {offset : Nat} {byte : UInt8} (hblank : Token.isBlank byte = false)
    (hbyte : (((source.blankMarks marks).blankMarks layout.directives).blank
      (layout.unselected choice))[offset]? = some byte) :
    (∀ mark ∈ marks, ¬ mark.has offset = true) ∧
      Span.cover (layout.overwritten choice) offset = false := by
  obtain ⟨_, hclear, hunselected⟩ := shown_of_scratch hblank hbyte
  constructor
  · intro mark hmark
    simp [hclear mark (List.mem_append_left _ hmark)]
  · rw [Layout.overwritten, Span.cover_append, hunselected, Bool.or_false, Bool.eq_false_iff,
      ne_eq, Span.cover_iff]
    rintro ⟨span, hspan, hhas⟩
    obtain ⟨control, hcontrol, rfl⟩ := List.mem_map.mp hspan
    rw [hclear control (List.mem_append_right _ (List.mem_filter.mp hcontrol).1)] at hhas
    cases hhas

end Survey.Parts

namespace Side

/-- A side without directives compares as the same as one of which it is a variant. Where no
directive reaches into the region, the sides must agree as written. -/
theorem compare_eq_same_of_variant {a b : Side} (hcontrols : b.survey.controlSpans = [])
    (hchoice : b.survey.hiddenSpans = [[]]) {spans : List Span}
    (hspans : spans ∈ a.survey.hiddenSpans)
    (hshows : ∀ span ∈ a.survey.controlSpans, a.view.shows span = true)
    (hvariant : a.view.fingerprint a.region (a.controls ++ a.clipped spans) =
      b.view.fingerprint b.region [])
    (hwritten : (∀ span ∈ a.survey.controlSpans, span.meets a.region = false) →
      a.view.fingerprint a.region [] = b.view.fingerprint b.region []) :
    a.compare b = .same := by
  unfold compare
  split
  next => rfl
  next hcollapse =>
    by_contra hchange
    refine hcollapse ?_
    have hdiffers : (a.compareAsWritten b).isChange = true := by
      cases houtcome : a.compareAsWritten b with
      | same => exact absurd houtcome hchange
      | differs first second => rfl
    have hshowsA : a.showsControls = true := by
      by_contra hnone
      refine hchange (Outcome.ofRegions_eq_same_iff.mpr (hwritten fun span hspan => ?_))
      rw [Bool.eq_false_iff]
      intro hmeets
      refine hnone (List.any_eq_true.mpr ⟨span, hspan, ?_⟩)
      rw [hmeets, hshows span hspan]
      rfl
    have hshowsB : b.showsControls = false := by
      rw [showsControls, hcontrols]
      rfl
    have hvariants : b.fingerprints = [b.view.fingerprint b.region []] := by
      simp [fingerprints, variants, controls, clipped, hchoice, hcontrols, List.eraseDups_cons]
    have hknown : b.view.fingerprint b.region [] ∈ a.fingerprints := by
      rw [← hvariant]
      refine List.mem_map_of_mem (List.mem_map_of_mem (List.mem_eraseDups.mpr ?_))
      exact List.mem_map_of_mem hspans
    have hcovers : a.covers b = true := by
      simp only [covers, hvariants]
      simpa using hknown
    rw [isCollapse, hdiffers, hshowsA, hshowsB, hcovers]
    rfl

end Side

namespace Survey.Parts

variable {rule : CommentRule} {source : Bytes} {marks : List Mark} {layout : Layout}
  {pieces blocks : List Piece}

/-- A function of the collapsed text compares as the same as one of the text that holds it and
nothing else to be seen. -/
theorem compare_collapse (hparts : Parts rule source marks layout pieces blocks)
    {settings : Settings} {path other : String} {choice : Int}
    (hchoice : layout.unselected choice ∈
      (ofParts settings path source marks layout).hiddenSpans)
    (hcollapsed : (ofParts settings other (source.blank (layout.overwritten choice))
      (collapsedMarks layout pieces choice) (collapsedLayout layout blocks choice)).hiddenSpans =
        [[]])
    {outer inner : Span} (hcontains : outer.contains inner = true)
    (hidle : source.Idle marks (layout.overwritten choice) outer inner)
    {last : Nat} (hlast : inner.last = last) (houter : outer.has last = true)
    (hclear : ∀ mark ∈ marks, ¬ mark.has last = true)
    (hshown : Span.cover (layout.overwritten choice) last = false) :
    ((ofParts settings path source marks layout).side.within outer).compare
      ((ofParts settings other (source.blank (layout.overwritten choice))
        (collapsedMarks layout pieces choice)
        (collapsedLayout layout blocks choice)).side.within inner) = .same := by
  have hends : ∀ mark ∈ marks, ¬ mark.has inner.last = true := by
    rw [hlast]
    exact hclear
  refine Side.compare_eq_same_of_variant ?_ hcollapsed hchoice ?_ ?_ ?_
  · exact congrArg (List.map (·.toSpan)) (hparts.controls_collapsedLayout choice)
  · intro span hspan
    obtain ⟨control, hcontrol, rfl⟩ := List.mem_map.mp hspan
    have hmem := (List.mem_filter.mp hcontrol).1
    have hfirst := hparts.reads.first_le_last hmem
    have hlength := hparts.reads.last_lt_length hmem
    rw [Bytes.blankMarks, Bytes.length_blank] at hlength
    have hinside : control.first < (source.length : Int) := Int.lt_of_le_of_lt hfirst.2 hlength
    change (decide (0 ≤ control.first) && decide (control.first < (source.length : Int)) &&
      !View.excludes source.length [] control.first) = true
    simp [hfirst.1, hinside, View.excludes]
  · exact hparts.fingerprint_collapse hcontains
      (fun offset hoffset => Side.cover_variant _ _ hoffset) hidle hends
  · intro hnone
    -- no directive reaches the function, so nothing of it is overwritten
    refine hparts.fingerprint_collapse hcontains (fun offset hoffset => ?_) hidle hends
    refine (hparts.reads.shown_of_no_control (fun control hcontrol => ?_) houter hshown
      hoffset).symm
    exact hnone control.toSpan (List.mem_map_of_mem hcontrol)

/-- A text collapsed to a choice that survives has nothing left to choose, and its functions are
those found under the choice. -/
theorem functions_collapse (hparts : Parts rule source marks layout pieces blocks)
    {settings : Settings} (path : String) {choice : Nat}
    (hsurvives : (Attempt.read source ((source.blankMarks marks).blankMarks layout.directives)
      layout choice).survives = true) :
    let collapsed := ofParts settings path (source.blank (layout.overwritten choice))
      (collapsedMarks layout pieces choice) (collapsedLayout layout blocks choice)
    collapsed.hiddenSpans = [[]] ∧
      collapsed.functions = Footprint.uniteAll [(Attempt.read source
        ((source.blankMarks marks).blankMarks layout.directives) layout choice).footprints
          settings.start] := by
  intro collapsed
  obtain ⟨only, honly, hhidden, houtline, hflaw⟩ :=
    hparts.attempts_collapse settings path choice
  have hsame : only.outline = (Attempt.read source
      ((source.blankMarks marks).blankMarks layout.directives) layout choice).outline := houtline
  have hkept : collapsed.survivors = [only] := by
    have honlySurvives : only.survives = true := by
      rw [hflaw, hsame]
      exact Attempt.survives_read_iff.mp hsurvives
    rw [survivors, honly, List.filter_cons_of_pos honlySurvives, List.filter_nil]
  constructor
  · rw [hiddenSpans, hkept, List.map_singleton, hhidden]
  · rw [functions_ofParts, hkept, List.map_singleton, Attempt.footprints, Attempt.footprints,
      hsame]

end Survey.Parts

namespace Survey

/-- A function found under a surviving choice, united over the choice alone, lies in the function
of its name united over all of them. It ends at a byte of the scratch copy that lies there
too. -/
theorem exists_united {settings : Settings} {path : String} {source : Bytes} {marks : List Mark}
    {layout : Layout} {choice : Nat} {function : Footprint}
    (hattempt : Attempt.read source ((source.blankMarks marks).blankMarks layout.directives)
      layout choice ∈ (ofParts settings path source marks layout).survivors)
    (hfunction : function ∈ Footprint.uniteAll [(Attempt.read source
      ((source.blankMarks marks).blankMarks layout.directives) layout choice).footprints
        settings.start]) :
    ∃ united ∈ (ofParts settings path source marks layout).functions,
      united.name = function.name ∧ united.span.contains function.span = true ∧
      ∃ (last : Nat) (byte : UInt8), function.span.last = last ∧ united.span.has last = true ∧
        Token.isBlank byte = false ∧
        (((source.blankMarks marks).blankMarks layout.directives).blank
          (layout.unselected choice))[last]? = some byte := by
  obtain ⟨⟨low, hlow, hlowName, hfirst⟩, high, hhigh, hhighName, hlast⟩ :=
    Footprint.spans_of_mem_uniteAll hfunction
  rw [List.flatten_singleton] at hlow hhigh
  have hparts : ∀ part ∈ (Attempt.read source ((source.blankMarks marks).blankMarks
      layout.directives) layout choice).footprints settings.start,
      part ∈ (ofParts settings path source marks layout).sets.flatten :=
    fun part hpart => List.mem_flatten.mpr ⟨_, List.mem_map_of_mem hattempt, hpart⟩
  obtain ⟨united, hunited, hname, hlowHeld⟩ := Footprint.exists_holds_uniteAll (hparts low hlow)
  have hhighHeld := Footprint.contains_of_mem_uniteAll hunited (hparts high hhigh)
    (hhighName.trans (hlowName.symm.trans hname.symm))
  obtain ⟨first, last, _, hspan, hordered, _, _, _, hbyte⟩ := Attempt.ends_of_mem_footprints hhigh
  have hplace : high.span.last = last := by rw [hspan]
  have hbefore : high.span.first < last := by rw [hspan]; exact Int.ofNat_lt.mpr hordered
  rw [Span.contains_iff] at hlowHeld hhighHeld
  refine ⟨united, hunited, hname.trans hlowName, Span.contains_iff.mpr ⟨?_, ?_⟩, last,
    '}'.toUInt8, hlast.symm.trans hplace, Span.has_iff.mpr ?_, by decide, hbyte⟩
  · exact hfirst ▸ hlowHeld.1
  · exact hlast ▸ hhighHeld.2
  · omega

end Survey

/-- A file collapsed to a choice that survived is surveyed and has no conditionals, its
functions are those found under the choice, and each of them around which the united function
of the old file shows nothing else is reported as unchanged. -/
theorem collapse_is_no_change {settings : Settings} {path : String} {source : Bytes}
    {survey : Survey} (hsurvey : Survey.ofSource settings path source = .ok survey)
    {attempt : Attempt} (hattempt : attempt ∈ survey.survivors) (other : String) :
    let overwritten := survey.controlSpans ++ attempt.hidden
    ∃ collapsed, Survey.ofSource settings other (source.blank overwritten) = .ok collapsed ∧
      collapsed.layout.isBranching = false ∧
      collapsed.functions = Footprint.uniteAll [attempt.footprints settings.start] ∧
      ∀ function ∈ collapsed.functions,
        ∃ united, survey.function? function.name = some united ∧
          (source.Idle survey.marks overwritten united.span function.span →
            (Finding.functions survey collapsed).filter (·.name = function.name) =
              [⟨function.name, .unchanged, none, none⟩]) := by
  obtain ⟨marks, layout, hprepare, rfl, _⟩ := Survey.ofSource_eq_ok_iff.mp hsurvey
  obtain ⟨pieces, blocks, hparts⟩ := Survey.exists_parts hprepare
  obtain ⟨hevaluated, hsurvives⟩ := List.mem_filter.mp hattempt
  obtain ⟨choice, _, rfl⟩ := List.mem_map.mp hevaluated
  let survey := Survey.ofParts settings path source marks layout
  let collapsed := Survey.ofParts settings other (source.blank (layout.overwritten choice))
    (Survey.Parts.collapsedMarks layout pieces choice)
    (Survey.Parts.collapsedLayout layout blocks choice)
  obtain ⟨hspans, hfunctions⟩ := hparts.functions_collapse other hsurvives
  refine ⟨collapsed, Survey.ofSource_eq_ok_iff.mpr
    ⟨_, _, (hparts.collapse choice).prepare_eq, rfl, fun hnone => ?_⟩, ?_, hfunctions, ?_⟩
  · rw [Survey.hiddenSpans, hnone] at hspans
    cases hspans
  · rw [Layout.isBranching]
    exact congrArg (!List.isEmpty ·) (hparts.controls_collapsedLayout choice)
  · intro function hfunction
    obtain ⟨united, hunited, hname, hcontains, last, byte, hlast, houter, hblank, hbyte⟩ :=
      Survey.exists_united hattempt (hfunctions ▸ hfunction)
    have hnodup : (survey.functions.map (·.name)).Nodup := Footprint.nodup_uniteAll _
    have hpaired : collapsed.function? united.name = some function := by
      rw [hname]
      exact Footprint.find?_name (Footprint.nodup_uniteAll _) hfunction
    rw [← hname]
    refine ⟨united, Footprint.find?_name hnodup hunited, fun hidle => ?_⟩
    -- the function ends at a byte outside of all marks, so no literal is cut at its end
    obtain ⟨hclear, hshown⟩ := Survey.Parts.clear_of_scratch hblank hbyte
    have hchoice : layout.unselected choice ∈ survey.hiddenSpans := List.mem_map_of_mem hattempt
    have hcompare := hparts.compare_collapse hchoice hspans hcontains hidle hlast houter hclear
      hshown
    rw [Finding.filter_functions hnodup hunited,
      Finding.ofFunction_eq_unchanged hpaired hcompare]

/-- A function written twice, once in each branch, collapsed to its second branch. -/
theorem collapse_is_no_change_two_branches :
    let source := Bytes.ofChars
      "#if A\nint f() \x7b return 1; \x7d\n#else\nint f() \x7b return \"2\"; \x7d\n#endif\n".toList
    ∃ survey, Survey.ofSource Settings.default "a.c" source = .ok survey ∧
      survey.layout.isBranching = true ∧
      ∃ attempt ∈ survey.survivors, attempt.choice = 1 ∧
        ∃ collapsed, Survey.ofSource Settings.default "b.c"
            (source.blank (survey.controlSpans ++ attempt.hidden)) = .ok collapsed ∧
          collapsed.layout.isBranching = false ∧ collapsed.functions = [⟨"f", ⟨34, 56⟩⟩] ∧
          (Finding.functions survey collapsed).filter (·.name = "f") =
            [⟨"f", .unchanged, none, none⟩] := by
  intro source
  let marks : List Mark := [⟨⟨51, 53⟩, .string⟩]
  let directives : List Mark := [⟨⟨0, 5⟩, .control .opens⟩, ⟨⟨28, 33⟩, .control .divides⟩,
    ⟨⟨58, 64⟩, .control .closes⟩]
  let first : Control := ⟨0, .opens, ⟨0, 5⟩⟩
  let second : Control := ⟨1, .divides, ⟨28, 33⟩⟩
  let third : Control := ⟨2, .closes, ⟨58, 64⟩⟩
  let layout : Layout :=
    ⟨directives, .cons (.more first second .nil (.last second third .nil)) .nil⟩
  let survey := Survey.ofParts Settings.default "a.c" source marks layout
  let attempt := Attempt.read source survey.working layout 1
  have hdirectives : directives = source.directives (source.blankMarks marks) := by
    rw [Bytes.blankMarks_eq_mask]
    decide +kernel
  have hprepare : Survey.prepare .nested source = .ok (marks, layout) :=
    Survey.prepare_eq_ok_iff.mpr
      ⟨by decide +kernel, Bytes.layout_eq_ok_iff.mpr ⟨hdirectives, rfl⟩⟩
  have houtline : attempt.outline = Outline.ofTokens
      (Bytes.mask (Span.cover [⟨0, 33⟩, ⟨51, 53⟩, ⟨58, 64⟩]) 0 source).tokens := by
    refine congrArg (fun scratch => Outline.ofTokens (Bytes.tokens scratch)) ?_
    simp only [survey, Survey.ofParts, Bytes.blank_eq_mask, Bytes.blankMarks_eq_mask]
    decide +kernel
  have hattempt : attempt ∈ survey.survivors := by
    refine List.mem_filter.mpr ⟨List.mem_map_of_mem (List.mem_range.mpr (by decide)), ?_⟩
    refine Attempt.survives_read_iff.mpr ((congrArg Outline.flaw houtline).trans ?_)
    decide +kernel
  have hsurvey : Survey.ofSource Settings.default "a.c" source = .ok survey :=
    Survey.ofSource_eq_ok_iff.mpr ⟨marks, layout, hprepare, rfl, List.ne_nil_of_mem hattempt⟩
  obtain ⟨collapsed, hcollapsed, hbranching, hfunctions, hunchanged⟩ :=
    collapse_is_no_change hsurvey hattempt "b.c"
  have hfound : collapsed.functions = [⟨"f", ⟨34, 56⟩⟩] := by
    rw [hfunctions, Attempt.footprints, houtline]
    decide +kernel
  obtain ⟨united, _, hreported⟩ := hunchanged ⟨"f", ⟨34, 56⟩⟩ (by simp [hfound])
  -- nothing outside of the second branch is significant, whatever the span of the function
  have hidle : ∀ offset : Fin source.length, ¬ (⟨34, 56⟩ : Span).has offset = true →
      source.get offset = Byte.newline ∨
        ∃ span ∈ survey.controlSpans ++ attempt.hidden, span.has offset = true := by
    decide +kernel
  refine ⟨survey, hsurvey, rfl, attempt, hattempt, rfl, collapsed, hcollapsed, hbranching, hfound,
    hreported fun offset byte hbyte => ?_⟩
  obtain ⟨hlt, rfl⟩ := List.getElem?_eq_some_iff.mp hbyte
  intro _ houtside
  obtain hnewline | hoverwritten := hidle ⟨offset, hlt⟩ houtside
  · exact .inl (.inr (.inr hnewline))
  · exact .inr (.inr hoverwritten)

end CDelta
