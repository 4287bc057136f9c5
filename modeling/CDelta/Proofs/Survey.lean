import CDelta.Proofs.Layout
import Mathlib.Data.List.Basic

/-! # What a survey is made of

A text is surveyed exactly when it has marks and a layout and some choice survives. Its marks
come from pieces and its layout from blocks of the text with the marks blanked.
-/

namespace CDelta

namespace Attempt

theorem survives_read_iff {source working : Bytes} {layout : Layout} {choice : Nat} :
    (read source working layout choice).survives = true ↔
      (Outline.ofTokens (working.blank (layout.unselected choice)).tokens).flaw = none := by
  simp [survives, read]

end Attempt

/-- The choices tried that survive. -/
def Layout.surviving (layout : Layout) (settings : Settings) (source working : Bytes) : List Nat :=
  (List.range (min layout.choices settings.choiceLimit)).filter fun choice =>
    (Attempt.read source working layout choice).survives

namespace Survey

/-- The survey of a text with its marks and its layout. -/
def ofParts (settings : Settings) (path : String) (source : Bytes) (marks : List Mark)
    (layout : Layout) : Survey :=
  let working := (source.blankMarks marks).blankMarks layout.directives
  let attempts := (List.range (min layout.choices settings.choiceLimit)).map
    (Attempt.read source working layout)
  let sets := (attempts.filter (·.survives)).map (·.footprints settings.start)
  ⟨path, false, source, marks, working, layout, attempts, sets, Footprint.uniteAll sets⟩

theorem survivors_ofParts (settings : Settings) (path : String) (source : Bytes)
    (marks : List Mark) (layout : Layout) :
    let working := (source.blankMarks marks).blankMarks layout.directives
    (ofParts settings path source marks layout).survivors =
      (layout.surviving settings source working).map (Attempt.read source working layout) :=
  List.filter_map

theorem functions_ofParts (settings : Settings) (path : String) (source : Bytes)
    (marks : List Mark) (layout : Layout) :
    (ofParts settings path source marks layout).functions =
      Footprint.uniteAll ((ofParts settings path source marks layout).survivors.map
        (·.footprints settings.start)) := rfl

/-- What stands behind the marks and the layout of a text. -/
structure Parts (rule : CommentRule) (source : Bytes) (marks : List Mark) (layout : Layout)
    (pieces blocks : List Piece) : Prop where
  fit : Piece.Fit rule pieces
  bytes_eq : Piece.bytes pieces = source
  marks_eq : marks = Piece.marksFrom 0 pieces
  reads : layout.Reads source (source.blankMarks marks) blocks

theorem exists_parts {rule : CommentRule} {source : Bytes} {marks : List Mark}
    {layout : Layout} (hprepare : prepare rule source = .ok (marks, layout)) :
    ∃ pieces blocks, Parts rule source marks layout pieces blocks := by
  obtain ⟨hmarks, hlayout⟩ := prepare_eq_ok_iff.mp hprepare
  obtain ⟨pieces, hfit, hbytes, hfound⟩ := Piece.marks_eq_ok_iff.mp hmarks
  obtain ⟨blocks, hreads⟩ := Layout.exists_reads hlayout
  rw [Piece.filter_everything hfit] at hfound
  exact ⟨pieces, blocks, hfit, hbytes, hfound, hreads⟩

namespace Parts

variable {rule : CommentRule} {source : Bytes} {marks : List Mark} {layout : Layout}
  {pieces blocks : List Piece}

theorem prepare_eq (hparts : Parts rule source marks layout pieces blocks) :
    prepare rule source = .ok (marks, layout) := by
  refine prepare_eq_ok_iff.mpr ⟨?_, hparts.reads.layout_eq⟩
  refine Piece.marks_eq_ok_iff.mpr ⟨pieces, hparts.fit, hparts.bytes_eq, ?_⟩
  rw [Piece.filter_everything hparts.fit, hparts.marks_eq]

/-- The text with its marks blanked is that of its pieces with all but plain ones hidden. -/
theorem blanked_eq (hparts : Parts rule source marks layout pieces blocks) :
    source.blankMarks marks = Piece.bytes (pieces.map (Piece.hide fun _ => true)) := by
  rw [hparts.marks_eq, ← hparts.bytes_eq, Piece.blankMarks_marksFrom]

theorem choices_pos (hparts : Parts rule source marks layout pieces blocks) :
    0 < layout.choices := by
  obtain ⟨choice, hchoice, _⟩ := Sequence.exists_choice_avoiding hparts.reads.linked
    hparts.reads.ascending 0
  exact Nat.zero_lt_of_lt hchoice

end Parts

/-- A text is surveyed exactly when it can be prepared and some choice survives. -/
theorem ofSource_eq_ok_iff {settings : Settings} {path : String} {source : Bytes}
    {survey : Survey} :
    ofSource settings path source = .ok survey ↔
      ∃ marks layout, prepare settings.comments source = .ok (marks, layout) ∧
        survey = ofParts settings path source marks layout ∧ survey.survivors ≠ [] := by
  cases hprepare : prepare settings.comments source with
  | error fault => simp [ofSource, hprepare]
  | ok found =>
      obtain ⟨marks, layout⟩ := found
      obtain ⟨pieces, blocks, hparts⟩ := exists_parts hprepare
      let whole := ofParts settings path source marks layout
      have hattempts : whole.attempts ≠ [] := by
        have hchoices := hparts.choices_pos
        have hlimit := settings.choiceLimit_pos
        simp only [whole, ofParts, ne_eq, List.map_eq_nil_iff, List.range_eq_nil]
        omega
      have hsets : whole.sets = [] ↔ whole.survivors = [] := List.map_eq_nil_iff
      simp only [ofSource, hprepare]
      constructor
      · intro h
        split at h
        next => cases h
        next hnot =>
          obtain rfl := Except.ok.inj h
          refine ⟨marks, layout, rfl, rfl, fun hnone => ?_⟩
          -- the last attempt has no fault, so it survives
          cases hfault : (whole.attempts.getLast hattempts).fault with
          | some fault =>
              have hlast : whole.attempts.getLast?.bind (·.fault) = some fault := by
                rw [List.getLast?_eq_some_getLast hattempts]
                exact hfault
              exact hnot fault (hsets.mpr hnone) hlast
          | none =>
              have hmem : whole.attempts.getLast hattempts ∈ whole.survivors :=
                List.mem_filter.mpr ⟨List.getLast_mem hattempts, by simp [Attempt.survives, hfault]⟩
              exact List.ne_nil_of_mem hmem hnone
      · rintro ⟨_, _, hfound, rfl, hsome⟩
        obtain ⟨rfl, rfl⟩ := Prod.mk.inj (Except.ok.inj hfound)
        split
        next hnil _ => exact absurd (hsets.mp hnil) hsome
        next => rfl

/-- Where something is known of the outcome of a survey, there is a survey. -/
theorem exists_of_toOption {α : Type} {settings : Settings} {path : String} {source : Bytes}
    {read : Survey → α} {value : α}
    (hvalue : (ofSource settings path source).toOption.map read = some value) :
    ∃ survey, ofSource settings path source = .ok survey ∧ read survey = value := by
  cases hsurvey : ofSource settings path source with
  | error => simp [hsurvey, Except.toOption] at hvalue
  | ok survey =>
      rw [hsurvey] at hvalue
      exact ⟨survey, rfl, Option.some.inj hvalue⟩

theorem source_eq {settings : Settings} {path : String} {source : Bytes} {survey : Survey}
    (hsurvey : ofSource settings path source = .ok survey) : survey.source = source := by
  obtain ⟨_, _, _, rfl, _⟩ := ofSource_eq_ok_iff.mp hsurvey
  rfl

theorem sets_eq {settings : Settings} {path : String} {source : Bytes} {survey : Survey}
    (hsurvey : ofSource settings path source = .ok survey) :
    survey.sets = survey.survivors.map (·.footprints settings.start) := by
  obtain ⟨_, _, _, rfl, _⟩ := ofSource_eq_ok_iff.mp hsurvey
  rfl

theorem functions_eq {settings : Settings} {path : String} {source : Bytes} {survey : Survey}
    (hsurvey : ofSource settings path source = .ok survey) :
    survey.functions = Footprint.uniteAll survey.sets := by
  obtain ⟨_, _, _, rfl, _⟩ := ofSource_eq_ok_iff.mp hsurvey
  rfl

end Survey

end CDelta
