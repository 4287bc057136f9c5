import CDelta.Proofs.Conditional.Grammar
import CDelta.Proofs.Outline
import CDelta.Proofs.Passage
import CDelta.Proofs.Survey

/-! # How a survey ends

A text is surveyed, or it has a comment that never ends, or its directives form no
conditionals, or no choice that is tried can be read. Nothing that is looked up on the way is
missing: there is a choice to try, it has a digit for each level, each digit leads into a
branch, and a word in front of parentheses has a declaration to begin.
-/

namespace CDelta

namespace Bytes

/-- The pass over a text fails exactly when it comes in code to a comment that never ends. -/
theorem marks_eq_error_iff {source : Bytes} {rule : CommentRule} (recorded : Recorded)
    {fault : Fault} :
    source.marks rule recorded = .error fault ↔ ∃ offset, source.InCode rule offset ∧
      rule.Endless (source.drop offset) ∧ fault = .openComment (source.lineAt offset) := by
  simp only [marks]
  cases hopen : (source.marking rule).openComment with
  | none =>
      refine iff_of_false (by simp) ?_
      rintro ⟨offset, hcode, hendless, _⟩
      rw [openComment_eq_some_iff.mpr ⟨hcode, hendless⟩] at hopen
      cases hopen
  | some offset =>
      obtain ⟨hcode, hendless⟩ := openComment_eq_some_iff.mp hopen
      constructor
      · intro hfault
        exact ⟨offset, hcode, hendless, (Except.error.inj hfault).symm⟩
      · rintro ⟨other, hother, hends, rfl⟩
        rw [openComment_eq_some_iff.mpr ⟨hother, hends⟩] at hopen
        rw [Option.some.inj hopen]

/-- The kinds of the directives that shape conditionals, in a text with some marks. -/
def controlKinds (source : Bytes) (marks : List Mark) : List ControlKind :=
  (Control.ofMarks (source.directives (source.blankMarks marks))).map (·.kind)

/-- A text has no layout exactly when its directives form no conditionals. -/
theorem layout_eq_error_iff {source working : Bytes} {fault : Fault} :
    source.layout working = .error fault ↔ ∃ nesting,
      Sequence.ofControls (Control.ofMarks (source.directives working)) = .error nesting ∧
        fault = nesting.toFault fun offset => source.lineOf offset := by
  simp only [layout]
  cases Sequence.ofControls (Control.ofMarks (source.directives working)) with
  | ok tree => simp
  | error nesting => simp [eq_comm]

end Bytes

namespace Sequence

theorem exists_nesting_iff (controls : List Control) :
    (∃ nesting, ofControls controls = .error nesting) ↔
      ¬ ControlKind.Derives .sequence (controls.map (·.kind)) := by
  rw [← exists_ofControls_iff]
  cases ofControls controls <;> simp

end Sequence

namespace Layout

/-- The fault that the reading of a text under a choice ends with. -/
def faultUnder (layout : Layout) (source working : Bytes) (choice : Nat) : Option Fault :=
  let scratch := working.blank (layout.unselected choice)
  (Outline.ofTokens scratch.tokens).flaw.map (·.toFault source scratch)

/-- Every digit of a choice has a value and leads into a branch. -/
structure Complete (layout : Layout) : Prop where
  digits : ∀ choice : Nat,
    Shape.digitsIn? layout.tree.shape.width layout.tree.shape.depth choice =
      some (layout.tree.shape.digits choice)
  branches : ∀ choice : Nat,
    layout.tree.unselected? (layout.tree.shape.digits choice) = some (layout.unselected choice)

theorem complete (layout : Layout) : layout.Complete where
  digits choice := layout.tree.digitsIn?_shape choice
  branches choice := layout.tree.unselected?_digits choice

end Layout

namespace OutlineReader

/-- A word that has just been read belongs to a declaration that has begun. -/
def Anchored (reader : OutlineReader) : Prop :=
  ∀ name ∈ reader.previous, Token.isWord name.text = true → ∃ start, reader.start = some start

theorem anchored_note (reader : OutlineReader) (token : Token) : (reader.note token).Anchored := by
  intro name hname hword
  obtain rfl : token = name := Option.some.inj hname
  have hother : token.text ≠ semicolon := by
    intro htext
    rw [htext] at hword
    exact absurd hword (by decide)
  simp only [note, if_neg hother]
  cases reader.start <;> simp

theorem Anchored.step {reader : OutlineReader} (hreader : reader.Anchored) (token : Token) :
    (reader.step token).Anchored := by
  have hnote := reader.anchored_note token
  have hseek : ∀ heading, (reader.seekBody heading token).Anchored := by
    intro heading
    unfold seekBody
    split <;> exact hreader
  unfold OutlineReader.step
  cases reader.stage with
  | between => cases Bracket.openedBy? token.text <;> exact hnote
  | inGroup bracket opener depth heading =>
      simp only
      cases bracket.depthAfter depth token.text <;> exact hnote
  | afterParameters heading =>
      simp only
      split
      · exact hnote
      · exact hseek heading
  | beforeBody heading => exact hseek heading
  | inBody heading brace depth =>
      simp only
      cases Bracket.curly.depthAfter depth token.text with
      | zero => simp [Anchored]
      | succ inner => exact hreader

theorem Anchored.run {reader : OutlineReader} (hreader : reader.Anchored) (tokens : List Token) :
    (reader.run tokens).Anchored := by
  induction tokens generalizing reader with
  | nil => exact hreader
  | cons token rest ih => exact ih (hreader.step token)

end OutlineReader

namespace Survey

variable {settings : Settings} {path : String} {source : Bytes}

/-- A text cannot be prepared exactly when a comment never ends, or else when its directives
form no conditionals. -/
theorem prepare_eq_error_iff {rule : CommentRule} {fault : Fault} :
    prepare rule source = .error fault ↔
      (∃ offset, source.InCode rule offset ∧ rule.Endless (source.drop offset) ∧
        fault = .openComment (source.lineAt offset)) ∨
      ∃ marks nesting, source.marks rule .everything = .ok marks ∧
        Sequence.ofControls (Control.ofMarks (source.directives (source.blankMarks marks))) =
          .error nesting ∧
        fault = nesting.toFault fun offset => source.lineOf offset := by
  rw [← Bytes.marks_eq_error_iff .everything]
  unfold prepare
  cases source.marks rule .everything with
  | error other => simp [bind, Except.bind]
  | ok marks =>
      simp only [bind, Except.bind, reduceCtorEq, Except.ok.injEq, false_or, exists_and_left,
        exists_eq_left', ← Bytes.layout_eq_error_iff]
      cases source.layout (source.blankMarks marks) <;> simp [pure, Except.pure]

theorem ofSource_eq_malformed_iff {fault : Fault} :
    ofSource settings path source = .error (.malformed fault) ↔
      prepare settings.comments source = .error fault := by
  unfold ofSource
  cases prepare settings.comments source with
  | error other => simp
  | ok found =>
      refine iff_of_false (fun hfault => ?_) (by simp)
      simp only at hfault
      split at hfault <;> cases hfault

/-- The choices of a prepared text that are tried, which is at least one. -/
theorem tried_pos {rule : CommentRule} {marks : List Mark} {layout : Layout}
    (hprepare : prepare rule source = .ok (marks, layout)) (settings : Settings) :
    0 < min layout.choices settings.choiceLimit := by
  obtain ⟨_, _, hparts⟩ := exists_parts hprepare
  exact Nat.lt_min.mpr ⟨hparts.choices_pos, settings.choiceLimit_pos⟩

/-- No choice of a prepared text survives exactly when each that is tried ends with a fault. -/
theorem survivors_eq_nil_iff (settings : Settings) (path : String) {marks : List Mark}
    {layout : Layout} :
    (ofParts settings path source marks layout).survivors = [] ↔
      ∀ choice < min layout.choices settings.choiceLimit, layout.faultUnder source
        ((source.blankMarks marks).blankMarks layout.directives) choice ≠ none := by
  rw [survivors_ofParts, List.map_eq_nil_iff, Layout.surviving, List.filter_eq_nil_iff]
  refine forall_congr' fun choice => imp_congr List.mem_range ?_
  rw [ne_eq, ← Option.isNone_iff_eq_none]
  rfl

/-- A survey is given up exactly when each choice that is tried ends with a fault, and the fault
of the last one is reported. -/
theorem ofSource_eq_exhausted_iff {fault : Fault} :
    ofSource settings path source = .error (.exhausted fault) ↔
      ∃ marks layout, prepare settings.comments source = .ok (marks, layout) ∧
        let working := (source.blankMarks marks).blankMarks layout.directives
        let tried := min layout.choices settings.choiceLimit
        (∀ choice < tried, layout.faultUnder source working choice ≠ none) ∧
          layout.faultUnder source working (tried - 1) = some fault := by
  cases hprepare : prepare settings.comments source with
  | error other => simp [ofSource, hprepare]
  | ok found =>
      obtain ⟨marks, layout⟩ := found
      have hpos := tried_pos hprepare settings
      let whole := ofParts settings path source marks layout
      -- some choice is tried, so there is a last attempt to take the fault from
      have hlast : whole.attempts.getLast?.bind (·.fault) = layout.faultUnder source
          ((source.blankMarks marks).blankMarks layout.directives)
          (min layout.choices settings.choiceLimit - 1) := by
        simp only [whole, ofParts, List.getLast?_map, List.getLast?_range]
        rw [if_neg (Nat.ne_of_gt hpos)]
        rfl
      have hnone : whole.sets = [] ↔ _ :=
        List.map_eq_nil_iff.trans (survivors_eq_nil_iff settings path)
      have hread : ofSource settings path source = .error (.exhausted fault) ↔
          whole.sets = [] ∧ whole.attempts.getLast?.bind (·.fault) = some fault := by
        simp only [ofSource, hprepare]
        constructor
        · intro hfault
          split at hfault
          next other hsets hother =>
            obtain rfl : other = fault := by simpa using hfault
            exact ⟨hsets, hother⟩
          next => cases hfault
        · rintro ⟨hsets, hfault⟩
          split
          next other _ hother =>
            obtain rfl : other = fault := Option.some.inj (hother.symm.trans hfault)
            rfl
          next hnot => exact absurd hfault (hnot fault hsets)
      rw [hread, hnone, hlast]
      simp

/-- What a survey tells of the choices of a text, given in ascending order: those that end with
a fault with that fault, and what the others leave out. -/
structure Accounts (settings : Settings) (source : Bytes) (survey : Survey) : Prop where
  marks : source.marks settings.comments .everything = .ok survey.marks
  layout : source.layout (source.blankMarks survey.marks) = .ok survey.layout
  working : survey.working = (source.blankMarks survey.marks).blankMarks survey.layout.directives
  tried : survey.choicesTried = min
    (survey.layout.tree.shape.width.pow survey.layout.tree.shape.depth) settings.choiceLimit
  tried_pos : 1 ≤ survey.choicesTried
  failures : survey.failures = (List.range survey.choicesTried).filterMap fun choice =>
    (survey.layout.faultUnder source survey.working choice).map (choice, ·)
  hidden : survey.hiddenSpans = ((List.range survey.choicesTried).filter fun choice =>
    (survey.layout.faultUnder source survey.working choice).isNone).map fun choice : Nat =>
      survey.layout.unselected choice
  survives : survey.hiddenSpans ≠ []

theorem accounts_of_ofSource {survey : Survey}
    (hsurvey : ofSource settings path source = .ok survey) : Accounts settings source survey := by
  obtain ⟨marks, layout, hprepare, rfl, hsurvivors⟩ := ofSource_eq_ok_iff.mp hsurvey
  obtain ⟨hmarks, hlayout⟩ := prepare_eq_ok_iff.mp hprepare
  have htried : (ofParts settings path source marks layout).choicesTried =
      min layout.choices settings.choiceLimit := by
    simp [choicesTried, ofParts]
  refine ⟨hmarks, hlayout, rfl, htried, htried ▸ tried_pos hprepare settings, ?_, ?_, ?_⟩
  · rw [htried, failures, ofParts, List.filterMap_map]
    rfl
  · rw [htried, hiddenSpans, survivors_ofParts, List.map_map]
    rfl
  · rw [hiddenSpans, ne_eq, List.map_eq_nil_iff]
    exact hsurvivors

/-- The ways for the survey of a text to end, each with when it does. -/
structure Ends (settings : Settings) (source : Bytes) (outcome : Except SurveyError Survey) :
    Prop where
  /-- The pass comes in code to a comment that never ends. -/
  comment : ∀ line, outcome = .error (.malformed (.openComment line)) ↔
    ∃ offset, source.InCode settings.comments offset ∧
      settings.comments.Endless (source.drop offset) ∧ line = source.lineAt offset
  /-- The pass succeeds, but the directives form no conditionals. -/
  nesting : (∃ line, outcome = .error (.malformed (.strayControl line)) ∨
      outcome = .error (.malformed (.openConditional line))) ↔
    ∃ marks, source.marks settings.comments .everything = .ok marks ∧
      ¬ ControlKind.Derives .sequence (source.controlKinds marks)
  /-- Both succeed, but each choice tried ends with a fault; that of the last is reported. -/
  exhausted : ∀ fault, outcome = .error (.exhausted fault) ↔
    ∃ marks layout, source.marks settings.comments .everything = .ok marks ∧
      source.layout (source.blankMarks marks) = .ok layout ∧
      let working := (source.blankMarks marks).blankMarks layout.directives
      let tried := min layout.choices settings.choiceLimit
      (∀ choice < tried, layout.faultUnder source working choice ≠ none) ∧
        layout.faultUnder source working (tried - 1) = some fault
  /-- The survey returns. -/
  returned : ∀ survey, outcome = .ok survey → survey.Accounts settings source
  /-- There is no other way. -/
  complete : (∃ survey, outcome = .ok survey) ∨
    (∃ line, outcome = .error (.malformed (.openComment line))) ∨
    (∃ line, outcome = .error (.malformed (.strayControl line)) ∨
      outcome = .error (.malformed (.openConditional line))) ∨
    ∃ fault, outcome = .error (.exhausted fault)

/-- A comment that never ends is reported whatever the directives are. -/
theorem comment_fault_iff {line : Nat} :
    ofSource settings path source = .error (.malformed (.openComment line)) ↔
      ∃ offset, source.InCode settings.comments offset ∧
        settings.comments.Endless (source.drop offset) ∧ line = source.lineAt offset := by
  rw [ofSource_eq_malformed_iff, prepare_eq_error_iff]
  constructor
  · rintro (⟨offset, hcode, hendless, hfault⟩ | ⟨_, nesting, _, _, hfault⟩)
    · exact ⟨offset, hcode, hendless, Fault.openComment.inj hfault⟩
    · cases nesting <;> cases hfault
  · rintro ⟨offset, hcode, hendless, rfl⟩
    exact .inl ⟨offset, hcode, hendless, rfl⟩

/-- Directives that form no conditionals are reported when the pass succeeds. -/
theorem nesting_fault_iff :
    (∃ line, ofSource settings path source = .error (.malformed (.strayControl line)) ∨
      ofSource settings path source = .error (.malformed (.openConditional line))) ↔
    ∃ marks, source.marks settings.comments .everything = .ok marks ∧
      ¬ ControlKind.Derives .sequence (source.controlKinds marks) := by
  simp only [ofSource_eq_malformed_iff, prepare_eq_error_iff, Bytes.controlKinds,
    ← Sequence.exists_nesting_iff]
  constructor
  · rintro ⟨line, (⟨_, _, _, hfault⟩ | ⟨marks, nesting, hmarks, hnesting, _⟩) |
      (⟨_, _, _, hfault⟩ | ⟨marks, nesting, hmarks, hnesting, _⟩)⟩
    · cases hfault
    · exact ⟨marks, hmarks, nesting, hnesting⟩
    · cases hfault
    · exact ⟨marks, hmarks, nesting, hnesting⟩
  · rintro ⟨marks, hmarks, nesting, hnesting⟩
    cases nesting with
    | stray control => exact ⟨_, .inl (.inr ⟨marks, _, hmarks, hnesting, rfl⟩)⟩
    | unclosed control => exact ⟨_, .inr (.inr ⟨marks, _, hmarks, hnesting, rfl⟩)⟩

theorem ofSource_cases (settings : Settings) (path : String) (source : Bytes) :
    (∃ survey, ofSource settings path source = .ok survey) ∨
      (∃ line, ofSource settings path source = .error (.malformed (.openComment line))) ∨
      (∃ line, ofSource settings path source = .error (.malformed (.strayControl line)) ∨
        ofSource settings path source = .error (.malformed (.openConditional line))) ∨
      ∃ fault, ofSource settings path source = .error (.exhausted fault) := by
  cases houtcome : ofSource settings path source with
  | ok survey => exact .inl ⟨survey, rfl⟩
  | error failure =>
      cases failure with
      | exhausted fault => exact .inr (.inr (.inr ⟨fault, rfl⟩))
      | malformed fault =>
          rcases prepare_eq_error_iff.mp (ofSource_eq_malformed_iff.mp houtcome) with
            ⟨_, _, _, rfl⟩ | ⟨_, nesting, _, _, rfl⟩
          · exact .inr (.inl ⟨_, rfl⟩)
          · refine .inr (.inr (.inl ?_))
            cases nesting with
            | stray control => exact ⟨_, .inl rfl⟩
            | unclosed control => exact ⟨_, .inr rfl⟩

theorem ends (settings : Settings) (path : String) (source : Bytes) :
    Ends settings source (ofSource settings path source) where
  comment _ := comment_fault_iff
  nesting := nesting_fault_iff
  exhausted fault := by
    simp only [ofSource_eq_exhausted_iff, prepare_eq_ok_iff, and_assoc]
  returned _ := accounts_of_ofSource
  complete := ofSource_cases settings path source

end Survey

end CDelta
