import Mathlib.Data.List.Chain
import CDelta.Proofs.Conditional.Choice

/-! # The grammar of conditionals

Directives form conditionals exactly when their kinds derive from a context-free grammar,
and the conditionals that are read have the kind of each directive where the grammar puts
it. Directives that the grammar does not derive are refused, and the one that is blamed
stands right behind finished conditionals.
-/

namespace CDelta

namespace ControlKind

/-- The parts that the grammar of conditionals is written with. -/
inductive Phrase where
  | sequence
  | conditional
  /-- What follows the first branch of a conditional: its other branches and its end. -/
  | continuation

/-- The kinds of directives that each phrase may consist of.

    sequence     ::=  nothing | conditional sequence
    conditional  ::=  opens sequence continuation
    continuation ::=  divides sequence continuation | closes
-/
inductive Derives : Phrase → List ControlKind → Prop where
  | nothing : Derives .sequence []
  | append {first rest : List ControlKind} (hfirst : Derives .conditional first)
      (hrest : Derives .sequence rest) : Derives .sequence (first ++ rest)
  | opens {body rest : List ControlKind} (hbody : Derives .sequence body)
      (hrest : Derives .continuation rest) : Derives .conditional (.opens :: (body ++ rest))
  | divides {body rest : List ControlKind} (hbody : Derives .sequence body)
      (hrest : Derives .continuation rest) : Derives .continuation (.divides :: (body ++ rest))
  | closes : Derives .continuation [.closes]

/-- How many conditionals a phrase closes that it does not open. -/
def Phrase.closing : Phrase → Nat
  | .continuation => 1
  | .sequence | .conditional => 0

/-- A phrase in front of well nested directives only closes what it has to close. -/
theorem Derives.nested_append {phrase : Phrase} {kinds : List ControlKind}
    (hderives : Derives phrase kinds) {controls : List Control}
    (hkinds : controls.map (·.kind) = kinds) {depth : Nat} {rest : List Control}
    (hrest : Control.Nested depth rest) :
    Control.Nested (depth + phrase.closing) (controls ++ rest) := by
  induction hderives generalizing controls depth rest with
  | nothing =>
      obtain rfl := List.map_eq_nil_iff.mp hkinds
      exact hrest
  | append _ _ ihfirst ihrest =>
      obtain ⟨first, later, rfl, hfirst, hlater⟩ := List.map_eq_append_iff.mp hkinds
      rw [List.append_assoc]
      exact ihfirst hfirst (ihrest hlater hrest)
  | opens _ _ ihbody ihrest =>
      obtain ⟨opener, others, rfl, hopener, hothers⟩ := List.map_eq_cons_iff.mp hkinds
      obtain ⟨body, later, rfl, hbody, hlater⟩ := List.map_eq_append_iff.mp hothers
      simp only [List.cons_append, Control.Nested, hopener, List.append_assoc]
      exact ihbody hbody (ihrest hlater hrest)
  | divides _ _ ihbody ihrest =>
      obtain ⟨divider, others, rfl, hdivider, hothers⟩ := List.map_eq_cons_iff.mp hkinds
      obtain ⟨body, later, rfl, hbody, hlater⟩ := List.map_eq_append_iff.mp hothers
      simp only [List.cons_append, Phrase.closing, Control.Nested, hdivider, List.append_assoc]
      exact ihbody hbody (ihrest hlater hrest)
  | closes =>
      obtain ⟨closer, others, rfl, hcloser, hothers⟩ := List.map_eq_cons_iff.mp hkinds
      obtain rfl := List.map_eq_nil_iff.mp hothers
      simp only [List.cons_append, Phrase.closing, Control.Nested, hcloser]
      exact hrest

end ControlKind

mutual

/-- Every conditional begins with a directive that opens it, its other branches with one that
divides it, and it ends with one that closes it. -/
def Sequence.Spelled : Sequence → Prop
  | .nil => True
  | .cons first rest => first.Spelled .opens ∧ rest.Spelled

/-- The first branch begins with a directive of the kind, the others with one that divides,
and the last ends with one that closes. -/
def Conditional.Spelled (kind : ControlKind) : Conditional → Prop
  | .last opener closer body => opener.kind = kind ∧ closer.kind = .closes ∧ body.Spelled
  | .more opener _ body rest => opener.kind = kind ∧ body.Spelled ∧ rest.Spelled .divides

end

mutual

theorem Sequence.derives : (sequence : Sequence) → sequence.Spelled →
    ControlKind.Derives .sequence (sequence.controls.map (·.kind))
  | .nil, _ => .nothing
  | .cons first rest, ⟨hfirst, hrest⟩ => by
      obtain ⟨body, later, hkinds, hbody, hlater⟩ := first.exists_derives hfirst
      rw [Sequence.controls, List.map_append, hkinds]
      exact .append (.opens hbody hlater) (rest.derives hrest)

/-- Behind its first directive, a conditional is the sequence in its first branch and a
continuation. -/
theorem Conditional.exists_derives {kind : ControlKind} : (conditional : Conditional) →
    conditional.Spelled kind → ∃ body rest : List ControlKind,
      conditional.controls.map (·.kind) = kind :: (body ++ rest) ∧
        ControlKind.Derives .sequence body ∧ ControlKind.Derives .continuation rest
  | .last opener closer body, ⟨hopener, hcloser, hbody⟩ => by
      refine ⟨body.controls.map (·.kind), [.closes], ?_, body.derives hbody, .closes⟩
      simp [Conditional.controls, hopener, hcloser]
  | .more opener closer body rest, ⟨hopener, hbody, hrest⟩ => by
      obtain ⟨inner, later, hkinds, hinner, hlater⟩ := rest.exists_derives hrest
      refine ⟨body.controls.map (·.kind), _, ?_, body.derives hbody, .divides hinner hlater⟩
      simp [Conditional.controls, hopener, hkinds]

end

namespace Branch

/-- Branches that have ended, the latest first, with `current` behind them: `opening` begins
the first branch, and every later one begins with a directive that divides. -/
def Spelled (opening : Control) : Control → List Branch → Prop
  | current, [] => current = opening
  | current, branch :: earlier =>
    current.kind = .divides ∧ branch.body.Spelled ∧ Spelled opening branch.opener earlier

theorem Spelled.exists_controls {opening current : Control} {ended : List Branch}
    (hspelled : Spelled opening current ended) :
    ∃ rest, ended.reverse.flatMap Branch.controls ++ [current] = opening :: rest := by
  induction ended generalizing current with
  | nil =>
      obtain rfl := hspelled
      exact ⟨[], rfl⟩
  | cons branch earlier ih =>
      obtain ⟨rest, hrest⟩ := ih hspelled.2.2
      refine ⟨rest ++ branch.body.controls ++ [current], ?_⟩
      rw [← List.cons_append, ← List.cons_append, ← hrest]
      simp [controls]

end Branch

namespace Conditional

theorem Spelled.kind_opener {conditional : Conditional} {kind : ControlKind}
    (hspelled : conditional.Spelled kind) : conditional.opener.kind = kind := by
  cases conditional <;> exact hspelled.1

theorem Spelled.kind_closer {kind : ControlKind} : {conditional : Conditional} →
    conditional.Spelled kind → conditional.closer.kind = .closes
  | .last _ _ _, hspelled => hspelled.2.1
  | .more _ _ _ _, hspelled => hspelled.2.2.kind_closer

/-- A conditional with a directive that divides, or with the first one, in front is spelled
from its first branch on. -/
theorem Spelled.prepend {opening : Control} (hopening : opening.kind = .opens)
    {conditional : Conditional} {ended : List Branch}
    (hspelled : conditional.Spelled conditional.opener.kind)
    (hended : Branch.Spelled opening conditional.opener ended) :
    (conditional.prepend ended).Spelled .opens := by
  induction ended generalizing conditional with
  | nil =>
      have hopener : conditional.opener = opening := hended
      rwa [hopener, hopening] at hspelled
  | cons branch earlier ih =>
      obtain ⟨hdivides, hbody, hearlier⟩ := hended
      rw [prepend_cons]
      rw [hdivides] at hspelled
      exact ih ⟨rfl, hbody, hspelled⟩ hearlier

end Conditional

namespace Sequence

theorem spelled_ofReversed {conditionals : List Conditional}
    (hspelled : ∀ conditional ∈ conditionals, conditional.Spelled .opens) :
    (ofReversed conditionals).Spelled := by
  have hfold : ∀ sequence : Sequence, sequence.Spelled →
      (conditionals.foldl (fun rest conditional => cons conditional rest) sequence).Spelled := by
    induction conditionals with
    | nil => exact fun _ hsequence => hsequence
    | cons conditional conditionals ih =>
        intro sequence hsequence
        obtain ⟨hfirst, hrest⟩ := List.forall_mem_cons.mp hspelled
        exact ih hrest _ ⟨hfirst, hsequence⟩
  exact hfold nil trivial

end Sequence

namespace Frame

/-- What has been read of an open conditional is spelled so far. -/
structure Spelled (frame : Frame) : Prop where
  before : ∀ conditional ∈ frame.before, conditional.Spelled .opens
  opening : frame.opening.kind = .opens
  ended : Branch.Spelled frame.opening frame.current frame.ended

theorem Spelled.divide {frame : Frame} {body : List Conditional} (hframe : frame.Spelled)
    (hbody : ∀ conditional ∈ body, conditional.Spelled .opens) {control : Control}
    (hkind : control.kind = .divides) : (frame.divide control body).Spelled :=
  ⟨hframe.before, hframe.opening, hkind, Sequence.spelled_ofReversed hbody, hframe.ended⟩

theorem Spelled.close {frame : Frame} {body : List Conditional} (hframe : frame.Spelled)
    (hbody : ∀ conditional ∈ body, conditional.Spelled .opens) {control : Control}
    (hkind : control.kind = .closes) : (frame.close control body).Spelled .opens := by
  apply Conditional.Spelled.prepend hframe.opening
  · exact ⟨rfl, hkind, Sequence.spelled_ofReversed hbody⟩
  · exact hframe.ended

end Frame

namespace Sequence

/-- The conditionals that have been read of a sequence derive from the grammar. -/
theorem derives_of_reversed {conditionals : List Conditional}
    (hspelled : ∀ conditional ∈ conditionals, conditional.Spelled .opens) :
    ControlKind.Derives .sequence
      ((conditionals.reverse.flatMap Conditional.controls).map (·.kind)) := by
  rw [← controls_ofReversed]
  exact derives _ (spelled_ofReversed hspelled)

end Sequence

/-- The directive stands right behind finished conditionals. -/
def Control.Follows (control : Control) (controls : List Control) : Prop :=
  ∃ before after, controls = before ++ control :: after ∧
    ControlKind.Derives .sequence (before.map (·.kind))

/-- The blamed directive stands behind finished conditionals, and there it divides or closes
a conditional although none is open, or it opens one. -/
def Nesting.Blames (controls : List Control) : Nesting → Prop
  | stray control => control.kind ≠ .opens ∧ control.Follows controls
  | unclosed control => control.kind = .opens ∧ control.Follows controls

/-- The directive that opens the outermost open conditional follows what was read before it. -/
theorem Frame.Spelled.follows {outermost : Frame} (houtermost : outermost.Spelled)
    (later : List Control) : outermost.opening.Follows (outermost.controls ++ later) := by
  obtain ⟨rest, hrest⟩ := houtermost.ended.exists_controls
  refine ⟨outermost.before.reverse.flatMap Conditional.controls, rest ++ later, ?_,
    Sequence.derives_of_reversed houtermost.before⟩
  rw [Frame.controls, List.append_assoc _ _ [outermost.current], hrest]
  simp

namespace Sequence

/-- Reading on from any state whose directives have the right kinds gives conditionals whose
directives have them, or blames one of the directives read before or still to be read. -/
theorem read_spelled {body : List Conditional} {frames : List Frame}
    (controls : List Control) (hbody : ∀ conditional ∈ body, conditional.Spelled .opens)
    (hframes : ∀ frame ∈ frames, frame.Spelled) :
    (∀ sequence, read body frames controls = .ok sequence → sequence.Spelled) ∧
      ∀ nesting, read body frames controls = .error nesting → nesting.Blames
        (frames.reverse.flatMap Frame.controls ++ body.reverse.flatMap Conditional.controls ++
          controls) := by
  -- frames and body written out again are what has been read, so a step keeps the whole list
  induction controls generalizing body frames with
  | nil =>
      rcases List.eq_nil_or_concat' frames with rfl | ⟨inner, outermost, rfl⟩
      · have hread : read body [] [] = .ok (ofReversed body) := rfl
        simpa [hread] using spelled_ofReversed hbody
      · -- the stack ends with the conditional opened first, and that one is blamed
        have hread : read body (inner ++ [outermost]) [] =
            .error (.unclosed outermost.opening) := by
          simp [read]
        have hframe : outermost.Spelled := hframes outermost (by simp)
        have hfollows := hframe.follows
          (inner.reverse.flatMap Frame.controls ++ body.reverse.flatMap Conditional.controls)
        simpa [hread, Nesting.Blames, hframe.opening] using hfollows
  | cons control rest ih =>
      have hfollows : control.Follows (body.reverse.flatMap Conditional.controls ++
          control :: rest) :=
        ⟨_, rest, rfl, derives_of_reversed hbody⟩
      have hnothing : ∀ conditional ∈ ([] : List Conditional), conditional.Spelled .opens := by
        simp
      cases hkind : control.kind with
      | opens =>
          have hnext : ∀ frame ∈ ⟨body, [], control, control⟩ :: frames, Frame.Spelled frame := by
            rw [List.forall_mem_cons]
            exact ⟨⟨hbody, hkind, rfl⟩, hframes⟩
          simp only [read, hkind]
          simpa [Frame.controls] using ih hnothing hnext
      | divides =>
          cases frames with
          | nil =>
              simp only [read, hkind]
              simpa [Nesting.Blames, hkind] using hfollows
          | cons frame outer =>
              obtain ⟨hframe, houter⟩ := List.forall_mem_cons.mp hframes
              have hnext : ∀ next ∈ frame.divide control body :: outer, Frame.Spelled next := by
                rw [List.forall_mem_cons]
                exact ⟨hframe.divide hbody hkind, houter⟩
              simp only [read, hkind]
              simpa [Frame.controls_divide] using ih hnothing hnext
      | closes =>
          cases frames with
          | nil =>
              simp only [read, hkind]
              simpa [Nesting.Blames, hkind] using hfollows
          | cons frame outer =>
              obtain ⟨hframe, houter⟩ := List.forall_mem_cons.mp hframes
              have hnext : ∀ conditional ∈ frame.close control body :: frame.before,
                  conditional.Spelled .opens := by
                rw [List.forall_mem_cons]
                exact ⟨hframe.close hbody hkind, hframe.before⟩
              have hclose := frame.controls_close control body
              simp only [read, hkind]
              simpa [hclose] using ih hnext houter

theorem spelled_ofControls {controls : List Control} {sequence : Sequence}
    (hread : ofControls controls = .ok sequence) : sequence.Spelled :=
  (read_spelled controls (by simp) (by simp)).1 sequence hread

/-- Directives form conditionals exactly when their kinds derive from the grammar. -/
theorem exists_ofControls_iff (controls : List Control) :
    (∃ sequence, ofControls controls = .ok sequence) ↔
      ControlKind.Derives .sequence (controls.map (·.kind)) := by
  constructor
  · rintro ⟨sequence, hread⟩
    rw [← controls_ofControls hread]
    exact sequence.derives (spelled_ofControls hread)
  · intro hderives
    apply exists_ofControls
    have hnested : Control.Nested 0 ([] : List Control) := rfl
    simpa [ControlKind.Phrase.closing] using hderives.nested_append rfl hnested

/-- The conditional stands in the sequence, at any depth. -/
inductive Has : Sequence → Conditional → Prop where
  | here {sequence : Sequence} {conditional : Conditional}
      (hmem : conditional ∈ sequence.conditionals) : Has sequence conditional
  | inside {sequence : Sequence} {outer conditional : Conditional} {branch : Branch}
      (houter : outer ∈ sequence.conditionals) (hbranch : branch ∈ outer.branches)
      (hinside : Has branch.body conditional) : Has sequence conditional

end Sequence

namespace Conditional

theorem Spelled.body_of_mem : {conditional : Conditional} → {kind : ControlKind} →
    conditional.Spelled kind → {branch : Branch} → branch ∈ conditional.branches →
    branch.body.Spelled
  | .last _ _ _, _, hspelled, branch, hmem => by
      obtain rfl := List.mem_singleton.mp hmem
      exact hspelled.2.2
  | .more _ _ _ _, _, hspelled, branch, hmem => by
      rcases List.mem_cons.mp hmem with rfl | hmem
      · exact hspelled.2.1
      · exact hspelled.2.2.body_of_mem hmem

theorem head?_branches (conditional : Conditional) :
    conditional.branches.head?.map (·.opener) = some conditional.opener := by
  cases conditional <;> rfl

theorem getLast?_branches : (conditional : Conditional) →
    conditional.branches.getLast?.map (·.closer) = some conditional.closer
  | .last _ _ _ => rfl
  | .more opener closer body rest => by
      have hrest := rest.getLast?_branches
      obtain ⟨branch, hbranch, hcloser⟩ := Option.map_eq_some_iff.mp hrest
      simp [branches, List.getLast?_cons, hbranch, Conditional.closer, hcloser]

/-- Every later branch begins with the directive that ends the one before, and that directive
divides. -/
theorem isChain_branches : (conditional : Conditional) → {kind : ControlKind} →
    conditional.Linked → conditional.Spelled kind →
    conditional.branches.IsChain fun earlier later =>
      later.opener = earlier.closer ∧ later.opener.kind = .divides
  | .last _ _ _, _, _, _ => .singleton _
  | .more opener closer body rest, kind, hlinked, hspelled => by
      obtain ⟨hcloser, _, hrest⟩ := hlinked
      rw [branches, List.isChain_cons]
      refine ⟨fun later hlater => ?_, rest.isChain_branches hrest hspelled.2.2⟩
      have hopener : later.opener = rest.opener := by
        have hhead := rest.head?_branches
        rw [Option.mem_def.mp hlater] at hhead
        exact Option.some.inj hhead
      exact ⟨hopener.trans hcloser.symm, hopener ▸ hspelled.2.2.kind_opener⟩

end Conditional

namespace Sequence

theorem Spelled.of_mem : {sequence : Sequence} → sequence.Spelled →
    {conditional : Conditional} → conditional ∈ sequence.conditionals →
    conditional.Spelled .opens
  | nil, _, conditional, hmem => by simp [conditionals] at hmem
  | cons _ _, hspelled, conditional, hmem => by
      rcases List.mem_cons.mp hmem with rfl | hmem
      · exact hspelled.1
      · exact hspelled.2.of_mem hmem

namespace Has

variable {sequence : Sequence} {conditional : Conditional}

theorem linked (hhas : sequence.Has conditional) (hlinked : sequence.Linked) :
    conditional.Linked := by
  induction hhas with
  | here hmem => exact hlinked.of_mem hmem
  | inside houter hbranch _ ih => exact ih ((hlinked.of_mem houter).body_of_mem hbranch)

theorem spelled (hhas : sequence.Has conditional) (hspelled : sequence.Spelled) :
    conditional.Spelled .opens := by
  induction hhas with
  | here hmem => exact hspelled.of_mem hmem
  | inside houter hbranch _ ih => exact ih ((hspelled.of_mem houter).body_of_mem hbranch)

theorem controls_sublist (hhas : sequence.Has conditional) :
    conditional.controls.Sublist sequence.controls := by
  induction hhas with
  | here hmem => exact Sequence.controls_sublist _ hmem
  | inside houter hbranch _ ih =>
      have hbody := Conditional.controls_body_sublist _ hbranch
      exact ih.trans (hbody.trans (Sequence.controls_sublist _ houter))

end Has

end Sequence

namespace Control

end Control

end CDelta
