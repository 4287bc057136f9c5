import CDelta.Conditional

/-! # What reading conditionals keeps

Reading loses no directive and adds none: written out again from left to right, the
conditionals are the directives they were read from. Consecutive branches share the
directive between them. Every well nested list of directives is read.
-/

namespace CDelta

mutual

/-- The directives of a sequence from left to right. -/
def Sequence.controls : Sequence → List Control
  | .nil => []
  | .cons first rest => first.controls ++ rest.controls

/-- The directives of a conditional from left to right. A directive between two branches is
listed once, as the one that opens the later branch. -/
def Conditional.controls : Conditional → List Control
  | .last opener closer body => opener :: (body.controls ++ [closer])
  | .more opener _ body rest => opener :: (body.controls ++ rest.controls)

end

mutual

/-- Every branch but the last of a conditional ends with the directive that opens the next. -/
def Sequence.Linked : Sequence → Prop
  | .nil => True
  | .cons first rest => first.Linked ∧ rest.Linked

/-- Every branch but the last ends with the directive that opens the next. -/
def Conditional.Linked : Conditional → Prop
  | .last _ _ body => body.Linked
  | .more _ closer body rest => closer = rest.opener ∧ body.Linked ∧ rest.Linked

end

namespace Branch

/-- The directives of a branch without the one that ends it. -/
def controls (branch : Branch) : List Control :=
  branch.opener :: branch.body.controls

/-- Branches, the latest first, of which each ends where the next begins, and the latest
where `next` stands. -/
def Chained : Control → List Branch → Prop
  | _, [] => True
  | next, branch :: earlier =>
    branch.closer = next ∧ branch.body.Linked ∧ Chained branch.opener earlier

end Branch

namespace Conditional

@[simp]
theorem prepend_nil (conditional : Conditional) :
    conditional.prepend [] = conditional := rfl

@[simp]
theorem prepend_cons (conditional : Conditional) (branch : Branch) (earlier : List Branch) :
    conditional.prepend (branch :: earlier) =
      (more branch.opener branch.closer branch.body conditional).prepend earlier := rfl

theorem controls_prepend (conditional : Conditional) (earlier : List Branch) :
    (conditional.prepend earlier).controls =
      earlier.reverse.flatMap Branch.controls ++ conditional.controls := by
  induction earlier generalizing conditional with
  | nil => simp
  | cons branch earlier ih =>
      rw [prepend_cons, ih]
      simp [controls, Branch.controls]

theorem Linked.prepend {conditional : Conditional} {earlier : List Branch}
    (hlinked : conditional.Linked) (hchained : Branch.Chained conditional.opener earlier) :
    (conditional.prepend earlier).Linked := by
  induction earlier generalizing conditional with
  | nil => exact hlinked
  | cons branch earlier ih =>
      obtain ⟨hcloser, hbody, hearlier⟩ := hchained
      rw [prepend_cons]
      exact ih ⟨hcloser, hbody, hlinked⟩ hearlier

end Conditional

namespace Sequence

theorem ofReversed_eq_foldl (sequence : Sequence) (conditionals : List Conditional) :
    (conditionals.foldl (fun rest conditional => cons conditional rest) sequence).controls =
      conditionals.reverse.flatMap Conditional.controls ++ sequence.controls := by
  induction conditionals generalizing sequence with
  | nil => simp
  | cons conditional conditionals ih =>
      rw [List.foldl_cons, ih]
      simp [controls]

theorem controls_ofReversed (conditionals : List Conditional) :
    (ofReversed conditionals).controls =
      conditionals.reverse.flatMap Conditional.controls := by
  rw [ofReversed, ofReversed_eq_foldl]
  simp [controls]

theorem linked_ofReversed {conditionals : List Conditional}
    (hlinked : ∀ conditional ∈ conditionals, conditional.Linked) :
    (ofReversed conditionals).Linked := by
  have hfold : ∀ sequence : Sequence, sequence.Linked →
      (conditionals.foldl (fun rest conditional => cons conditional rest) sequence).Linked := by
    induction conditionals with
    | nil => exact fun _ hsequence => hsequence
    | cons conditional conditionals ih =>
        intro sequence hsequence
        obtain ⟨hfirst, hrest⟩ := List.forall_mem_cons.mp hlinked
        exact ih hrest _ ⟨hfirst, hsequence⟩
  exact hfold nil trivial

end Sequence

namespace Conditional

theorem Linked.body_of_mem : {conditional : Conditional} → conditional.Linked →
    {branch : Branch} → branch ∈ conditional.branches → branch.body.Linked
  | .last _ _ _, hlinked, branch, hmem => by
      obtain rfl := List.mem_singleton.mp hmem
      exact hlinked
  | .more _ _ _ _, hlinked, branch, hmem => by
      rcases List.mem_cons.mp hmem with rfl | hmem
      · exact hlinked.2.1
      · exact hlinked.2.2.body_of_mem hmem

/-- The directives in a branch are among those of its conditional. -/
theorem controls_body_sublist : (conditional : Conditional) → {branch : Branch} →
    branch ∈ conditional.branches → branch.body.controls.Sublist conditional.controls
  | .last _ _ _, branch, hmem => by
      obtain rfl := List.mem_singleton.mp hmem
      exact .cons _ (List.sublist_append_left _ _)
  | .more _ _ _ rest, branch, hmem => by
      rcases List.mem_cons.mp hmem with rfl | hmem
      · exact .cons _ (List.sublist_append_left _ _)
      · exact .cons _ ((rest.controls_body_sublist hmem).trans (List.sublist_append_right _ _))

end Conditional

namespace Sequence

theorem Linked.of_mem : {sequence : Sequence} → sequence.Linked → {conditional : Conditional} →
    conditional ∈ sequence.conditionals → conditional.Linked
  | nil, _, conditional, hmem => by simp [conditionals] at hmem
  | cons _ _, hlinked, conditional, hmem => by
      rcases List.mem_cons.mp hmem with rfl | hmem
      · exact hlinked.1
      · exact hlinked.2.of_mem hmem

/-- The directives of a conditional are among those of its sequence. -/
theorem controls_sublist : (sequence : Sequence) → {conditional : Conditional} →
    conditional ∈ sequence.conditionals → conditional.controls.Sublist sequence.controls
  | nil, conditional, hmem => by simp [conditionals] at hmem
  | cons _ rest, conditional, hmem => by
      rcases List.mem_cons.mp hmem with rfl | hmem
      · exact List.sublist_append_left _ _
      · exact (rest.controls_sublist hmem).trans (List.sublist_append_right _ _)

end Sequence

namespace Frame

/-- The directives read so far of an open conditional and of what stands in front of it. -/
def controls (frame : Frame) : List Control :=
  frame.before.reverse.flatMap Conditional.controls ++
    frame.ended.reverse.flatMap Branch.controls ++ [frame.current]

/-- What has been read of an open conditional is linked. -/
def Linked (frame : Frame) : Prop :=
  (∀ conditional ∈ frame.before, conditional.Linked) ∧
    Branch.Chained frame.current frame.ended

theorem controls_divide (frame : Frame) (control : Control) (body : List Conditional) :
    (frame.divide control body).controls =
      frame.controls ++ body.reverse.flatMap Conditional.controls ++ [control] := by
  simp [controls, divide, branch, Branch.controls, Sequence.controls_ofReversed]

theorem controls_close (frame : Frame) (control : Control) (body : List Conditional) :
    frame.before.reverse.flatMap Conditional.controls ++ (frame.close control body).controls =
      frame.controls ++ body.reverse.flatMap Conditional.controls ++ [control] := by
  simp [controls, close, branch, Conditional.controls_prepend, Conditional.controls,
    Sequence.controls_ofReversed]

theorem Linked.divide {frame : Frame} {body : List Conditional} (hframe : frame.Linked)
    (hbody : ∀ conditional ∈ body, conditional.Linked) (control : Control) :
    (frame.divide control body).Linked :=
  ⟨hframe.1, rfl, Sequence.linked_ofReversed hbody, hframe.2⟩

theorem Linked.close {frame : Frame} {body : List Conditional} (hframe : frame.Linked)
    (hbody : ∀ conditional ∈ body, conditional.Linked) (control : Control) :
    (frame.close control body).Linked := by
  apply Conditional.Linked.prepend
  · exact Sequence.linked_ofReversed hbody
  · exact hframe.2

end Frame

namespace Sequence

/-- Reading on from any state keeps the directives read before and the links among them. -/
theorem read_ok {body : List Conditional} {frames : List Frame} {controls : List Control}
    {sequence : Sequence} (hread : read body frames controls = .ok sequence)
    (hbody : ∀ conditional ∈ body, conditional.Linked)
    (hframes : ∀ frame ∈ frames, frame.Linked) :
    sequence.Linked ∧
      sequence.controls =
        frames.reverse.flatMap Frame.controls ++ body.reverse.flatMap Conditional.controls ++
          controls := by
  induction controls generalizing body frames with
  | nil =>
      unfold read at hread
      split at hread
      next hlast =>
        obtain rfl := List.getLast?_eq_none_iff.mp hlast
        obtain rfl := Except.ok.inj hread
        refine ⟨linked_ofReversed hbody, ?_⟩
        simp [controls_ofReversed]
      next => simp at hread
  | cons control rest ih =>
      cases hkind : control.kind with
      | opens =>
          simp only [read, hkind] at hread
          have hnext : ∀ frame ∈ ⟨body, [], control, control⟩ :: frames, Frame.Linked frame := by
            rw [List.forall_mem_cons]
            exact ⟨⟨hbody, trivial⟩, hframes⟩
          obtain ⟨hlinked, hcontrols⟩ := ih hread (by simp) hnext
          refine ⟨hlinked, ?_⟩
          rw [hcontrols]
          simp [Frame.controls]
      | divides =>
          cases frames with
          | nil => simp [read, hkind] at hread
          | cons frame outer =>
              simp only [read, hkind] at hread
              obtain ⟨hframe, houter⟩ := List.forall_mem_cons.mp hframes
              have hnext : ∀ open_ ∈ frame.divide control body :: outer, Frame.Linked open_ := by
                rw [List.forall_mem_cons]
                exact ⟨hframe.divide hbody control, houter⟩
              obtain ⟨hlinked, hcontrols⟩ := ih hread (by simp) hnext
              refine ⟨hlinked, ?_⟩
              rw [hcontrols]
              simp [Frame.controls_divide]
      | closes =>
          cases frames with
          | nil => simp [read, hkind] at hread
          | cons frame outer =>
              simp only [read, hkind] at hread
              obtain ⟨hframe, houter⟩ := List.forall_mem_cons.mp hframes
              have hnext : ∀ conditional ∈ frame.close control body :: frame.before,
                  conditional.Linked := by
                rw [List.forall_mem_cons]
                exact ⟨hframe.close hbody control, hframe.1⟩
              obtain ⟨hlinked, hcontrols⟩ := ih hread hnext houter
              refine ⟨hlinked, ?_⟩
              have hclose := frame.controls_close control body
              rw [hcontrols, List.reverse_cons, List.flatMap_append, List.flatMap_singleton, hclose]
              simp

/-- Written out again, the conditionals are the directives they were read from. -/
theorem controls_ofControls {controls : List Control} {sequence : Sequence}
    (hread : ofControls controls = .ok sequence) : sequence.controls = controls := by
  have hkept := (read_ok hread (by simp) (by simp)).2
  simpa using hkept

theorem linked_ofControls {controls : List Control} {sequence : Sequence}
    (hread : ofControls controls = .ok sequence) : sequence.Linked :=
  (read_ok hread (by simp) (by simp)).1

end Sequence

namespace Control

/-- Where `depth` conditionals are open, the directives divide and close only open ones and
leave none open. -/
def Nested : Nat → List Control → Prop
  | depth, [] => depth = 0
  | depth, control :: rest =>
    match control.kind, depth with
    | .opens, depth => Nested (depth + 1) rest
    | .divides, depth + 1 => Nested (depth + 1) rest
    | .closes, depth + 1 => Nested depth rest
    | _, 0 => False

end Control

namespace Sequence

theorem exists_read {controls : List Control} (body : List Conditional) (frames : List Frame)
    (hnested : Control.Nested frames.length controls) :
    ∃ sequence, read body frames controls = .ok sequence := by
  induction controls generalizing frames body with
  | nil =>
      obtain rfl := List.eq_nil_of_length_eq_zero hnested
      exact ⟨ofReversed body, rfl⟩
  | cons control rest ih =>
      cases hkind : control.kind with
      | opens =>
          simp only [Control.Nested, hkind] at hnested
          simp only [read, hkind]
          exact ih [] (_ :: frames) hnested
      | divides =>
          cases frames with
          | nil => simp [Control.Nested, hkind] at hnested
          | cons frame outer =>
              simp only [List.length_cons, Control.Nested, hkind] at hnested
              simp only [read, hkind]
              exact ih [] (_ :: outer) hnested
      | closes =>
          cases frames with
          | nil => simp [Control.Nested, hkind] at hnested
          | cons frame outer =>
              simp only [List.length_cons, Control.Nested, hkind] at hnested
              simp only [read, hkind]
              exact ih _ outer hnested

/-- Well nested directives form conditionals. -/
theorem exists_ofControls {controls : List Control} (hnested : Control.Nested 0 controls) :
    ∃ sequence, ofControls controls = .ok sequence :=
  exists_read [] [] hnested

end Sequence

end CDelta
