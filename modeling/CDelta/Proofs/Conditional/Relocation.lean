import CDelta.Conditional.Choice

/-! # Conditionals with their directives moved

Which conditionals directives form, and what a choice leaves out of them, does not depend on
where the directives stand. When all of their spans are moved in the same way, so are the
spans of the branches.
-/

namespace CDelta

/-- The directive with its span moved. -/
def Control.map (move : Span → Span) (control : Control) : Control :=
  { control with span := move control.span }

mutual

/-- The sequence with the spans of its directives moved. -/
def Sequence.map (move : Span → Span) : Sequence → Sequence
  | .nil => .nil
  | .cons first rest => .cons (first.map move) (rest.map move)

/-- The conditional with the spans of its directives moved. -/
def Conditional.map (move : Span → Span) : Conditional → Conditional
  | .last opener closer body => .last (opener.map move) (closer.map move) (body.map move)
  | .more opener closer body rest =>
    .more (opener.map move) (closer.map move) (body.map move) (rest.map move)

end

/-- The branch with the spans of its directives moved. -/
def Branch.map (move : Span → Span) (branch : Branch) : Branch :=
  ⟨branch.opener.map move, branch.closer.map move, branch.body.map move⟩

/-- The open conditional with the spans of its directives moved. -/
def Frame.map (move : Span → Span) (frame : Frame) : Frame :=
  ⟨frame.before.map (·.map move), frame.ended.map (·.map move), frame.opening.map move,
    frame.current.map move⟩

variable (move : Span → Span)

namespace Conditional

theorem map_prepend (conditional : Conditional) (earlier : List Branch) :
    (conditional.prepend earlier).map move =
      (conditional.map move).prepend (earlier.map (·.map move)) := by
  induction earlier generalizing conditional with
  | nil => rfl
  | cons branch earlier ih => exact ih _

theorem branches_map : (conditional : Conditional) →
    (conditional.map move).branches = conditional.branches.map (·.map move)
  | .last _ _ _ => rfl
  | .more _ _ _ rest => congrArg (_ :: ·) (branches_map rest)

theorem width_map (conditional : Conditional) :
    (conditional.map move).width = conditional.width := by
  rw [width, width, branches_map, List.length_map]

end Conditional

namespace Sequence

theorem map_ofReversed (conditionals : List Conditional) :
    (ofReversed conditionals).map move = ofReversed (conditionals.map (·.map move)) := by
  have hfold : ∀ sequence : Sequence,
      (conditionals.foldl (fun rest conditional => cons conditional rest) sequence).map move =
        (conditionals.map (·.map move)).foldl (fun rest conditional => cons conditional rest)
          (sequence.map move) := by
    induction conditionals with
    | nil => exact fun _ => rfl
    | cons conditional rest ih => exact fun sequence => ih _
  exact hfold nil

end Sequence

namespace Frame

theorem map_branch (frame : Frame) (closer : Control) (body : List Conditional) :
    (frame.branch closer body).map move =
      (frame.map move).branch (closer.map move) (body.map (·.map move)) := by
  simp only [branch, Branch.map, Sequence.map_ofReversed]
  rfl

theorem map_divide (frame : Frame) (control : Control) (body : List Conditional) :
    (frame.divide control body).map move =
      (frame.map move).divide (control.map move) (body.map (·.map move)) := by
  simp only [divide, map, List.map_cons, map_branch]

theorem map_close (frame : Frame) (control : Control) (body : List Conditional) :
    (frame.close control body).map move =
      (frame.map move).close (control.map move) (body.map (·.map move)) := by
  simp only [close, Conditional.map_prepend, ← map_branch]
  rfl

end Frame

namespace Sequence

/-- Reading goes the same way wherever the directives stand. -/
theorem read_map {body : List Conditional} {frames : List Frame} {controls : List Control}
    {sequence : Sequence} (hread : read body frames controls = .ok sequence) :
    read (body.map (·.map move)) (frames.map (·.map move)) (controls.map (·.map move)) =
      .ok (sequence.map move) := by
  induction controls generalizing body frames with
  | nil =>
      cases frames with
      | nil =>
          obtain rfl := Except.ok.inj hread
          exact congrArg Except.ok (map_ofReversed move body).symm
      | cons frame outer =>
          simp [read, List.getLast?_cons] at hread
  | cons control rest ih =>
      have hkind : (control.map move).kind = control.kind := rfl
      rw [List.map_cons]
      cases hcase : control.kind with
      | opens =>
          simp only [read, hcase] at hread
          simp only [read, hkind, hcase]
          exact ih hread
      | divides =>
          cases frames with
          | nil => simp [read, hcase] at hread
          | cons frame outer =>
              simp only [read, hcase] at hread
              simp only [List.map_cons, read, hkind, hcase]
              rw [← Frame.map_divide]
              exact ih hread
      | closes =>
          cases frames with
          | nil => simp [read, hcase] at hread
          | cons frame outer =>
              simp only [read, hcase] at hread
              simp only [List.map_cons, read, hkind, hcase]
              rw [← Frame.map_close]
              exact ih hread

theorem ofControls_map {controls : List Control} {sequence : Sequence}
    (hread : ofControls controls = .ok sequence) :
    ofControls (controls.map (·.map move)) = .ok (sequence.map move) :=
  read_map move hread

end Sequence

mutual

theorem Sequence.depth_map : (sequence : Sequence) → (sequence.map move).depth = sequence.depth
  | .nil => rfl
  | .cons first rest => by
      simp only [Sequence.map, Sequence.depth, first.innerDepth_map, rest.depth_map]

theorem Conditional.innerDepth_map : (conditional : Conditional) →
    (conditional.map move).innerDepth = conditional.innerDepth
  | .last _ _ body => by simp only [Conditional.map, Conditional.innerDepth, body.depth_map]
  | .more _ _ body rest => by
      simp only [Conditional.map, Conditional.innerDepth, body.depth_map, rest.innerDepth_map]

end

mutual

theorem Sequence.width_map : (sequence : Sequence) → (sequence.map move).width = sequence.width
  | .nil => rfl
  | .cons first rest => by
      simp only [Sequence.map, Sequence.width, first.width_map, first.innerWidth_map,
        rest.width_map]

theorem Conditional.innerWidth_map : (conditional : Conditional) →
    (conditional.map move).innerWidth = conditional.innerWidth
  | .last _ _ body => by simp only [Conditional.map, Conditional.innerWidth, body.width_map]
  | .more _ _ body rest => by
      simp only [Conditional.map, Conditional.innerWidth, body.width_map, rest.innerWidth_map]

end

theorem Sequence.shape_map (sequence : Sequence) : (sequence.map move).shape = sequence.shape := by
  rw [Sequence.shape, Sequence.shape, sequence.depth_map, sequence.width_map]

variable {move}

/-- The text between two directives moves to the text between the moved ones. -/
def Span.Between (move : Span → Span) : Prop :=
  ∀ opener closer : Span,
    move ⟨opener.first, closer.first - 1⟩ = ⟨(move opener).first, (move closer).first - 1⟩

theorem Conditional.others_map (hmove : Span.Between move) (conditional : Conditional)
    (digit : Int) :
    (conditional.map move).others digit = (conditional.others digit).map move := by
  have hchosen : (conditional.map move).chosen digit = conditional.chosen digit := by
    rw [chosen, chosen, width_map]
  simp only [others, hchosen, branches_map, List.zipIdx_map, List.filter_map, List.map_map]
  refine List.map_congr_left fun element _ => ?_
  obtain ⟨branch, index⟩ := element
  exact (hmove branch.opener.span branch.closer.span).symm

mutual

theorem Sequence.unselected?_map (hmove : Span.Between move) : (sequence : Sequence) →
    (digits : List Int) →
    (sequence.map move).unselected? digits = (sequence.unselected? digits).map (·.map move)
  | .nil, _ => by simp [Sequence.map, Sequence.unselected?]
  | .cons first rest, [] => by simp [Sequence.map, Sequence.unselected?]
  | .cons first rest, digit :: deeper => by
      have hposition : (first.map move).position? digit = first.position? digit := by
        rw [Conditional.position?, Conditional.position?, Conditional.chosen,
          Conditional.chosen, first.width_map]
      rw [Sequence.map, Sequence.unselected?, Sequence.unselected?, hposition]
      cases first.position? digit with
      | none => rfl
      | some position =>
          simp only [first.unselectedIn?_map hmove, rest.unselected?_map hmove,
            first.others_map hmove]
          cases first.unselectedIn? position deeper with
          | none => rfl
          | some inner =>
              cases rest.unselected? (digit :: deeper) with
              | none => rfl
              | some more => simp

theorem Conditional.unselectedIn?_map (hmove : Span.Between move) :
    (conditional : Conditional) → (position : Nat) → (digits : List Int) →
    (conditional.map move).unselectedIn? position digits =
      (conditional.unselectedIn? position digits).map (·.map move)
  | .last _ _ body, 0, digits => by
      simp only [Conditional.map, Conditional.unselectedIn?, body.unselected?_map hmove]
  | .more _ _ body _, 0, digits => by
      simp only [Conditional.map, Conditional.unselectedIn?, body.unselected?_map hmove]
  | .more _ _ _ rest, position + 1, digits => by
      simp only [Conditional.map, Conditional.unselectedIn?, rest.unselectedIn?_map hmove]
  | .last _ _ _, position + 1, _ => by simp [Conditional.map, Conditional.unselectedIn?]

end

/-- What a choice leaves out moves with the directives. -/
theorem Sequence.unselected_map (hmove : Span.Between move) (sequence : Sequence)
    (choice : Int) :
    (sequence.map move).unselected choice = (sequence.unselected choice).map move := by
  rw [Sequence.unselected, Sequence.unselected, sequence.shape_map,
    sequence.unselected?_map hmove]
  cases sequence.unselected? (sequence.shape.digits choice) <;> rfl

end CDelta
