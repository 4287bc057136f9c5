import CDelta.Conditional

/-! # Branch choices

The shape of a sequence of conditionals is its depth, the deepest nesting, and its width,
the most branches of any one conditional. A choice is a number written with one digit for
each level of nesting, in the radix of the width: the digit of a level picks the branch of
every conditional met there, the last branch when there are too few. What a choice does not
pick is hidden as a whole, and nothing inside of it is looked at.
-/

namespace CDelta

/-- The deepest nesting and the widest conditional. -/
structure Shape where
  depth : Nat
  width : Nat
deriving DecidableEq, Repr

namespace Shape

/-- The number of choices. Without conditionals there is one. -/
def choices (shape : Shape) : Nat :=
  shape.width.pow shape.depth

/-- The `count` lowest digits of a choice in a radix, the highest first. Quotients are
rounded down, so that a digit has the sign of the radix. -/
def digitsIn (radix : Int) : Nat → Int → List Int
  | 0, _ => []
  | count + 1, choice =>
    (choice.fdiv (radix.pow count)).fmod radix :: digitsIn radix count choice

/-- The digits of a choice in a radix; none when there are digits but they have no values. -/
def digitsIn? (radix : Int) (count : Nat) (choice : Int) : Option (List Int) :=
  if radix = 0 && count ≠ 0 then none else some (digitsIn radix count choice)

/-- The digits of a choice, one for each level of nesting. -/
def digits (shape : Shape) (choice : Int) : List Int :=
  digitsIn shape.width shape.depth choice

end Shape

namespace Conditional

/-- The number of branches. -/
def width (conditional : Conditional) : Nat :=
  conditional.branches.length

end Conditional

mutual

/-- The deepest nesting in a sequence. -/
def Sequence.depth : Sequence → Nat
  | .nil => 0
  | .cons first rest => max (first.innerDepth + 1) rest.depth

/-- The deepest nesting inside of the branches of a conditional. -/
def Conditional.innerDepth : Conditional → Nat
  | .last _ _ body => body.depth
  | .more _ _ body rest => max body.depth rest.innerDepth

end

mutual

/-- The most branches of any conditional in a sequence. -/
def Sequence.width : Sequence → Nat
  | .nil => 0
  | .cons first rest => max (max first.width first.innerWidth) rest.width

/-- The most branches of any conditional inside of the branches of a conditional. -/
def Conditional.innerWidth : Conditional → Nat
  | .last _ _ body => body.width
  | .more _ _ body rest => max body.width rest.innerWidth

end

namespace Conditional

/-- The position a digit stands for: that of the last branch when it is past it. -/
def chosen (conditional : Conditional) (digit : Int) : Int :=
  min digit ((conditional.width : Int) - 1)

/-- The spans of the branches that a digit does not pick. -/
def others (conditional : Conditional) (digit : Int) : List Span :=
  (conditional.branches.zipIdx.filter fun (_, index) =>
    (index : Int) ≠ conditional.chosen digit).map fun (branch, _) => branch.text

/-- The position of the branch that a digit leads into. A digit below zero counts from the
end, and may lead nowhere. -/
def position? (conditional : Conditional) (digit : Int) : Option Nat :=
  let chosen := conditional.chosen digit
  if 0 ≤ chosen then some chosen.toNat
  else if 0 ≤ chosen + conditional.width then some (chosen + conditional.width).toNat
  else none

end Conditional

mutual

/-- The spans that digits leave out of a sequence: at each conditional the branches that
are not picked, then those left out inside of the one that is. There is no answer when a
conditional is nested deeper than there are digits. -/
def Sequence.unselected? : List Int → Sequence → Option (List Span)
  | _, .nil => some []
  | [], .cons _ _ => none
  | digit :: deeper, .cons first rest =>
    match first.position? digit with
    | none => none
    | some position =>
      match first.unselectedIn? position deeper, rest.unselected? (digit :: deeper) with
      | some inner, some more => some (first.others digit ++ inner ++ more)
      | _, _ => none

/-- The spans that digits leave out inside of the branch at a position. -/
def Conditional.unselectedIn? : Nat → List Int → Conditional → Option (List Span)
  | 0, digits, .last _ _ body => body.unselected? digits
  | 0, digits, .more _ _ body _ => body.unselected? digits
  | position + 1, digits, .more _ _ _ rest => rest.unselectedIn? position digits
  | _ + 1, _, .last _ _ _ => none

end

namespace Sequence

/-- The deepest nesting and the widest conditional of a sequence. -/
def shape (sequence : Sequence) : Shape :=
  ⟨sequence.depth, sequence.width⟩

/-- The spans that a choice leaves out. -/
def unselected (sequence : Sequence) (choice : Int) : List Span :=
  (sequence.unselected? (sequence.shape.digits choice)).getD []

end Sequence

end CDelta
