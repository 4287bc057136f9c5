import CDelta.View

/-! # Comparing regions

Two regions are compared literal by literal, and if their literals agree, byte by byte. They
differ at the first place where the two sides do not show the same; a side that has come to
its end differs at the end of its region.
-/

namespace CDelta

/-- The result of a comparison: nothing differs, or the first offsets that do. -/
inductive Outcome where
  | same
  | differs (a b : Int)
deriving DecidableEq, Repr

namespace Outcome

/-- Something differs. -/
def isChange : Outcome → Bool
  | same => false
  | differs _ _ => true

/-- The heads of two lists where they first have different keys, or where one of them
ends. -/
def firstDifference {α κ : Type} [DecidableEq κ] (keyA keyB : α → κ) :
    List α → List α → Option (Option α × Option α)
  | [], [] => none
  | [], b :: _ => some (none, some b)
  | a :: _, [] => some (some a, none)
  | a :: as, b :: bs =>
    if keyA a = keyB b then firstDifference keyA keyB as bs else some (some a, some b)

/-- The offset at which a side differs: that of an element, or the end of the region. -/
def offset {α : Type} (region : Span) (place : α → Int) : Option α → Int
  | some element => place element
  | none => max region.last 0

/-- The first difference between the literals of two regions. -/
def literalDifference (viewA : View) (regionA : Span) (viewB : View) (regionB : Span) :
    Option (Option Mark × Option Mark) :=
  firstDifference viewA.literalKey viewB.literalKey (viewA.literalsIn regionA)
    (viewB.literalsIn regionB)

/-- The first difference between the other bytes of two regions. -/
def byteDifference (viewA : View) (regionA : Span) (viewB : View) (regionB : Span) :
    Option (Option (UInt8 × Nat) × Option (UInt8 × Nat)) :=
  firstDifference (·.1) (·.1) (viewA.significantIn regionA) (viewB.significantIn regionB)

/-- Compares two regions. -/
def ofRegions (viewA : View) (regionA : Span) (viewB : View) (regionB : Span) : Outcome :=
  match literalDifference viewA regionA viewB regionB with
  | some (a, b) => differs (offset regionA (·.first) a) (offset regionB (·.first) b)
  | none =>
    match byteDifference viewA regionA viewB regionB with
    | some (a, b) => differs (offset regionA (·.2) a) (offset regionB (·.2) b)
    | none => same

end Outcome

end CDelta
