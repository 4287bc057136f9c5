/-! # Blank characters

The white space of Unicode, with the four information separators of ASCII.
-/

namespace CDelta.Text

/-- The first and last code points of each run of blank characters. -/
def blankRanges : List (Nat × Nat) :=
  [(0x9, 0xD), (0x1C, 0x20), (0x85, 0x85), (0xA0, 0xA0), (0x1680, 0x1680), (0x2000, 0x200A),
    (0x2028, 0x2029), (0x202F, 0x202F), (0x205F, 0x205F), (0x3000, 0x3000)]

/-- The character is white space. -/
def isBlank (char : Char) : Bool :=
  blankRanges.any fun (low, high) => low ≤ char.toNat && char.toNat ≤ high

/-- The characters without those at either end that satisfy `drop`. -/
def trim (drop : Char → Bool) (chars : List Char) : List Char :=
  ((chars.dropWhile drop).reverse.dropWhile drop).reverse

/-- The text without the blank characters at its ends. -/
def strip (text : String) : String :=
  String.ofList (trim isBlank text.toList)

end CDelta.Text
