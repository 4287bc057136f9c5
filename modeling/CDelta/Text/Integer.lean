import CDelta.Text.Blank
import CDelta.Text.Quoted

/-! # Reading integers

An integer may have blanks around it and one sign in front. Its digits are the decimal
digits of any script, mixed at will, and single underscores may stand between them.
-/

namespace CDelta.Text

/-- The code point of each script's zero; its other digits follow in order. -/
def zeros : List Nat :=
  [0x30, 0x660, 0x6F0, 0x7C0, 0x966, 0x9E6, 0xA66, 0xAE6, 0xB66, 0xBE6, 0xC66, 0xCE6, 0xD66,
    0xDE6, 0xE50, 0xED0, 0xF20, 0x1040, 0x1090, 0x17E0, 0x1810, 0x1946, 0x19D0, 0x1A80,
    0x1A90, 0x1B50, 0x1BB0, 0x1C40, 0x1C50, 0xA620, 0xA8D0, 0xA900, 0xA9D0, 0xA9F0, 0xAA50,
    0xABF0, 0xFF10, 0x104A0, 0x10D30, 0x11066, 0x110F0, 0x11136, 0x111D0, 0x112F0, 0x11450,
    0x114D0, 0x11650, 0x116C0, 0x11730, 0x118E0, 0x11950, 0x11C50, 0x11D50, 0x11DA0,
    0x16A60, 0x16AC0, 0x16B50, 0x1D7CE, 0x1D7D8, 0x1D7E2, 0x1D7EC, 0x1D7F6, 0x1E140,
    0x1E2F0, 0x1E950, 0x1FBF0]

/-- The value of a decimal digit of any script. -/
def digit? (char : Char) : Option Nat :=
  (zeros.find? fun low => low ≤ char.toNat && char.toNat < low + 10).map (char.toNat - ·)

namespace Integer

/-- The value of digits behind a number that is already read. `afterDigit` says that a
digit stands in front, so that the number may end or an underscore may follow. -/
def digits? (value : Nat) (afterDigit : Bool) : List Char → Option Nat
  | [] => if afterDigit then some value else none
  | char :: rest =>
    match digit? char with
    | some digit => digits? (value * 10 + digit) true rest
    | none => if char = '_' && afterDigit then digits? value false rest else none

/-- The characters that may surround an integer: the blanks without the information
separators. -/
def isMargin (char : Char) : Bool :=
  isBlank char && !(0x1C ≤ char.toNat && char.toNat ≤ 0x1F)

/-- The value of an integer without margins. -/
def signed? : List Char → Option Int
  | '+' :: rest => (digits? 0 false rest).map Int.ofNat
  | '-' :: rest => (digits? 0 false rest).map fun value => -(value : Int)
  | chars => (digits? 0 false chars).map Int.ofNat

/-- The integer that a text spells. -/
def read? (text : String) : Option Int :=
  signed? (trim isMargin text.toList)

/-- The wording for a text that spells no integer. The text is quoted and the quotation
cut after two hundred characters. -/
def refusal (text : String) : String :=
  let shown := String.ofList ((quoted text).toList.take 200)
  s!"invalid literal for int() with base 10: {shown}"

end Integer

end CDelta.Text
