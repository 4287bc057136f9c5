/-! # Byte strings

Source text is handled byte by byte and nothing is assumed of its encoding. Offsets
count from zero; lines count from one, and a line ends with its newline byte.
-/

namespace CDelta

/-- Source text as a sequence of bytes. -/
abbrev Bytes := List UInt8

namespace Byte

/-- The horizontal tab. -/
def tab : UInt8 := 9

/-- The byte that ends a line. -/
def newline : UInt8 := 10

/-- The carriage return, which may stand before a newline. -/
def carriageReturn : UInt8 := 13

/-- The byte that overwrites hidden text. -/
def space : UInt8 := 32

/-- The quote of a string literal. -/
def doubleQuote : UInt8 := 34

/-- The quote of a character literal. -/
def singleQuote : UInt8 := 39

/-- The byte that starts a directive. -/
def hash : UInt8 := 35

/-- The asterisk of a comment bracket. -/
def star : UInt8 := 42

/-- The slash of a comment bracket. -/
def slash : UInt8 := 47

/-- The escape byte. -/
def backslash : UInt8 := 92

end Byte

namespace Bytes

/-- The bytes of characters below U+0100, one byte for each. -/
def ofChars (chars : List Char) : Bytes :=
  chars.map Char.toUInt8

/-- One character for each byte, by code point. -/
def latin (data : Bytes) : String :=
  String.ofList (data.map fun byte => Char.ofNat byte.toNat)

/-- The number of newlines among the first `count` bytes. -/
def newlinesIn : Nat → Bytes → Nat
  | 0, _ => 0
  | _, [] => 0
  | count + 1, byte :: rest =>
    if byte = Byte.newline then newlinesIn count rest + 1 else newlinesIn count rest

/-- The number of the line that holds `offset`: one more than the newlines strictly
before it. An offset past the end counts every newline. -/
def lineAt (data : Bytes) (offset : Nat) : Nat :=
  newlinesIn offset data + 1

/-- The number of the line that holds `offset`; every offset below zero is on line one. -/
def lineOf (data : Bytes) (offset : Int) : Nat :=
  data.lineAt offset.toNat

theorem newlinesIn_eq_count (count : Nat) (data : Bytes) :
    newlinesIn count data = (data.take count).count Byte.newline := by
  induction data generalizing count with
  | nil => cases count <;> simp [newlinesIn]
  | cons byte rest ih =>
      cases count with
      | zero => simp [newlinesIn]
      | succ count =>
          unfold newlinesIn
          rw [List.take_succ_cons, List.count_cons, ih]
          split <;> simp_all

theorem lineAt_eq_count (data : Bytes) (offset : Nat) :
    data.lineAt offset = (data.take offset).count Byte.newline + 1 := by
  rw [lineAt, newlinesIn_eq_count]

end Bytes

end CDelta
