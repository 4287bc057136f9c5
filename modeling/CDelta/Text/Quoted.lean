import CDelta.Text.Printable

/-! # Quoted text

Text in messages stands between single quotes, or between double quotes when it holds a
single quote and no double one. The backslash and the quote in use are escaped, and so is
every character that is not printable.
-/

namespace CDelta.Text

/-- The hexadecimal digits of a number, at least `width` of them. -/
def hexDigits (width : Nat) (value : Nat) : List Char :=
  let digits := Nat.toDigits 16 value
  List.replicate (width - digits.length) '0' ++ digits

/-- The quote that surrounds a text. -/
def quoteFor (chars : List Char) : Char :=
  if chars.contains '\x27' && !chars.contains '\x22' then '\x22' else '\x27'

/-- A character between quotes. -/
def escaped (quote char : Char) : List Char :=
  if char = '\\' || char = quote then ['\\', char]
  else if char = '\n' then ['\\', 'n']
  else if char = '\r' then ['\\', 'r']
  else if char = '\t' then ['\\', 't']
  else if isPrintable char then [char]
  else if char.toNat < 0x100 then ['\\', 'x'] ++ hexDigits 2 char.toNat
  else if char.toNat < 0x10000 then ['\\', 'u'] ++ hexDigits 4 char.toNat
  else ['\\', 'U'] ++ hexDigits 8 char.toNat

/-- The text between quotes. -/
def quoted (text : String) : String :=
  let chars := text.toList
  let quote := quoteFor chars
  String.ofList ([quote] ++ chars.flatMap (escaped quote) ++ [quote])

end CDelta.Text
