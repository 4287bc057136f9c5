import CDelta.Bytes

/-! # Reading UTF-8

Bytes are read as UTF-8 and every ill-formed part is replaced by U+FFFD: one replacement
for each longest piece that begins some well-formed sequence, and one for each byte that
begins none. Overlong forms, surrogates and values past U+10FFFF are ill-formed.
-/

namespace CDelta.Text.Utf8

/-- A sequence that has begun: how many bytes it still needs, the bounds of the next one,
and the value of the bits read. -/
structure Pending where
  owed : Nat
  low : UInt8
  high : UInt8
  value : Nat
deriving DecidableEq, Repr

/-- The character that stands for an ill-formed part. -/
def replacement : Char := Char.ofNat 0xFFFD

/-- What a byte does at the start of a sequence: the characters it completes and the
sequence it begins. -/
def start (byte : UInt8) : List Char × Option Pending :=
  let bits := byte.toNat
  if byte < 0x80 then ([Char.ofNat bits], none)
  else if byte < 0xC2 then ([replacement], none)
  else if byte < 0xE0 then ([], some ⟨1, 0x80, 0xBF, bits - 0xC0⟩)
  else if byte = 0xE0 then ([], some ⟨2, 0xA0, 0xBF, 0⟩)
  else if byte = 0xED then ([], some ⟨2, 0x80, 0x9F, 0xD⟩)
  else if byte < 0xF0 then ([], some ⟨2, 0x80, 0xBF, bits - 0xE0⟩)
  else if byte = 0xF0 then ([], some ⟨3, 0x90, 0xBF, 0⟩)
  else if byte < 0xF4 then ([], some ⟨3, 0x80, 0xBF, bits - 0xF0⟩)
  else if byte = 0xF4 then ([], some ⟨3, 0x80, 0x8F, 4⟩)
  else ([replacement], none)

/-- What a byte does, given the sequence it may continue. A byte that cannot continue the
sequence ends it ill-formed and is itself read at the start of another. -/
def step : Option Pending → UInt8 → List Char × Option Pending
  | none, byte => start byte
  | some pending, byte =>
    if pending.low ≤ byte && byte ≤ pending.high then
      let value := pending.value * 64 + (byte.toNat - 0x80)
      if pending.owed ≤ 1 then ([Char.ofNat value], none)
      else ([], some ⟨pending.owed - 1, 0x80, 0xBF, value⟩)
    else
      let (chars, next) := start byte
      (replacement :: chars, next)

/-- The characters of the rest of a text; a sequence cut off by its end is ill-formed. -/
def chars : Option Pending → Bytes → List Char
  | none, [] => []
  | some _, [] => [replacement]
  | pending, byte :: rest =>
    let (found, next) := step pending byte
    found ++ chars next rest

/-- The text of some bytes. -/
def decode (data : Bytes) : String :=
  String.ofList (chars none data)

/-- The bytes of a text. -/
def encode (text : String) : Bytes :=
  text.toUTF8.toList

/-- The bytes are well-formed: they are those of their text. -/
def isWellFormed (data : Bytes) : Bool :=
  encode (decode data) = data

end CDelta.Text.Utf8
