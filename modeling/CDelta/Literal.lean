import CDelta.Bytes

/-! # Literals

A literal runs from its opening quote to the next equal quote that no backslash escapes.
Backslashes pair up from the left: the second of two is escaped by the first. A literal
that is never closed runs to the end of the text.
-/

namespace CDelta

namespace Bytes

/-- How many of the bytes behind an opening quote belong to the literal, the closing quote
included. `escaped` says that the byte in front is a backslash with nothing to escape but
the first byte of the rest. -/
def literalRest (quote : UInt8) (escaped : Bool) : Bytes → Nat
  | [] => 0
  | byte :: rest =>
    if byte = quote && !escaped then 1
    else 1 + literalRest quote (byte = Byte.backslash && !escaped) rest

/-- One past the last offset of the literal whose opening quote, whatever byte it is,
stands at `index`; none when no byte stands there. -/
def literalEnd? (data : Bytes) (index : Nat) : Option Nat :=
  match data.drop index with
  | [] => none
  | quote :: rest => some (index + 1 + literalRest quote false rest)

/-- The byte behind some bytes is escaped: an odd number of backslashes stands at their
end. -/
def escapesNext (bytes : Bytes) : Bool :=
  bytes.foldl (fun escaped byte => byte = Byte.backslash && !escaped) false

/-- One past the last offset of the literal whose opening quote is the byte `back` bytes in
front of the end; none when the text is not that long. The text then has no beginning:
backslashes in front of it are those at its end, as far back as the quote, and behind its
last byte the search goes on with its first. -/
def literalEndFromEnd? (data : Bytes) (back : Nat) : Option Nat :=
  if back = 0 || data.length < back then none
  else
    let behind := data.length - back + 1
    let start := if back = 1 then 0 else behind
    (data[behind - 1]?).map fun quote =>
      start + literalRest quote (escapesNext (data.drop behind ++ data.take start))
        (data.drop start)

/-- `literalEnd?` for an offset that, below zero, counts from the end. -/
def literalEndAt? (data : Bytes) (index : Int) : Option Nat :=
  if 0 ≤ index then data.literalEnd? index.toNat
  else data.literalEndFromEnd? (-index).toNat

theorem literalRest_le_length (quote : UInt8) (escaped : Bool) (rest : Bytes) :
    literalRest quote escaped rest ≤ rest.length := by
  induction rest generalizing escaped with
  | nil => simp [literalRest]
  | cons byte rest ih =>
      unfold literalRest
      split
      next => simp
      next =>
        have hrest := ih (byte = Byte.backslash && !escaped)
        simp only [List.length_cons]
        omega

end Bytes

end CDelta
