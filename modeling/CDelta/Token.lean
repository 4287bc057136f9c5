import CDelta.Bytes

/-! # Tokens

A basic token is a longest run of bytes that are no delimiters, or a single delimiter
that is not blank. Two delimiters that stand side by side and spell an operator make one
token, and so does a `#` with the word that follows it on its line, even across blanks.
Blanks separate tokens and belong to none.
-/

namespace CDelta

/-- A token with its first and last offset. Its text leaves out the blanks that may
stand between a `#` and its word. -/
structure Token where
  first : Nat
  last : Nat
  text : Bytes
deriving DecidableEq, Repr

namespace Token

/-- The bytes that separate tokens. -/
def blanks : Bytes :=
  [Byte.space, Byte.tab, Byte.carriageReturn, Byte.newline]

/-- The bytes that end a word: the blanks and the punctuation of the language. The
underscore is not among them. -/
def delimiters : Bytes :=
  Bytes.ofChars ['!', '@', '#', '$', '%', '^', '&', '*', '(', ')', '-', '+', '=', '|', '\\',
    '`', '~', '[', ']', '{', '}', ';', ':', '<', '>', ',', '.', '?', '/'] ++
  [Byte.singleQuote, Byte.doubleQuote] ++ blanks

/-- The byte separates tokens. -/
def isBlank (byte : UInt8) : Bool :=
  blanks.contains byte

/-- The byte ends a word. -/
def isDelimiter (byte : UInt8) : Bool :=
  delimiters.contains byte

/-- At least one byte, and none of them a delimiter; a number is an identifier too. -/
def isWord (text : Bytes) : Bool :=
  !text.isEmpty && text.all (!isDelimiter ·)

/-- The bytes that make an operator with an equals sign at their side. -/
def assigning : Bytes :=
  Bytes.ofChars ['<', '>', '=', '+', '-', '/', '*', '&', '|', '%', '^', '~', '!']

/-- The two-byte operators without an equals sign, comment brackets included. -/
def digraphs : List Bytes :=
  [['<', '<'], ['>', '>'], ['-', '>'], ['+', '+'], ['-', '-'], ['|', '|'], ['&', '&'],
    ['*', '/'], ['/', '*']].map Bytes.ofChars

/-- The spellings that make one token of two delimiters. -/
def operators : List Bytes :=
  assigning.map (fun byte => [byte] ++ Bytes.ofChars ['=']) ++ digraphs

/-- Two single bytes side by side make one token when they spell an operator, read in
either direction. -/
def fuses (left right : Bytes) : Bool :=
  match left, right with
  | [a], [b] => operators.contains [a, b] || operators.contains [b, a]
  | _, _ => false

/-- The basic token at the front of `rest`, blanks skipped, with the bytes behind it. The
bytes of `rest` begin at the offset `start`. -/
def basic? (start : Nat) (rest : Bytes) : Option (Token × Bytes) :=
  let first := start + (rest.takeWhile isBlank).length
  match rest.dropWhile isBlank with
  | [] => none
  | byte :: tail =>
    if isDelimiter byte then
      some (⟨first, first, [byte]⟩, tail)
    else
      let more := tail.takeWhile (!isDelimiter ·)
      some (⟨first, first + more.length, byte :: more⟩, tail.dropWhile (!isDelimiter ·))

/-- Two basic tokens with only `gap` between them make one token. -/
def joins (left : Token) (gap : Bytes) (right : Token) : Bool :=
  if left.text = [Byte.hash] then
    isWord right.text && !gap.contains Byte.newline
  else
    gap.isEmpty && fuses left.text right.text

/-- The token at the front of `rest`, blanks skipped, with the bytes behind it. -/
def next? (start : Nat) (rest : Bytes) : Option (Token × Bytes) :=
  match basic? start rest with
  | none => none
  | some (left, tail) =>
    match basic? (left.last + 1) tail with
    | none => some (left, tail)
    | some (right, after) =>
      if joins left (tail.takeWhile isBlank) right then
        some (⟨left.first, right.last, left.text ++ right.text⟩, after)
      else
        some (left, tail)

theorem length_lt_of_basic? {start : Nat} {rest : Bytes} {token : Token} {after : Bytes}
    (hbasic : basic? start rest = some (token, after)) : after.length < rest.length := by
  have hdrop : (rest.dropWhile isBlank).length ≤ rest.length :=
    (List.dropWhile_suffix _).length_le
  unfold basic? at hbasic
  split at hbasic
  next => simp at hbasic
  next byte tail heq =>
    have htail : (tail.dropWhile (!isDelimiter ·)).length ≤ tail.length :=
      (List.dropWhile_suffix _).length_le
    rw [heq, List.length_cons] at hdrop
    split at hbasic
    all_goals
      simp only [Option.some.injEq, Prod.mk.injEq] at hbasic
      obtain ⟨_, rfl⟩ := hbasic
      omega

theorem length_lt_of_next? {start : Nat} {rest : Bytes} {token : Token} {after : Bytes}
    (hnext : next? start rest = some (token, after)) : after.length < rest.length := by
  unfold next? at hnext
  split at hnext
  next => simp at hnext
  next left tail hleft =>
    have hltail := length_lt_of_basic? hleft
    split at hnext
    next =>
      simp only [Option.some.injEq, Prod.mk.injEq] at hnext
      obtain ⟨_, rfl⟩ := hnext
      exact hltail
    next right behind hright =>
      have hlbehind := length_lt_of_basic? hright
      split at hnext
      all_goals
        simp only [Option.some.injEq, Prod.mk.injEq] at hnext
        obtain ⟨_, rfl⟩ := hnext
        omega

/-- Every token of `rest`, whose bytes begin at the offset `start`. -/
def scan (start : Nat) (rest : Bytes) : List Token :=
  match hnext : next? start rest with
  | none => []
  | some (token, after) => token :: scan (token.last + 1) after
termination_by rest.length
decreasing_by exact length_lt_of_next? hnext

end Token

namespace Bytes

/-- Every token of the text. -/
def tokens (data : Bytes) : List Token :=
  Token.scan 0 data

/-- The tokens from `index` on; none when the index lies before the text. -/
def tokensFrom (data : Bytes) (index : Int) : List Token :=
  if index < 0 then [] else Token.scan index.toNat (data.drop index.toNat)

/-- The basic token at or after `index`; none when the index lies outside of the text. -/
def basicToken? (data : Bytes) (index : Int) : Option Token :=
  if index < 0 then none
  else (Token.basic? index.toNat (data.drop index.toNat)).map (·.1)

/-- The token at or after `index`; none when the index lies outside of the text. -/
def nextToken? (data : Bytes) (index : Int) : Option Token :=
  if index < 0 then none
  else (Token.next? index.toNat (data.drop index.toNat)).map (·.1)

/-- The first offset from `index` on that holds no blank. An index outside of the text
counts as the nearer of its ends. -/
def skipBlanks (data : Bytes) (index : Int) : Nat :=
  let start := min index.toNat data.length
  start + ((data.drop start).takeWhile Token.isBlank).length

end Bytes

end CDelta
