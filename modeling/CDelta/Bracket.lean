import CDelta.Fault
import CDelta.Token

/-! # Bracket groups

A bracket is a pair of token texts. A group runs from an opening token to the token that
closes it, with the groups inside counted. Only whole tokens count, so a comment bracket
that the tokens spell differently is not seen.
-/

namespace CDelta

/-- The texts of the tokens that open and close a group. -/
structure Bracket where
  opening : Bytes
  closing : Bytes
deriving DecidableEq, Repr

namespace Bracket

/-- Parentheses. -/
def round : Bracket := ⟨Bytes.ofChars ['('], Bytes.ofChars [')']⟩

/-- Square brackets. -/
def square : Bracket := ⟨Bytes.ofChars ['['], Bytes.ofChars [']']⟩

/-- Braces. -/
def curly : Bracket := ⟨Bytes.ofChars ['{'], Bytes.ofChars ['}']⟩

/-- Comment brackets. -/
def comment : Bracket := ⟨[Byte.slash, Byte.star], [Byte.star, Byte.slash]⟩

/-- The number of open groups behind a token, given the number before it. A text that
both opens and closes counts as opening. -/
def depthAfter (bracket : Bracket) (depth : Nat) (text : Bytes) : Nat :=
  if text = bracket.opening then depth + 1
  else if text = bracket.closing then depth - 1
  else depth

/-- A token that brings the number of open groups down to zero closes one. -/
theorem text_of_depthAfter_eq_zero {bracket : Bracket} {depth : Nat} {text : Bytes}
    (hdepth : bracket.depthAfter (depth + 1) text = 0) : text = bracket.closing := by
  unfold depthAfter at hdepth
  split at hdepth
  next => omega
  next =>
    split at hdepth
    next hclosing => exact hclosing
    next => omega

/-- The token that brings the number of open groups from `depth` to zero. -/
def closer? (bracket : Bracket) : Nat → List Token → Option Token
  | _, [] => none
  | depth, token :: rest =>
    match bracket.depthAfter depth token.text with
    | 0 => some token
    | open_ + 1 => bracket.closer? (open_ + 1) rest

/-- The token that brings the number of open groups from `depth` to zero, read off the bytes
of `rest` no further than needed. The bytes begin at the offset `start`. -/
def closerIn? (bracket : Bracket) (depth start : Nat) (rest : Bytes) : Option Token :=
  match _hnext : Token.next? start rest with
  | none => none
  | some (token, after) =>
    match bracket.depthAfter depth token.text with
    | 0 => some token
    | open_ + 1 => bracket.closerIn? (open_ + 1) (token.last + 1) after
termination_by rest.length
decreasing_by exact Token.length_lt_of_next? _hnext

theorem closerIn?_eq_closer? (bracket : Bracket) (depth start : Nat) (rest : Bytes) :
    bracket.closerIn? depth start rest = bracket.closer? depth (Token.scan start rest) := by
  fun_induction closerIn? bracket depth start rest with
  | case1 depth start rest hnext =>
    unfold Token.scan
    split
    next => rfl
    next heq => simp [hnext] at heq
  | case2 depth start rest token after hnext hdepth =>
    unfold Token.scan
    split
    next heq => simp [hnext] at heq
    next heq =>
      rw [hnext] at heq
      obtain ⟨rfl, rfl⟩ := Prod.mk.inj (Option.some.inj heq)
      simp [closer?, hdepth]
  | case3 depth start rest token after hnext inner hdepth ih =>
    unfold Token.scan
    split
    next heq => simp [hnext] at heq
    next heq =>
      rw [hnext] at heq
      obtain ⟨rfl, rfl⟩ := Prod.mk.inj (Option.some.inj heq)
      simp [closer?, hdepth, ih]

/-- The offset of the token that closes the group opened by the first token from `index`
on. A fault names the line of the index, or of the token found in place of the bracket. -/
def closingOffset (bracket : Bracket) (data : Bytes) (index : Int) : Except Fault Nat :=
  match data.tokensFrom index with
  | [] => .error (.unmatched bracket.opening (data.lineOf index) none)
  | token :: rest =>
    if token.text = bracket.opening then
      match bracket.closer? 1 rest with
      | some closer => .ok closer.first
      | none => .error (.unmatched bracket.opening (data.lineOf index) none)
    else
      .error (.unmatched bracket.opening (data.lineAt token.first) (some token.text))

end Bracket

namespace Bytes

/-- The offset of the first token from `index` on with the given text. -/
def findToken? (data : Bytes) (index : Int) (text : Bytes) : Option Nat :=
  ((data.tokensFrom index).find? (·.text = text)).map (·.first)

end Bytes

end CDelta
