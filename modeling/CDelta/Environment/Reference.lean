import CDelta.Environment

/-! # References to variables

A value may refer to variables: `$` and a name in braces stand for the value of the variable
with that name. The name may be followed by `:-` and a text, which stands in for a variable
that does not exist. A dollar sign that starts no reference is an ordinary character.
-/

namespace CDelta

/-- A reference to a variable. -/
structure Reference where
  name : String
  /-- What stands in for a variable that does not exist. -/
  substitute : String
deriving DecidableEq, Repr

namespace Reference

/-- The character belongs to the name in a reference. -/
def inName (char : Char) : Bool :=
  char ≠ '\x7d' && char ≠ ':'

/-- Reads the reference at the front of a text, with the characters behind it. -/
def read? : List Char → Option (Reference × List Char)
  | '$' :: '\x7b' :: rest =>
    let name := String.ofList (rest.takeWhile inName)
    match rest.dropWhile inName with
    | '\x7d' :: behind => some (⟨name, ""⟩, behind)
    | ':' :: '-' :: rest =>
      match rest.dropWhile (· ≠ '\x7d') with
      | _ :: behind => some (⟨name, String.ofList (rest.takeWhile (· ≠ '\x7d'))⟩, behind)
      | [] => none
    | _ => none
  | _ => none

theorem length_dropWhile_le (keep : Char → Bool) (chars : List Char) :
    (chars.dropWhile keep).length ≤ chars.length :=
  (List.dropWhile_suffix keep).length_le

theorem length_lt_of_read? {chars behind : List Char} {reference : Reference}
    (hread : read? chars = some (reference, behind)) : behind.length < chars.length := by
  unfold read? at hread
  split at hread
  next rest =>
    have hname := length_dropWhile_le inName rest
    simp only at hread
    split at hread
    next inner hinner =>
      simp only [Option.some.injEq, Prod.mk.injEq] at hread
      rw [hinner, List.length_cons, hread.2] at hname
      simp only [List.length_cons]
      omega
    next inner hinner =>
      split at hread
      next last inner' hinner' =>
        have hrest := length_dropWhile_le (· ≠ '\x7d') inner
        simp only [Option.some.injEq, Prod.mk.injEq] at hread
        rw [hinner', List.length_cons, hread.2] at hrest
        simp only [hinner, List.length_cons] at hname ⊢
        omega
      next => cases hread
    next => cases hread
  next => cases hread

/-- The text with every reference replaced by what it stands for. -/
def resolveAll (resolve : Reference → String) (chars : List Char) : List Char :=
  match _hread : read? chars with
  | some (reference, behind) => (resolve reference).toList ++ resolveAll resolve behind
  | none =>
    match chars with
    | [] => []
    | char :: rest => char :: resolveAll resolve rest
termination_by chars.length
decreasing_by
  · exact length_lt_of_read? _hread
  · simp

end Reference

end CDelta
