import CDelta.Bytes

/-! # Faults of source text

What can be wrong with a text that has no defined structure. Each cause has one wording.
-/

namespace CDelta

/-- Why a text has no defined structure. Lines count from one; a conditional read apart
from any text has no lines, and its faults carry a line below one. -/
inductive Fault where
  /-- A comment never closes. -/
  | openComment (line : Nat)
  /-- A bracket never closes, or another token stands in its place. -/
  | unmatched (opening : Bytes) (line : Nat) (found : Option Bytes)
  /-- A directive that divides or closes a conditional stands outside of all. -/
  | strayControl (line : Int)
  /-- A conditional never closes. -/
  | openConditional (line : Int)
  /-- A name with parameters is followed by no body. -/
  | missingBody (name : String) (line : Nat)
deriving DecidableEq, Repr

namespace Fault

/-- The line a fault names. -/
def line : Fault → Int
  | openComment line => line
  | unmatched _ line _ => line
  | strayControl line => line
  | openConditional line => line
  | missingBody _ line => line

/-- The wording of a fault. -/
def message : Fault → String
  | openComment line =>
    s!"No matching closing comment for comment opened at line {line}"
  | unmatched opening line found =>
    let bracket := opening.latin
    let text := s!"Cannot find token matching '{bracket}' opened at line {line}"
    match found with
    | none => text
    | some token =>
      let shown := token.latin
      s!"{text} (found '{shown}' instead)"
  | strayControl line =>
    s!"#else or #endif appears without #if at line {line}"
  | openConditional line =>
    s!"Cannot find matching #else or #endif for #if at line {line}"
  | missingBody name line =>
    s!"Cannot find function body for '{name}' at line {line}"

end Fault

end CDelta
