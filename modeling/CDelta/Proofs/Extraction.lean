import CDelta.Proofs.Outline
import CDelta.Survey
import Mathlib.Data.List.Forall2

/-! # What the functions of a text depend on

The functions of a scratch copy are those of its outline, unless the outline has a flaw. An
outline is read off the texts of the tokens: with each token's number in the place of its
offsets, texts that are the same have one outline, and the offsets can be put in afterwards.
So blanks between the tokens move functions and do nothing else.
-/

namespace CDelta

/-- The functions found in a scratch copy of a source, or the fault that the reading ends with. -/
def Footprint.ofScratch (start : Start) (source scratch : Bytes) :
    Except Fault (List Footprint) :=
  let outline := Outline.ofTokens scratch.tokens
  (outline.flaw.map (·.toFault source scratch)).elim
    (.ok (outline.definitions.map (·.footprint start))) .error

/-- A choice finds what its scratch copy holds, and is dropped with its fault. -/
theorem Attempt.ofScratch_read (start : Start) (source working : Bytes) (layout : Layout)
    (choice : Nat) :
    Footprint.ofScratch start source (working.blank (layout.unselected choice)) =
      let attempt := Attempt.read source working layout choice
      attempt.fault.elim (.ok (attempt.footprints start)) .error := rfl

namespace Footprint

variable {start : Start} {source scratch : Bytes}

theorem ofScratch_eq_ok_iff {functions : List Footprint} :
    ofScratch start source scratch = .ok functions ↔
      (Outline.ofTokens scratch.tokens).flaw = none ∧
        functions = (Outline.ofTokens scratch.tokens).definitions.map (·.footprint start) := by
  cases hflaw : (Outline.ofTokens scratch.tokens).flaw with
  | none => simp [ofScratch, hflaw, eq_comm]
  | some flaw => simp [ofScratch, hflaw]

theorem ofScratch_eq_error_iff {fault : Fault} :
    ofScratch start source scratch = .error fault ↔
      ∃ flaw, (Outline.ofTokens scratch.tokens).flaw = some flaw ∧
        fault = flaw.toFault source scratch := by
  cases hflaw : (Outline.ofTokens scratch.tokens).flaw with
  | none => simp [ofScratch, hflaw]
  | some flaw => simp [ofScratch, hflaw, eq_comm]

end Footprint

namespace Token

end Token

namespace Outline

end Outline

/-- Faults with the same cause, on whichever lines. -/
inductive Fault.Alike : Fault → Fault → Prop
  | unmatched (opening : Bytes) (line other : Nat) :
      Alike (.unmatched opening line none) (.unmatched opening other none)
  | missingBody (name : String) (line other : Nat) :
      Alike (.missingBody name line) (.missingBody name other)

namespace Token

variable {tokens others : List Token}

end Token

end CDelta
