import CDelta.Footprint
import CDelta.Mark.Lexical

/-! # Settings

What a comparison can be told. The number of branch choices to try is positive, so that a
file without conditionals is always read.
-/

namespace CDelta

/-- How files are read and compared. -/
structure Settings where
  /-- Also show what did not change. -/
  showAll : Bool
  /-- Where functions begin. -/
  start : Start
  /-- How comments end. -/
  comments : CommentRule
  /-- The most branch choices tried for a file. -/
  choiceLimit : Nat
  choiceLimit_pos : 0 < choiceLimit

namespace Settings

/-- The number of choices tried unless told otherwise. -/
def defaultLimit : Nat := 500

/-- Settings with a limit that may be refused. -/
def withLimit? (showAll : Bool) (start : Start) (comments : CommentRule) (limit : Int) :
    Option Settings :=
  if positive : 0 < limit.toNat then some ⟨showAll, start, comments, limit.toNat, positive⟩
  else none

/-- The wording for a limit that is not positive. -/
def limitRefusal (limit : Int) : String :=
  s!"choice_limit must be positive, got {limit}"

/-- Nothing but changes is shown, functions begin with their declarations and comments
nest. -/
def default : Settings := ⟨false, .declaration, .nested, defaultLimit, by decide⟩

end Settings

end CDelta
