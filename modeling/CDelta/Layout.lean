import CDelta.Conditional.Choice
import CDelta.Directive

/-! # The layout of a file

The directives of a file and the conditionals that some of them form. The layout gives the
space of branch choices.
-/

namespace CDelta

/-- The directives of a file and its conditionals. -/
structure Layout where
  directives : List Mark
  tree : Sequence

namespace Layout

/-- The directives that shape conditionals. -/
def controls (layout : Layout) : List Mark :=
  layout.directives.filter (·.kind.isControl)

/-- Some directive shapes a conditional. -/
def isBranching (layout : Layout) : Bool :=
  !layout.controls.isEmpty

/-- The number of branch choices. -/
def choices (layout : Layout) : Nat :=
  layout.tree.shape.choices

/-- The spans that a choice leaves out. -/
def unselected (layout : Layout) (choice : Int) : List Span :=
  layout.tree.unselected choice

end Layout

namespace Bytes

/-- The layout of a text, given its working copy. -/
def layout (source working : Bytes) : Except Fault Layout :=
  let directives := source.directives working
  match Sequence.ofControls (Control.ofMarks directives) with
  | .ok tree => .ok ⟨directives, tree⟩
  | .error nesting => .error (nesting.toFault fun offset => source.lineOf offset)

end Bytes

end CDelta
