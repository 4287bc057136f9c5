import CDelta.Fault
import CDelta.Mark

/-! # Conditionals

The directives that open, divide and close conditionals form sequences of conditionals, a
conditional being a chain of branches and each branch holding a sequence of its own. Reading
goes from left to right with the conditionals that are still open on a stack. It fails on
the first directive that stands outside of all conditionals, or else on the outermost
conditional left open.
-/

namespace CDelta

/-- A directive that shapes conditionals, with its position among its like. -/
structure Control where
  index : Nat
  kind : ControlKind
  span : Span
deriving DecidableEq, Repr

mutual

/-- Conditionals one after another. -/
inductive Sequence where
  | nil
  | cons (first : Conditional) (rest : Sequence)

/-- The branches of one conditional, at least one. A branch runs from the directive that
opens it to the one that ends it, which opens the next branch or closes the conditional. -/
inductive Conditional where
  | last (opener closer : Control) (body : Sequence)
  | more (opener closer : Control) (body : Sequence) (rest : Conditional)

end

/-- One branch of a conditional. -/
structure Branch where
  opener : Control
  closer : Control
  body : Sequence

namespace Branch

/-- The span of a branch: from its own directive up to the next at its level. -/
def text (branch : Branch) : Span :=
  ⟨branch.opener.span.first, branch.closer.span.first - 1⟩

end Branch

namespace Conditional

/-- The branches in order. -/
def branches : Conditional → List Branch
  | last opener closer body => [⟨opener, closer, body⟩]
  | more opener closer body rest => ⟨opener, closer, body⟩ :: rest.branches

/-- The directive that opens the conditional. -/
def opener : Conditional → Control
  | last opener _ _ => opener
  | more opener _ _ _ => opener

/-- The directive that closes the conditional. -/
def closer : Conditional → Control
  | last _ closer _ => closer
  | more _ _ _ rest => rest.closer

/-- The span of all branches together. The closing directive is not part of it. -/
def text (conditional : Conditional) : Span :=
  ⟨conditional.opener.span.first, conditional.closer.span.first - 1⟩

/-- The conditional with further branches in front, the latest of them first. -/
def prepend (conditional : Conditional) (earlier : List Branch) : Conditional :=
  earlier.foldl (fun chain branch => more branch.opener branch.closer branch.body chain)
    conditional

end Conditional

namespace Sequence

/-- The conditionals in order. -/
def conditionals : Sequence → List Conditional
  | nil => []
  | cons first rest => first :: rest.conditionals

/-- The sequence of conditionals given the latest first. -/
def ofReversed (conditionals : List Conditional) : Sequence :=
  conditionals.foldl (fun rest conditional => cons conditional rest) nil

/-- The span from the first conditional to the last, or the offset before the text when
there is none. -/
def text (sequence : Sequence) : Span :=
  match sequence.conditionals with
  | [] => ⟨-1, -1⟩
  | first :: rest => ⟨first.text.first, ((first :: rest).getLast (by simp)).text.last⟩

end Sequence

/-- Why directives do not form conditionals. -/
inductive Nesting where
  /-- The directive divides or closes a conditional where none is open. -/
  | stray (control : Control)
  /-- The directive opens a conditional that never closes. -/
  | unclosed (control : Control)
deriving DecidableEq, Repr

namespace Nesting

/-- The fault of a text whose directives do not form conditionals. -/
def toFault (lineOf : Int → Int) : Nesting → Fault
  | stray control => .strayControl (lineOf control.span.first)
  | unclosed control => .openConditional (lineOf control.span.first)

end Nesting

/-- A conditional that is still open. -/
structure Frame where
  /-- The conditionals in front of it in its own sequence, the latest first. -/
  before : List Conditional
  /-- Its branches that have ended, the latest first. -/
  ended : List Branch
  /-- The directive that opens it. -/
  opening : Control
  /-- The directive that opens its current branch. -/
  current : Control

namespace Frame

/-- The current branch, ended by a directive. -/
def branch (frame : Frame) (closer : Control) (body : List Conditional) : Branch :=
  ⟨frame.current, closer, Sequence.ofReversed body⟩

/-- The frame when a directive has divided the conditional. -/
def divide (frame : Frame) (control : Control) (body : List Conditional) : Frame :=
  { frame with ended := frame.branch control body :: frame.ended, current := control }

/-- The conditional when a directive has closed it. -/
def close (frame : Frame) (control : Control) (body : List Conditional) : Conditional :=
  let branch := frame.branch control body
  (Conditional.last branch.opener branch.closer branch.body).prepend frame.ended

end Frame

namespace Sequence

/-- Reads the rest of the directives. `body` holds the conditionals read so far in the
innermost sequence, the latest first, and `frames` the open conditionals, the innermost
first. -/
def read (body : List Conditional) (frames : List Frame) :
    List Control → Except Nesting Sequence
  | [] =>
    match frames.getLast? with
    | none => .ok (ofReversed body)
    | some outermost => .error (.unclosed outermost.opening)
  | control :: rest =>
    match control.kind, frames with
    | .opens, frames => read [] (⟨body, [], control, control⟩ :: frames) rest
    | .divides, frame :: outer => read [] (frame.divide control body :: outer) rest
    | .closes, frame :: outer => read (frame.close control body :: frame.before) outer rest
    | _, [] => .error (.stray control)

/-- The sequence of conditionals that directives form. -/
def ofControls (controls : List Control) : Except Nesting Sequence :=
  read [] [] controls

end Sequence

namespace Control

/-- The directives among marks that shape conditionals, numbered in order. -/
def ofMarks (marks : List Mark) : List Control :=
  (marks.filterMap fun mark =>
    match mark.kind with
    | .control kind => some (kind, mark.toSpan)
    | _ => none).zipIdx.map fun ((kind, span), index) => ⟨index, kind, span⟩

/-- The first mark that shapes no conditional. -/
def notControl? (marks : List Mark) : Option Mark :=
  marks.find? (!·.kind.isControl)

/-- The wording for a mark that shapes no conditional. -/
def notControlMessage (kind : MarkKind) : String :=
  let name := kind.name
  s!"not a branching directive: {name}"

end Control

end CDelta
