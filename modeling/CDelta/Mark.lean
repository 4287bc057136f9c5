import CDelta.Span

/-! # Marked spans

A mark says what a span of source text is: part of a directive, a literal, a comment or an
escape. Directives that shape conditionals are told apart from all others.
-/

namespace CDelta

/-- What a directive does to the conditionals around it. -/
inductive ControlKind where
  /-- Opens a conditional with its first branch. -/
  | opens
  /-- Ends one branch of a conditional and begins the next. -/
  | divides
  /-- Closes a conditional. -/
  | closes
deriving DecidableEq, Repr

/-- What a span of source text is. -/
inductive MarkKind where
  /-- A directive that shapes a conditional. -/
  | control (kind : ControlKind)
  /-- Any other directive. -/
  | directive
  /-- A string literal. -/
  | string
  /-- A character literal. -/
  | character
  /-- A comment. -/
  | comment
  /-- A backslash outside of literals, with the byte it takes along. -/
  | escape
  /-- Anything else. -/
  | plain
deriving DecidableEq, Repr

namespace MarkKind

/-- The name of a kind in messages. -/
def name : MarkKind → String
  | control .opens => "directive-if"
  | control .divides => "directive-else"
  | control .closes => "directive-endif"
  | directive => "directive-other"
  | string => "string-literal"
  | character => "char-literal"
  | comment => "comment"
  | escape => "escape-sequence"
  | plain => "plain"

/-- Every kind, once. -/
def all : List MarkKind :=
  [control .opens, control .divides, control .closes, directive, string, character, comment,
    escape, plain]

/-- The kind with a name. -/
def ofName? (name : String) : Option MarkKind :=
  all.find? (·.name = name)

/-- A string or a character literal. -/
def isLiteral : MarkKind → Bool
  | string | character => true
  | _ => false

/-- A directive that opens, divides or closes a conditional. -/
def isControl : MarkKind → Bool
  | control _ => true
  | _ => false

theorem mem_all (kind : MarkKind) : kind ∈ all := by
  cases kind with
  | control kind => cases kind <;> simp [all]
  | _ => simp [all]

end MarkKind

/-- A span with what it is. -/
structure Mark extends Span where
  kind : MarkKind
deriving DecidableEq, Repr

namespace Bytes

/-- The text with the span of every mark overwritten by spaces. -/
def blankMarks (marks : List Mark) (data : Bytes) : Bytes :=
  data.blank (marks.map (·.toSpan))

end Bytes

end CDelta
