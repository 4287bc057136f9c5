import CDelta.Bracket
import CDelta.Literal
import CDelta.Mark

/-! # Comments, literals and escapes

One pass from left to right marks every literal, comment and escape of a text. What has
been marked is passed over as a whole, so a quote inside of a comment opens no literal.
Which marks a caller records never changes where the pass goes: the caller filters.
-/

namespace CDelta

/-- How a comment ends. -/
inductive CommentRule where
  /-- When every comment opened inside of it has ended. -/
  | nested
  /-- At the first closing bracket. -/
  | flat
deriving DecidableEq, Repr

namespace CommentRule

/-- The number of bytes up to the first closing comment bracket, which is included. -/
def flatRest : Bytes → Option Nat
  | [] => none
  | [_] => none
  | a :: b :: rest =>
    if a = Byte.star && b = Byte.slash then some 2 else (flatRest (b :: rest)).map (· + 1)

/-- The length of the comment at the front of `rest`, which begins with an opening comment
bracket at the offset `start`; none when it never ends. -/
def length? (rule : CommentRule) (start : Nat) (rest : Bytes) : Option Nat :=
  match rule with
  | flat => (flatRest (rest.drop 2)).map (· + 2)
  | nested =>
    (Bracket.comment.closerIn? 0 start rest).map (·.last + 1 - start)

end CommentRule

/-- The marks a pass has made, and the offset of the comment that stopped it, if one never
ends. -/
structure Marking where
  marks : List Mark
  openComment : Option Nat
deriving DecidableEq, Repr

namespace Marking

/-- A pass that has come to the end of the text. -/
def done : Marking := ⟨[], none⟩

/-- A pass stopped by a comment that never ends. -/
def stopped (offset : Nat) : Marking := ⟨[], some offset⟩

/-- A mark in front of what the rest of the pass made. -/
def cons (mark : Mark) (rest : Marking) : Marking :=
  { rest with marks := mark :: rest.marks }

/-- The kind of literal that a quote opens. -/
def literalKind? (byte : UInt8) : Option MarkKind :=
  if byte = Byte.doubleQuote then some .string
  else if byte = Byte.singleQuote then some .character
  else none

/-- The marks of `rest`, whose bytes begin at the offset `start`. -/
def scan (rule : CommentRule) (start : Nat) : Bytes → Marking
  | [] => done
  | byte :: tail =>
    match literalKind? byte with
    | some kind =>
      let more := Bytes.literalRest byte false tail
      cons ⟨⟨start, start + more⟩, kind⟩ (scan rule (start + 1 + more) (tail.drop more))
    | none =>
      if byte = Byte.slash then
        if tail.head? = some Byte.star then
          match rule.length? start (byte :: tail) with
          | none => stopped start
          | some size =>
            cons ⟨⟨start, start + size - 1⟩, .comment⟩
              (scan rule (start + size) (tail.drop (size - 1)))
        else
          scan rule (start + 1) tail
      else if byte = Byte.backslash then
        let more := min 1 tail.length
        cons ⟨⟨start, start + more⟩, .escape⟩ (scan rule (start + 2) (tail.drop 1))
      else
        scan rule (start + 1) tail
termination_by rest => rest.length
decreasing_by all_goals simp only [List.length_cons, List.length_drop]; omega

end Marking

/-- Which marks a caller wants. -/
structure Recorded where
  literals : Bool
  comments : Bool
  escapes : Bool
deriving DecidableEq, Repr

namespace Recorded

/-- Literals, comments and escapes. -/
def everything : Recorded := ⟨true, true, true⟩

/-- Literals and comments. -/
def visible : Recorded := ⟨true, true, false⟩

/-- A mark of the kind is wanted. -/
def wants (recorded : Recorded) : MarkKind → Bool
  | .string | .character => recorded.literals
  | .comment => recorded.comments
  | .escape => recorded.escapes
  | _ => false

end Recorded

namespace Bytes

/-- The pass over a whole text. -/
def marking (data : Bytes) (rule : CommentRule) : Marking :=
  Marking.scan rule 0 data

/-- The wanted marks of a text, in ascending order. A comment that never ends is a fault
that names the line it opens on. -/
def marks (data : Bytes) (rule : CommentRule) (recorded : Recorded) :
    Except Fault (List Mark) :=
  let marking := data.marking rule
  match marking.openComment with
  | some offset => .error (.openComment (data.lineAt offset))
  | none => .ok (marking.marks.filter (recorded.wants ·.kind))

end Bytes

end CDelta
