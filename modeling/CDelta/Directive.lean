import CDelta.Mark
import CDelta.Token

/-! # Directive lines

A line is a directive when its first token starts with a hash. A directive takes along the
lines that a backslash joins to it; other lines stand for themselves. Lines are those of a
working copy in which comments and literals are blanked, so that a hash inside of them is
none, while the joining backslash is looked up in the text itself.
-/

namespace CDelta

namespace Bytes

/-- The lines of a text, each with the newline that ends it. -/
def lines : Bytes → List Bytes
  | [] => []
  | byte :: rest =>
    if byte = Byte.newline then [byte] :: lines rest
    else
      match lines rest with
      | [] => [[byte]]
      | line :: more => (byte :: line) :: more

/-- The line that ends right before the offset `stop` is joined to the next: in front of
its newline, and of a carriage return there, stands a backslash. -/
def joinsNext (source : Bytes) (stop : Nat) : Bool :=
  let count := min 3 stop
  match ((source.drop (stop - count)).take count).reverse with
  | [] => false
  | last :: before =>
    let before := if before.head? = some Byte.carriageReturn then before.tail else before
    last = Byte.newline && before.head? = some Byte.backslash

theorem flatten_lines (data : Bytes) : data.lines.flatten = data := by
  induction data with
  | nil => rfl
  | cons byte rest ih =>
      unfold lines
      split
      next => simp [ih]
      next =>
        split
        next heq =>
          rw [heq] at ih
          simp_all
        next line more heq =>
          rw [heq] at ih
          simp_all

end Bytes

namespace Directive

/-- The words that shape conditionals. -/
def controlWords : List (Bytes × ControlKind) :=
  [(['#', 'i', 'f'], .opens), (['#', 'i', 'f', 'd', 'e', 'f'], .opens),
    (['#', 'i', 'f', 'n', 'd', 'e', 'f'], .opens), (['#', 'e', 'l', 's', 'e'], .divides),
    (['#', 'e', 'l', 'i', 'f'], .divides), (['#', 'e', 'n', 'd', 'i', 'f'], .closes)].map
    fun (chars, kind) => (Bytes.ofChars chars, kind)

/-- The kind of directive that a line's first token makes it; none for other lines. -/
def kind? (word : Bytes) : Option MarkKind :=
  match controlWords.lookup word with
  | some kind => some (.control kind)
  | none => if word.head? = some Byte.hash then some .directive else none

/-- The kind of directive that a line is. -/
def lineKind? (line : Bytes) : Option MarkKind :=
  (Token.next? 0 line).bind fun (token, _) => kind? token.text

/-- How many of the lines behind the offset `stop` are joined to the line that ends there. -/
def joined (source : Bytes) (stop : Nat) : List Bytes → Nat
  | [] => 0
  | line :: rest =>
    if source.joinsNext stop then 1 + joined source (stop + line.length) rest else 0

/-- The directives among lines that begin at the offset `start`. -/
def scan (source : Bytes) (start : Nat) : List Bytes → List Mark
  | [] => []
  | line :: rest =>
    let stop := start + line.length
    match lineKind? line with
    | none => scan source stop rest
    | some kind =>
      let count := joined source stop rest
      let behind := stop + (rest.take count).flatten.length
      ⟨⟨start, behind - 1⟩, kind⟩ :: scan source behind (rest.drop count)
termination_by lines => lines.length
decreasing_by all_goals simp only [List.length_cons, List.length_drop]; omega

end Directive

namespace Bytes

/-- The directives of a text, found in the lines of its working copy. -/
def directives (source working : Bytes) : List Mark :=
  Directive.scan source 0 working.lines

end Bytes

end CDelta
