import CDelta.Environment.Reference

/-! # Files of assignments

A file of assignments sets variables, one on a line: a name, an equals sign and a value. The
word `export` may stand in front. A value between quotes keeps its blanks and may hold
escapes; one without ends at a comment, which is a `#` behind a blank. Blank lines and
comments set nothing, and what is no assignment is passed over up to the end of its line. A
value may refer to variables that exist or are set further up.
-/

namespace CDelta

namespace Assignments

/-- The text with every end of a line, however it is written, as a single newline. -/
def newlines : List Char → List Char
  | [] => []
  | '\r' :: '\n' :: rest => '\n' :: newlines rest
  | '\r' :: rest => '\n' :: newlines rest
  | char :: rest => char :: newlines rest

/-- The characters from the end of the line on. -/
def lineEnd (chars : List Char) : List Char :=
  chars.dropWhile (· ≠ '\n')

/-- The character is a blank inside of a line. -/
def isGap (char : Char) : Bool :=
  Text.isBlank char && char ≠ '\n'

/-- The character an escape stands for, inside of the quotes that `quote` makes. -/
def escape? (quote char : Char) : Option Char :=
  if char = '\\' || char = '\x27' then some char
  else if quote = '\x27' then none
  else [('\x22', '\x22'), ('a', '\x07'), ('b', '\x08'), ('f', '\x0c'), ('n', '\n'), ('r', '\r'),
    ('t', '\t'), ('v', '\x0b')].lookup char

/-- The text between quotes with its escapes resolved. -/
def unescape (quote : Char) : List Char → List Char
  | [] => []
  | [char] => [char]
  | first :: second :: rest =>
    if first = '\\' then
      match escape? quote second with
      | some char => char :: unescape quote rest
      | none => first :: unescape quote (second :: rest)
    else
      first :: unescape quote (second :: rest)

/-- Splits behind the quote that closes a value. A quote behind a backslash closes it only
when no other quote does. -/
def splitQuoted (quote : Char) : List Char → Option (List Char × List Char)
  | [] => none
  | [char] => if char = quote then some ([], []) else none
  | first :: second :: rest =>
    if first = quote then some ([], second :: rest)
    else if first = '\\' && second = quote then
      match splitQuoted quote rest with
      | some (value, rest) => some (first :: second :: value, rest)
      | none => some ([first], rest)
    else
      (splitQuoted quote (second :: rest)).map fun (value, rest) => (first :: value, rest)

/-- A value without quotes: the line up to a comment. -/
def plainValue : List Char → List Char
  | [] => []
  | char :: rest =>
    if Text.isBlank char && ((char :: rest).dropWhile Text.isBlank).head? = some '#' then []
    else char :: plainValue rest

/-- The text without blanks at its end. -/
def stripEnd (chars : List Char) : List Char :=
  (chars.reverse.dropWhile Text.isBlank).reverse

/-- What is read from the front of a text, with the characters behind it. Where nothing can be
read, the characters from there on. -/
abbrev Reading (α : Type) := Except (List Char) (α × List Char)

/-- Reads a value between quotes, the first of which stands in front of the text. -/
def quotedValue (quote : Char) (chars : List Char) : Reading String :=
  match splitQuoted quote chars with
  | some (value, rest) => .ok (String.ofList (unescape quote value), rest)
  | none => .error chars

/-- Reads a value. -/
def value (chars : List Char) : Reading String :=
  match chars with
  | '\x27' :: rest => quotedValue '\x27' rest
  | '\x22' :: rest => quotedValue '\x22' rest
  | chars =>
    .ok (String.ofList (stripEnd (plainValue (chars.takeWhile (· ≠ '\n')))), lineEnd chars)

/-- Reads the rest of a line, which holds nothing but a comment. -/
def restOfLine (chars : List Char) : Reading Unit :=
  match chars.dropWhile isGap with
  | '#' :: rest => .ok ((), lineEnd rest)
  | [] => .ok ((), [])
  | '\n' :: rest => .ok ((), rest)
  | _ => .error chars

/-- The characters behind the word `export`, if it stands in front. -/
def behindExport (chars : List Char) : List Char :=
  if "export".toList.isPrefixOf chars && ((chars.drop 6).head?.map isGap).getD false then
    (chars.drop 6).dropWhile isGap
  else
    chars

/-- Reads the name of a variable. A comment has none. -/
def name (chars : List Char) : Reading (Option String) :=
  match chars with
  | '#' :: _ => .ok (none, chars)
  | '\x27' :: rest =>
    let name := rest.takeWhile (· ≠ '\x27')
    match name, rest.dropWhile (· ≠ '\x27') with
    | _ :: _, _ :: rest => .ok (some (String.ofList name), rest)
    | _, _ => .error chars
  | _ =>
    let inName (char : Char) : Bool := char ≠ '=' && char ≠ '#' && !Text.isBlank char
    match chars.takeWhile inName with
    | [] => .error chars
    | name => .ok (some (String.ofList name), chars.dropWhile inName)

/-- Reads the value of a variable, if an equals sign announces one. -/
def assigned (chars : List Char) : Reading (Option String) :=
  match chars.dropWhile isGap with
  | '=' :: rest => (value (rest.dropWhile isGap)).map fun (value, rest) => (some value, rest)
  | chars => .ok (none, chars)

/-- Reads one line of assignments: a name and its value, or nothing but a comment. -/
def line (chars : List Char) :
    Except (List Char) (Option (String × Option String) × List Char) := do
  let (name, chars) ← name (behindExport chars)
  let (value, chars) ← assigned chars
  let ((), chars) ← restOfLine chars
  return (name.map fun name => (name, value), chars)

/-- The assignments of some lines, at most `fuel` of them. -/
def readLines : Nat → List Char → List (String × Option String)
  | 0, _ => []
  | fuel + 1, chars =>
    match chars.dropWhile Text.isBlank with
    | [] => []
    | chars =>
      match line chars with
      | .ok (assignment, rest) => assignment.toList ++ readLines fuel rest
      | .error rest => readLines fuel (lineEnd rest)

/-- What a reference stands for. A variable that exists goes before one of the same name that
has been set, and one that has been set without a value stands for nothing. -/
def resolve (existing : Environment) (set : List (String × Option String))
    (reference : Reference) : String :=
  match existing.lookup reference.name, set.lookup reference.name with
  | some value, _ => value
  | none, some value => value.getD ""
  | none, none => reference.substitute

/-- Adds an assignment in front of those already made, with its references resolved. -/
def assign (existing : Environment) (set : List (String × Option String))
    (assignment : String × Option String) : List (String × Option String) :=
  let value := assignment.2.map fun value =>
    String.ofList (Reference.resolveAll (resolve existing set) value.toList)
  (assignment.1, value) :: set

/-- The variables that a text sets beside the existing ones. The last assignment to a name
counts, and one without a value unsets it. -/
def read (existing : Environment) (text : String) : Environment :=
  let chars := newlines text.toList
  let set := (readLines (chars.length + 1) chars).foldl (assign existing) []
  set.filterMap fun (name, _) => (set.lookup name).join.map fun value => (name, value)

end Assignments

end CDelta
