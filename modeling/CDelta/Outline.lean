import CDelta.Bracket
import CDelta.Text.Utf8

/-! # Outlines of function definitions

An outline is read off a text's tokens, one at a time. A definition is a word, a group in
parentheses that is followed by neither a semicolon nor a comma, and the next group in
braces. All other groups are passed over as a whole. The declaration of a function starts
at the first token behind the last semicolon, or behind the previous definition.

The reading depends on the texts of the tokens alone; their offsets are only carried along.
-/

namespace CDelta

/-- A function definition: its name, the first offset of its declaration, and the offsets
of the braces around its body. -/
structure Definition where
  name : Token
  start : Nat
  brace : Nat
  last : Nat
deriving DecidableEq, Repr

/-- A word in front of parentheses, with the first offset of its declaration. -/
structure Heading where
  name : Token
  start : Nat
deriving DecidableEq, Repr

/-- What reading an outline comes upon. -/
inductive OutlineEvent where
  /-- A group has closed. -/
  | group (bracket : Bracket) (first last : Nat)
  /-- A definition is complete. -/
  | definition (definition : Definition)
deriving DecidableEq, Repr

/-- Why an outline cannot be read to its end. -/
inductive Flaw where
  /-- A group opened at an offset never closes. -/
  | unmatched (bracket : Bracket) (offset : Nat)
  /-- No body follows the parameters of a name. -/
  | missingBody (name : Token)
deriving DecidableEq, Repr

/-- What has been come upon, in order, and what the reading failed on. -/
structure Outline where
  events : List OutlineEvent
  flaw : Option Flaw
deriving DecidableEq, Repr

/-- Where the reading stands. -/
inductive OutlineStage where
  /-- Outside of all groups. -/
  | between
  /-- Inside of a group, `depth` groups deep; a heading makes its end the end of
  parameters. -/
  | inGroup (bracket : Bracket) (opener : Token) (depth : Nat) (heading : Option Heading)
  /-- Right behind the parameters of a heading. -/
  | afterParameters (heading : Heading)
  /-- On the way to the body of a heading. -/
  | beforeBody (heading : Heading)
  /-- Inside of the body of a heading. -/
  | inBody (heading : Heading) (brace : Token) (depth : Nat)
deriving DecidableEq, Repr

/-- A reading under way: the token before the next one and the first offset of the
declaration under way, both forgotten behind a definition, and the events, the latest
first. -/
structure OutlineReader where
  stage : OutlineStage
  previous : Option Token
  start : Option Nat
  events : List OutlineEvent
deriving DecidableEq, Repr

namespace Bracket

/-- The bracket that a token opens outside of comments. -/
def openedBy? (text : Bytes) : Option Bracket :=
  [round, square, curly].find? (·.opening = text)

end Bracket

namespace OutlineReader

/-- The text of the token that ends a declaration. -/
def semicolon : Bytes := Bytes.ofChars [';']

/-- The text of the token that separates declarations. -/
def comma : Bytes := Bytes.ofChars [',']

/-- A reading that has not begun. -/
def initial : OutlineReader := ⟨.between, none, none, []⟩

/-- Remembers a token outside of definitions. -/
def note (reader : OutlineReader) (token : Token) : OutlineReader :=
  { reader with
    previous := some token
    start := if token.text = semicolon then none else reader.start.or (some token.first) }

/-- The heading made by parentheses that open here. -/
def heading? (reader : OutlineReader) (bracket : Bracket) : Option Heading :=
  match reader.previous, reader.start with
  | some name, some start =>
    if bracket = .round && Token.isWord name.text then some ⟨name, start⟩ else none
  | _, _ => none

/-- Goes on to the body of a heading. -/
def seekBody (reader : OutlineReader) (heading : Heading) (token : Token) : OutlineReader :=
  if token.text = Bracket.curly.opening then
    { reader with stage := .inBody heading token 1 }
  else
    { reader with stage := .beforeBody heading }

/-- The stage behind a group. -/
def stageAfterGroup : Option Heading → OutlineStage
  | some heading => .afterParameters heading
  | none => .between

/-- The reading after one more token. -/
def step (reader : OutlineReader) (token : Token) : OutlineReader :=
  match reader.stage with
  | .between =>
    match Bracket.openedBy? token.text with
    | none => reader.note token
    | some bracket =>
      { reader.note token with
        stage := .inGroup bracket token 1 (reader.heading? bracket) }
  | .inGroup bracket opener depth heading =>
    match bracket.depthAfter depth token.text with
    | 0 =>
      { reader.note token with
        stage := stageAfterGroup heading
        events := .group bracket opener.first token.first :: reader.events }
    | inner + 1 =>
      { reader.note token with stage := .inGroup bracket opener (inner + 1) heading }
  | .afterParameters heading =>
    if token.text = semicolon || token.text = comma then
      { reader.note token with stage := .between }
    else
      reader.seekBody heading token
  | .beforeBody heading => reader.seekBody heading token
  | .inBody heading brace depth =>
    match Bracket.curly.depthAfter depth token.text with
    | 0 =>
      { stage := .between
        previous := none
        start := none
        events :=
          .definition ⟨heading.name, heading.start, brace.first, token.first⟩ ::
          .group .curly brace.first token.first :: reader.events }
    | inner + 1 => { reader with stage := .inBody heading brace (inner + 1) }

/-- The flaw of a text that ends here. -/
def flaw? (reader : OutlineReader) : Option Flaw :=
  match reader.stage with
  | .between => none
  | .inGroup bracket opener _ _ => some (.unmatched bracket opener.first)
  | .afterParameters heading => some (.missingBody heading.name)
  | .beforeBody heading => some (.missingBody heading.name)
  | .inBody _ brace _ => some (.unmatched .curly brace.first)

/-- The reading after all of some tokens. -/
def run (reader : OutlineReader) (tokens : List Token) : OutlineReader :=
  tokens.foldl step reader

@[simp]
theorem run_nil (reader : OutlineReader) : reader.run [] = reader := rfl

@[simp]
theorem run_cons (reader : OutlineReader) (token : Token) (tokens : List Token) :
    reader.run (token :: tokens) = (reader.step token).run tokens := rfl

theorem run_append (reader : OutlineReader) (first second : List Token) :
    reader.run (first ++ second) = (reader.run first).run second := by
  simp [run]

end OutlineReader

namespace Outline

/-- The outline of some tokens. -/
def ofTokens (tokens : List Token) : Outline :=
  let reader := OutlineReader.initial.run tokens
  ⟨reader.events.reverse, reader.flaw?⟩

/-- The definitions, in order. -/
def definitions (outline : Outline) : List Definition :=
  outline.events.filterMap fun event =>
    match event with
    | .definition definition => some definition
    | .group _ _ _ => none

end Outline

namespace Flaw

/-- The fault that a flaw makes. The line of a bracket is counted in the text that was
read, the line of a name in the source. -/
def toFault (source read : Bytes) : Flaw → Fault
  | unmatched bracket offset => .unmatched bracket.opening (read.lineAt offset) none
  | missingBody name => .missingBody (Text.Utf8.decode name.text) (source.lineAt name.first)

end Flaw

end CDelta
