import CDelta.Environment

/-! # The command line

The words of a command line name two inputs and may set options, in any order. An option
with a value takes it from behind an equals sign or from the next word. Options with one
dash may be cut short as long as the rest is unique. Behind the word `--` every word is an
input. The last of repeated options counts.

The word `--` itself is no value. Where one is given all the same, its place stays empty:
that is no error of usage, but nothing can be done with an empty place.
-/

namespace CDelta

/-- The options of the command. -/
inductive CommandOption where
  | help
  | showAll
  | bodyOnly
  | notNested
  | limit
  | report
  | level
deriving DecidableEq, Repr

namespace CommandOption

/-- The spellings of the options. -/
def spellings : List (String × CommandOption) :=
  [("-h", help), ("--help", help), ("-show_all", showAll), ("-body_only", bodyOnly),
    ("-not_nested", notNested), ("-vs", limit), ("-report", report), ("--log-level", level)]

/-- The option with a spelling. -/
def ofSpelling? (text : String) : Option CommandOption :=
  spellings.lookup text

/-- All spellings of an option, as messages show them. -/
def title (option : CommandOption) : String :=
  "/".intercalate ((spellings.filter fun (_, other) => other = option).map (·.1))

/-- The option has a value. -/
def takesValue : CommandOption → Bool
  | limit | report | level => true
  | _ => false

end CommandOption

/-- The names of the levels of diagnostic output. -/
def logLevels : List String := ["DEBUG", "INFO", "WARNING", "ERROR"]

/-- What is wrong with a command line, or with what it is used on. -/
inductive UsageError where
  | expectedArgument (option : CommandOption)
  | ignoredArgument (option : CommandOption) (text : String)
  | invalidInteger (text : String)
  | invalidLevel (text : String)
  | missingInputs (names : List String)
  | unrecognized (words : List String)
  | limitNotPositive (limit : Int)
  | mixedInputs
  | environment (error : EnvironmentError)
deriving DecidableEq, Repr

namespace UsageError

/-- The wording of an error. -/
def message : UsageError → String
  | expectedArgument option =>
    let title := option.title
    s!"argument {title}: expected one argument"
  | ignoredArgument option text =>
    let title := option.title
    let shown := Text.quoted text
    s!"argument {title}: ignored explicit argument {shown}"
  | invalidInteger text =>
    let title := CommandOption.limit.title
    let shown := Text.quoted text
    s!"argument {title}: invalid int value: {shown}"
  | invalidLevel text =>
    let title := CommandOption.level.title
    let shown := Text.quoted text
    let known := ", ".intercalate (logLevels.map Text.quoted)
    s!"argument {title}: invalid choice: {shown} (choose from {known})"
  | missingInputs names =>
    let list := ", ".intercalate names
    s!"the following arguments are required: {list}"
  | unrecognized words =>
    let list := " ".intercalate words
    s!"unrecognized arguments: {list}"
  | limitNotPositive limit => s!"-vs must be a positive integer, got {limit}"
  | mixedInputs => "inputs must be two files or two directories"
  | environment error =>
    let cause := error.message
    s!"invalid ADIFF_* environment setting: {cause}"

end UsageError

/-- What a word of a command line is. What is attached to an option stands in the same word. -/
inductive CommandWord where
  | operand
  | known (option : CommandOption) (long : Bool) (attached : Option String)
  | unknown
deriving DecidableEq, Repr

namespace CommandWord

/-- The text spells a number below zero: a dash and digits, which may have a point in or in
front of them but not at their end. A newline at the end is no part of it. -/
def isNegativeNumber (chars : List Char) : Bool :=
  let isDigit (char : Char) : Bool := (Text.digit? char).isSome
  match chars with
  | '-' :: rest =>
    let rest := if rest.getLast? = some '\n' then rest.dropLast else rest
    match rest.takeWhile isDigit, rest.dropWhile isDigit with
    | _ :: _, [] => true
    | _, '.' :: fraction => !fraction.isEmpty && fraction.all isDigit
    | _, _ => false
  | _ => false

/-- The options that a word with one dash can be short for, or carries a value of. -/
def candidates (chars : List Char) : List CommandWord :=
  CommandOption.spellings.filterMap fun (spelling, option) =>
    let long := spelling.toList.take 2 = ['-', '-']
    if spelling.toList = chars.take 2 then
      some (.known option long (some (String.ofList (chars.drop 2))))
    else if chars.isPrefixOf spelling.toList then some (.known option long none)
    else none

/-- What a word is by itself: an option, or something that only looks like one. -/
def ofDashed (text : String) : CommandWord :=
  let chars := text.toList
  let short := if chars[1]? = some '-' then [] else candidates chars
  match short with
  | [word] => word
  | _ =>
    if isNegativeNumber chars || chars.contains ' ' then .operand else .unknown

/-- What a word is in front of the word `--`. -/
def ofText (text : String) : CommandWord :=
  let chars := text.toList
  let isLong : Bool := chars.take 2 = ['-', '-']
  if chars.head? ≠ some '-' then .operand
  else
    match CommandOption.ofSpelling? text with
    | some option => .known option isLong none
    | none =>
      if chars.length = 1 then .operand
      else
        let name := String.ofList (chars.takeWhile (· ≠ '='))
        match CommandOption.ofSpelling? name, chars.dropWhile (· ≠ '=') with
        | some option, '=' :: value =>
          .known option isLong (some (String.ofList value))
        | _, _ => ofDashed text

end CommandWord

/-- What a command line puts in the place of a value. -/
inductive Argument (α : Type) where
  | unset
  | empty
  | given (value : α)
deriving DecidableEq, Repr

namespace Argument

/-- The argument with its value changed. -/
def map {α β : Type} (f : α → β) : Argument α → Argument β
  | unset => unset
  | empty => empty
  | given value => given (f value)

/-- The value, if there is one. -/
def value? {α : Type} : Argument α → Option α
  | given value => some value
  | _ => none

end Argument

/-- What a command line asks for. -/
structure Invocation where
  inputs : List (Argument String)
  showAll : Bool
  bodyOnly : Bool
  notNested : Bool
  limit : Argument Int
  report : Argument String
  level : Option String
  /-- The words that mean nothing. -/
  extras : List String
  /-- The latest word was an input. -/
  afterInput : Bool
deriving DecidableEq, Repr

/-- Why reading a command line stops before its end. -/
inductive CommandStop where
  | help
  | usage (error : UsageError)
deriving DecidableEq, Repr

namespace Invocation

/-- What an empty command line asks for. -/
def initial : Invocation :=
  ⟨[], false, false, false, .unset, .unset, none, [], false⟩

/-- The names of the inputs in messages. -/
def inputNames : List String := ["input1", "input2"]

/-- Takes a word that means nothing. -/
def extra (invocation : Invocation) (text : String) : Invocation :=
  { invocation with extras := invocation.extras ++ [text], afterInput := false }

/-- Takes a word as an input, or as one that means nothing when there are enough. -/
def operand (invocation : Invocation) (text : String) : Invocation :=
  if invocation.inputs.length < inputNames.length then
    { invocation with inputs := invocation.inputs ++ [.given text], afterInput := true }
  else
    invocation.extra text

/-- Takes a word like `operand`, but a `--` leaves the place of the input empty. -/
def laterOperand (invocation : Invocation) (text : String) : Invocation :=
  if text = "--" && invocation.inputs.length < inputNames.length then
    { invocation with inputs := invocation.inputs ++ [.empty], afterInput := true }
  else
    invocation.operand text

/-- Takes the word `--`. It means nothing when the inputs are complete and none of them is
right in front of it. -/
def separator (invocation : Invocation) : Invocation :=
  if invocation.afterInput || invocation.inputs.length < inputNames.length then invocation
  else invocation.extra "--"

/-- Takes all words behind `--` as inputs. That `--` belongs to the input right in front of
it, else to the first one behind it; an input that it belongs to may be a `--` as well. -/
def operands (invocation : Invocation) : List String → Invocation
  | [] => invocation
  | first :: rest =>
    let next := if invocation.afterInput then invocation.laterOperand first
      else invocation.operand first
    rest.foldl laterOperand next

/-- Sets an option without a value. -/
def setFlag (invocation : Invocation) (option : CommandOption) :
    Except CommandStop Invocation :=
  let invocation := { invocation with afterInput := false }
  match option with
  | .help => .error .help
  | .showAll => .ok { invocation with showAll := true }
  | .bodyOnly => .ok { invocation with bodyOnly := true }
  | .notNested => .ok { invocation with notNested := true }
  | _ => .ok invocation

/-- Leaves the value of an option empty. -/
def setEmpty (invocation : Invocation) (option : CommandOption) : Invocation :=
  let invocation := { invocation with afterInput := false }
  match option with
  | .limit => { invocation with limit := .empty }
  | .report => { invocation with report := .empty }
  | .level => { invocation with level := none }
  | _ => invocation

/-- Sets an option to a value. -/
def setValue (invocation : Invocation) (option : CommandOption) (text : String) :
    Except CommandStop Invocation :=
  if text = "--" then .ok (invocation.setEmpty option)
  else
    let invocation := { invocation with afterInput := false }
    match option with
    | .limit =>
      match Text.Integer.read? text with
      | some limit => .ok { invocation with limit := .given limit }
      | none => .error (.usage (.invalidInteger text))
    | .level =>
      if logLevels.contains text then .ok { invocation with level := some text }
      else .error (.usage (.invalidLevel text))
    | .report => .ok { invocation with report := .given text }
    | _ => .ok invocation

/-- What comes of the text attached to an option without a value. Each `h` at its front asks
for help, and what then is left is an argument that has no place. -/
def flagTail (option : CommandOption) : List Char → CommandStop
  | ['h'] => .help
  | 'h' :: rest => flagTail .help rest
  | rest => .usage (.ignoredArgument option (String.ofList rest))

/-- Sets an option without a value that has something attached. -/
def setAttachedFlag (option : CommandOption) (long : Bool) (attached : String) :
    CommandStop :=
  if long then .usage (.ignoredArgument option attached)
  else flagTail option attached.toList

/-- A word that an option can take as its value. -/
def isValue (word : String) : Bool :=
  word ≠ "--" && CommandWord.ofText word = .operand

/-- Reads the words of a command line. -/
def read (invocation : Invocation) : List String → Except CommandStop Invocation
  | [] => .ok invocation
  | word :: rest =>
    if word = "--" then .ok (invocation.separator.operands rest)
    else
      match CommandWord.ofText word with
      | .operand => (invocation.operand word).read rest
      | .unknown => (invocation.extra word).read rest
      | .known option long attached =>
        if option.takesValue then
          match attached, rest with
          | some value, rest =>
            match invocation.setValue option value with
            | .ok next => next.read rest
            | .error stop => .error stop
          | none, [] => .error (.usage (.expectedArgument option))
          | none, value :: rest =>
            if isValue value then
              match invocation.setValue option value with
              | .ok next => next.read rest
              | .error stop => .error stop
            else .error (.usage (.expectedArgument option))
        else
          match attached with
          | some attached => .error (setAttachedFlag option long attached)
          | none =>
            match invocation.setFlag option with
            | .ok next => next.read rest
            | .error stop => .error stop

/-- What a command line asks for. Both inputs are there and every word means something. -/
def ofWords (words : List String) : Except CommandStop Invocation := do
  let invocation ← initial.read words
  match inputNames.drop invocation.inputs.length with
  | [] =>
    if invocation.extras.isEmpty then return invocation
    else throw (.usage (.unrecognized invocation.extras))
  | missing => throw (.usage (.missingInputs missing))

end Invocation

end CDelta
