import CDelta.Settings
import CDelta.Text.Integer

/-! # Settings from the environment

Environment variables give settings. A variable that is unset or blank leaves a setting
alone; a flag is on when its value is one of a few words, in any case, and off otherwise.
-/

namespace CDelta

/-- The names and values of variables. -/
abbrev Environment := List (String × String)

/-- Why the environment gives no settings. -/
inductive EnvironmentError where
  /-- The number of choices is not a number. -/
  | notInteger (text : String)
  /-- The number of choices is not positive. -/
  | notPositive (limit : Int)
deriving DecidableEq, Repr

namespace EnvironmentError

/-- The wording of an error. -/
def message : EnvironmentError → String
  | notInteger text => Text.Integer.refusal text
  | notPositive limit => Settings.limitRefusal limit

end EnvironmentError

namespace Environment

/-- The words that turn a flag on. -/
def affirmative : List String := ["1", "true", "yes", "on"]

/-- The value of a variable without the blanks around it; none when nothing is left. -/
def value? (environment : Environment) (name : String) : Option String :=
  (environment.lookup name).bind fun value =>
    let value := Text.strip value
    if value = "" then none else some value

/-- The value of a flag. -/
def flag (environment : Environment) (name : String) (unset : Bool) : Bool :=
  match environment.value? name with
  | some value => affirmative.contains (value.map Char.toLower)
  | none => unset

/-- The number of choices to try. -/
def limit? (environment : Environment) : Except EnvironmentError Int :=
  match environment.value? "ADIFF_CHOICE_LIMIT" with
  | none => .ok Settings.defaultLimit
  | some text =>
    match Text.Integer.read? text with
    | some limit => .ok limit
    | none => .error (.notInteger text)

/-- The settings that the environment gives. -/
def settings (environment : Environment) : Except EnvironmentError Settings := do
  let limit ← environment.limit?
  let showAll := environment.flag "ADIFF_SHOW_ALL" false
  let start := if environment.flag "ADIFF_BODY_ONLY" false then .body else .declaration
  let comments := if environment.flag "ADIFF_NESTED_COMMENTS" true then .nested else .flat
  match Settings.withLimit? showAll start comments limit with
  | some settings => return settings
  | none => throw (.notPositive limit)

/-- The environment asks for a debug trace. -/
def wantsTrace (environment : Environment) : Bool :=
  (environment.lookup "ADIFF_LOG_LEVEL").map (·.map Char.toUpper) = some "DEBUG"

/-- A variable can have the name and the value: neither holds a null character, and the name
holds no equals sign. -/
def admits (name value : String) : Bool :=
  !(name.toList.contains '=' || name.toList.contains '\x00' || value.toList.contains '\x00')

/-- The environment with further variables, which never replace those it has. -/
def withDefaults (environment more : Environment) : Environment :=
  environment ++ more

end Environment

end CDelta
