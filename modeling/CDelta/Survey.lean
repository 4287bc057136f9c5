import CDelta.Layout
import CDelta.Settings

/-! # Surveys

A survey reads one file under every branch choice, up to a limit, and unites the functions
found. Comments, literals, escapes and directives are blanked first, then for each choice
the branches it leaves out. A choice under which no outline can be read is dropped; when
all are, so is the file.
-/

namespace CDelta

/-- The reading of a file under one branch choice. -/
structure Attempt where
  choice : Nat
  /-- The spans that the choice leaves out. -/
  hidden : List Span
  outline : Outline
  /-- Why the reading was dropped. -/
  fault : Option Fault

namespace Attempt

/-- Reads a working copy under one choice. -/
def read (source working : Bytes) (layout : Layout) (choice : Nat) : Attempt :=
  let hidden := layout.unselected choice
  let scratch := working.blank hidden
  let outline := Outline.ofTokens scratch.tokens
  ⟨choice, hidden, outline, outline.flaw.map (·.toFault source scratch)⟩

/-- The reading was not dropped. -/
def survives (attempt : Attempt) : Bool :=
  attempt.fault.isNone

/-- The functions found. -/
def footprints (start : Start) (attempt : Attempt) : List Footprint :=
  attempt.outline.definitions.map (·.footprint start)

end Attempt

/-- Why a file cannot be surveyed. -/
inductive SurveyError where
  /-- The text has no defined structure under any choice. -/
  | malformed (fault : Fault)
  /-- Every choice was dropped; the fault is that of the last one. -/
  | exhausted (fault : Fault)
deriving DecidableEq, Repr

namespace SurveyError

/-- The wording of an error. -/
def message : SurveyError → String
  | malformed fault => fault.message
  | exhausted fault => fault.message

end SurveyError

/-- One file, read under its branch choices. -/
structure Survey where
  /-- The name of the file in messages. -/
  path : String
  /-- The file does not exist and was read as an empty one. -/
  missing : Bool
  source : Bytes
  /-- The literals, comments and escapes of the text. -/
  marks : List Mark
  /-- The text with comments, literals, escapes and directives blanked. -/
  working : Bytes
  layout : Layout
  attempts : List Attempt
  /-- The functions found in each surviving attempt. -/
  sets : List (List Footprint)
  /-- All functions, united by name. -/
  functions : List Footprint

namespace Survey

/-- The marks of a text and the layout found with all of them blanked. -/
def prepare (rule : CommentRule) (source : Bytes) : Except Fault (List Mark × Layout) := do
  let marks ← source.marks rule .everything
  let layout ← source.layout (source.blankMarks marks)
  return (marks, layout)

/-- Surveys a text. -/
def ofSource (settings : Settings) (path : String) (source : Bytes) :
    Except SurveyError Survey :=
  match prepare settings.comments source with
  | .error fault => .error (.malformed fault)
  | .ok (marks, layout) =>
    let working := (source.blankMarks marks).blankMarks layout.directives
    let limit := min layout.choices settings.choiceLimit
    let attempts := (List.range limit).map (Attempt.read source working layout)
    let sets := (attempts.filter (·.survives)).map (·.footprints settings.start)
    match sets, attempts.getLast?.bind (·.fault) with
    | [], some fault => .error (.exhausted fault)
    | _, _ =>
      .ok ⟨path, false, source, marks, working, layout, attempts, sets, Footprint.uniteAll sets⟩

/-- Surveys a file that does not exist. -/
def ofMissing (settings : Settings) (path : String) : Except SurveyError Survey :=
  (ofSource settings path []).map fun survey => { survey with missing := true }

/-- The number of branch choices there are. -/
def choicesTotal (survey : Survey) : Nat :=
  survey.layout.choices

/-- The number of branch choices tried. -/
def choicesTried (survey : Survey) : Nat :=
  survey.attempts.length

/-- Some choices were not tried. -/
def isTruncated (survey : Survey) : Bool :=
  survey.choicesTried < survey.choicesTotal

/-- The attempts that were not dropped. -/
def survivors (survey : Survey) : List Attempt :=
  survey.attempts.filter (·.survives)

/-- The spans left out by each surviving choice. -/
def hiddenSpans (survey : Survey) : List (List Span) :=
  survey.survivors.map (·.hidden)

/-- The dropped choices with the faults that dropped them. -/
def failures (survey : Survey) : List (Nat × Fault) :=
  survey.attempts.filterMap fun attempt => attempt.fault.map fun fault => (attempt.choice, fault)

/-- The spans of the directives that shape conditionals. -/
def controlSpans (survey : Survey) : List Span :=
  survey.layout.controls.map (·.toSpan)

/-- The function with a name. -/
def function? (survey : Survey) (name : String) : Option Footprint :=
  Footprint.find? survey.functions name

/-- The warning that the file does not exist. -/
def missingWarning? (survey : Survey) : Option String :=
  let path := survey.path
  if survey.missing then some s!"File {path} is missing, treating it as empty" else none

/-- The warning that not all choices were tried. -/
def truncationWarning? (survey : Survey) : Option String :=
  let path := survey.path
  let total := survey.choicesTotal
  let tried := survey.choicesTried
  if survey.isTruncated then
    some (s!"search space for directives in {path} is too large (number of choices = {total}), " ++
      s!"reducing it to {tried}: RESULTS CAN BE INCORRECT")
  else none

/-- The warning that a choice defines a function twice. -/
def duplicateWarning? (survey : Survey) : Option String :=
  let path := survey.path
  match Footprint.duplicates survey.sets with
  | [] => none
  | names =>
    let list := ", ".intercalate names
    some s!"duplicate function names found in {path} ({list}): RESULTS CAN BE INCORRECT"

/-- The warning that functions overlap. -/
def overlapWarning? (survey : Survey) : Option String :=
  let path := survey.path
  match Footprint.overlaps survey.functions with
  | [] => none
  | pairs =>
    let list := ", ".intercalate (pairs.map fun (a, b) => a.name ++ "/" ++ b.name)
    some (s!"function declarations overlapped in {path} ({list}): " ++
      "RESULTS can show more changed functions than necessary")

/-- The warnings about a file, in order. -/
def warnings (survey : Survey) : List String :=
  [survey.missingWarning?, survey.truncationWarning?, survey.duplicateWarning?,
    survey.overlapWarning?].filterMap id

end Survey

end CDelta
