import CDelta.Variant

/-! # Reports

Two files are reported function by function. Functions pair by name; those of the old file
come first, in its order, then those that only the new file has. What lies outside of all
functions is compared as one more function.
-/

namespace CDelta

/-- What became of a function. -/
inductive Status where
  | unchanged
  | changed
  | deleted
  | added
deriving DecidableEq, Repr

namespace Status

/-- The word for a status. -/
def name : Status → String
  | unchanged => "unchanged"
  | changed => "changed"
  | deleted => "deleted"
  | added => "added"

/-- Every status, once. -/
def all : List Status :=
  [unchanged, changed, deleted, added]

/-- The status with a word. -/
def ofName? (name : String) : Option Status :=
  all.find? (·.name = name)

end Status

/-- An offset in a file with the line that holds it. -/
structure Place where
  offset : Int
  line : Int
deriving DecidableEq, Repr

/-- What is reported of a function, with the place in either file that shows it. -/
structure Finding where
  name : String
  status : Status
  placeA : Option Place
  placeB : Option Place
deriving DecidableEq, Repr

/-- What is reported of two files. -/
structure FileReport where
  pathA : String
  pathB : String
  functions : List Finding
  residue : Finding
  warnings : List String
deriving DecidableEq, Repr

namespace Survey

/-- The place of an offset. -/
def place (survey : Survey) (offset : Int) : Place :=
  ⟨offset, survey.source.lineOf offset⟩

/-- The whole file as it is compared. -/
def side (survey : Survey) : Side :=
  ⟨survey, View.ofMarks survey.source survey.marks [], Span.whole survey.source⟩

/-- Everything outside of functions as it is compared. -/
def residueSide (survey : Survey) : Side :=
  ⟨survey, View.ofMarks survey.source survey.marks (survey.functions.map (·.span)),
    Span.whole survey.source⟩

end Survey

namespace Finding

/-- The name under which everything outside of functions is reported. -/
def residueName : String := "#DATA DECLARATIONS OUTSIDE OF FUNCTIONS#"

/-- The finding of a comparison. -/
def ofOutcome (a b : Survey) (name : String) : Outcome → Finding
  | .same => ⟨name, .unchanged, none, none⟩
  | .differs offsetA offsetB =>
    ⟨name, .changed, some (a.place offsetA), some (b.place offsetB)⟩

/-- The finding of a function that the new file lacks. -/
def deleted (a : Survey) (function : Footprint) : Finding :=
  ⟨function.name, .deleted, some (a.place function.span.first), none⟩

/-- The finding of a function that the old file lacks. -/
def added (b : Survey) (function : Footprint) : Finding :=
  ⟨function.name, .added, none, some (b.place function.span.first)⟩

/-- The finding of a function of the old file, compared with the one of its name. -/
def ofFunction (a b : Side) (function : Footprint) : Finding :=
  match b.survey.function? function.name with
  | none => deleted a.survey function
  | some other =>
    ofOutcome a.survey b.survey function.name
      ((a.within function.span).compare (b.within other.span))

/-- The functions that only the new file has. -/
def newFunctions (a b : Survey) : List Footprint :=
  b.functions.filter fun function => (a.function? function.name).isNone

/-- The findings of all functions of two files. -/
def functions (a b : Survey) : List Finding :=
  let sideA := a.side
  let sideB := b.side
  a.functions.map (ofFunction sideA sideB) ++ (newFunctions a b).map (added b)

/-- The finding of what lies outside of functions. -/
def residue (a b : Survey) : Finding :=
  ofOutcome a b residueName (a.residueSide.compare b.residueSide)

/-- A line number in the text of a report. -/
def lineText : Option Place → String
  | some place => toString place.line
  | none => "None"

/-- The line of text for a finding; none when it is not shown. -/
def text? (showAll : Bool) (finding : Finding) : Option String :=
  let name := finding.name
  let lineA := lineText finding.placeA
  let lineB := lineText finding.placeB
  match finding.status with
  | .changed => some s!"Function \"{name}\" is changed at lines ({lineA}, {lineB})"
  | .deleted => some s!"Function \"{name}\" is deleted at line {lineA}"
  | .added => some s!"Function \"{name}\" is added at line {lineB}"
  | .unchanged => if showAll then some s!"Function \"{name}\" is the same" else none

end Finding

namespace FileReport

/-- Reports two surveyed files. -/
def ofSurveys (a b : Survey) : FileReport :=
  ⟨a.path, b.path, Finding.functions a b, Finding.residue a b, a.warnings ++ b.warnings⟩

/-- Something changed. -/
def differs (report : FileReport) : Bool :=
  report.residue.status ≠ .unchanged || report.functions.any (·.status ≠ .unchanged)

/-- The text of a report, line by line. -/
def text (showAll : Bool) (report : FileReport) : List String :=
  ["Processing functions in two files started"] ++
  report.warnings.map ("WARNING: " ++ ·) ++
  (report.functions ++ [report.residue]).filterMap (Finding.text? showAll) ++
  ["Processing functions in two files finished"]

end FileReport

end CDelta
