import CDelta.CommandLine
import CDelta.Environment.Assignments
import CDelta.FileTree
import CDelta.SourceNames
import CDelta.Trace

/-! # Runs

A run compares two files of a file tree, or all source files below two directories. Files of
two directories pair by the path below their directory, and a pair that cannot be compared
does not keep the others from it. A run of the command does one or the other, prints the
text of the report and may write the report to a file.
-/

namespace CDelta

/-- Why two files cannot be compared. -/
inductive CompareError where
  /-- A file cannot be read. -/
  | unreadable (error : FileError)
  /-- A path cannot be that of a file at all. -/
  | unnameable (path : Path)
  /-- A file cannot be surveyed. -/
  | survey (error : SurveyError)
deriving DecidableEq, Repr

namespace CompareError

/-- The wording of an error. -/
def message : CompareError → String
  | unreadable error =>
    let path := error.path.text
    let cause := error.message
    s!"Error reading file {path}: {cause}"
  | unnameable path => FileError.message ⟨.unnameable, path⟩
  | survey error => error.message

end CompareError

namespace FileTree

/-- Surveys a file. One that does not exist counts as empty. -/
def survey (tree : FileTree) (settings : Settings) (path : Path) :
    Except CompareError Survey :=
  match tree.read path with
  | .ok data => (Survey.ofSource settings path.text data).mapError .survey
  | .error .missing => (Survey.ofMissing settings path.text).mapError .survey
  | .error .unnameable => .error (.unnameable path)
  | .error fault => .error (.unreadable ⟨fault, path⟩)

/-- Compares two files. -/
def compare (tree : FileTree) (settings : Settings) (a b : Path) :
    Except CompareError FileReport := do
  let surveyA ← tree.survey settings a
  let surveyB ← tree.survey settings b
  return FileReport.ofSurveys surveyA surveyB

/-- The trace of surveying a file. -/
def traceSurvey (tree : FileTree) (settings : Settings) (path : Path) : List TraceRecord :=
  match tree.read path with
  | .ok data => Trace.survey settings path.text data
  | .error .missing => Trace.survey settings path.text []
  | .error _ => []

/-- The trace of comparing two files. -/
def traceCompare (tree : FileTree) (settings : Settings) (a b : Path) : List TraceRecord :=
  tree.traceSurvey settings a ++
  match tree.survey settings a with
  | .error _ => []
  | .ok surveyA =>
    tree.traceSurvey settings b ++
    match tree.survey settings b with
    | .error _ => []
    | .ok surveyB => Trace.report settings.comments surveyA surveyB

/-- The source files below either of two directories, by their paths below them, in
order. -/
def sources (tree : FileTree) (names : SourceNames) (a b : Path) : List (List String) :=
  let isSource (parts : List String) : Bool := (parts.getLast?.map names.accepts).getD false
  ((tree.below a ++ tree.below b).filter isSource).eraseDups.mergeSort Path.partsLE

end FileTree

/-- The comparison of one pair of files in two directories. -/
structure Visit where
  /-- The path of both files below their directories. -/
  relative : List String
  pathA : Path
  pathB : Path
  result : Except CompareError FileReport

namespace Visit

/-- Compares the files at a path below two directories. -/
def make (tree : FileTree) (settings : Settings) (a b : Path) (relative : List String) :
    Visit :=
  let pathA := a.join relative
  let pathB := b.join relative
  ⟨relative, pathA, pathB, tree.compare settings pathA pathB⟩

/-- The report, if the files could be compared. -/
def report? (visit : Visit) : Option FileReport :=
  visit.result.toOption

/-- The failure, if the files could not be compared. -/
def failure? (visit : Visit) : Option PairFailure :=
  match visit.result with
  | .ok _ => none
  | .error error => some ⟨visit.pathA.text, visit.pathB.text, error.message⟩

/-- The lines printed for a pair of files. -/
def text (showAll : Bool) (visit : Visit) : List String :=
  let pathA := visit.pathA.text
  let pathB := visit.pathB.text
  s!"Comparing files {pathA} and {pathB}" ::
  match visit.result with
  | .ok report => report.text showAll
  | .error error => ["ERROR: " ++ error.message]

/-- The trace of a pair of files. -/
def trace (tree : FileTree) (settings : Settings) (visit : Visit) : List TraceRecord :=
  tree.traceCompare settings visit.pathA visit.pathB ++
  match visit.result with
  | .ok _ => []
  | .error error =>
    let relative := (Path.ofParts visit.relative).text
    let message := error.message
    [⟨.run, s!"Pair {relative} failed: {message}"⟩]

end Visit

namespace FileTree

/-- The comparisons of all source files below two directories, in order. -/
def visits (tree : FileTree) (settings : Settings) (names : SourceNames) (a b : Path) :
    List Visit :=
  (tree.sources names a b).map (Visit.make tree settings a b)

end FileTree

namespace TreeReport

/-- The report on two directories. -/
def ofVisits (a b : Path) (visits : List Visit) : TreeReport :=
  ⟨a.text, b.text, visits.filterMap (·.report?), visits.filterMap (·.failure?)⟩

end TreeReport

/-- What the command is to do. -/
structure Command where
  inputA : Path
  inputB : Path
  settings : Settings
  report : Argument Path
  wantsTrace : Bool

/-- Why the command breaks off. -/
inductive CommandFault where
  /-- The place of an input is empty. -/
  | emptyInput
  /-- The place of the number of choices is empty. -/
  | emptyLimit
  /-- The place of the report is empty. -/
  | emptyReport
  /-- The variables in the file of assignments are not written in text. -/
  | garbledAssignments
  /-- The file of assignments sets what cannot be a variable. -/
  | inadmissibleVariable
  /-- An input cannot be looked up, or the report cannot be written. -/
  | file (error : FileError)
deriving DecidableEq, Repr

namespace CommandFault

/-- The wording of a fault. -/
def message : CommandFault → String
  | emptyInput => "an input is empty"
  | emptyLimit => "the number of choices is empty"
  | emptyReport => "the path of the report is empty"
  | garbledAssignments => "the file of assignments is not text"
  | inadmissibleVariable => "the file of assignments sets what cannot be a variable"
  | file error => error.message

end CommandFault

/-- How a run of the command ends. -/
inductive Ending where
  /-- It exits with a code. -/
  | exit (code : Nat)
  /-- It breaks off. -/
  | broken (fault : CommandFault)
deriving DecidableEq, Repr

/-- What a run has done: the lines it printed, its report if it came to one, how it ends, and
its trace. -/
structure RunLog where
  lines : List String
  report : Option RunReport
  ending : Ending
  trace : List TraceRecord

/-- Why no command comes of a command line. -/
inductive Refusal where
  | help
  | usage (error : UsageError)
  | fault (fault : CommandFault)
deriving DecidableEq, Repr

namespace Refusal

/-- The refusal that a stop in reading the command line leads to. -/
def ofStop : CommandStop → Refusal
  | .help => help
  | .usage error => usage error

end Refusal

namespace Command

/-- The path of an input. -/
def input (tree : FileTree) : Option (Argument String) → Except Refusal Path
  | some (.given text) =>
    let path := Path.ofText text
    match tree.locate path with
    | .error .tooLong => .error (.fault (.file ⟨.tooLong, path⟩))
    | _ => .ok path
  | _ => .error (.fault .emptyInput)

/-- The command that a command line, an environment and a file tree make. A limit that is
not positive is found first, then an input that names no place, then inputs of different
kinds, then the environment. -/
def ofWords (tree : FileTree) (environment : Environment) (words : List String) :
    Except Refusal Command := do
  let invocation ← (Invocation.ofWords words).mapError .ofStop
  if invocation.limit = .empty then throw (.fault .emptyLimit)
  if let .given limit := invocation.limit then
    if limit ≤ 0 then throw (.usage (.limitNotPositive limit))
  let inputA ← input tree invocation.inputs[0]?
  let inputB ← input tree invocation.inputs[1]?
  if tree.isDirectory inputA ≠ tree.isDirectory inputB then throw (.usage .mixedInputs)
  let given ← environment.settings.mapError fun error => .usage (.environment error)
  let showAll := invocation.showAll || given.showAll
  let start := if invocation.bodyOnly then .body else given.start
  let comments := if invocation.notNested then .flat else given.comments
  let limit := invocation.limit.value?.getD given.choiceLimit
  let settings := (Settings.withLimit? showAll start comments limit).getD given
  let wantsTrace := match invocation.level with
    | some level => level = "DEBUG"
    | none => environment.wantsTrace
  return ⟨inputA, inputB, settings, invocation.report.map Path.ofText, wantsTrace⟩

/-- Compares two files. -/
def runPair (tree : FileTree) (command : Command) : RunLog :=
  let settings := command.settings
  let trace := if command.wantsTrace then
      tree.traceCompare settings command.inputA command.inputB
    else []
  match tree.compare settings command.inputA command.inputB with
  | .ok report => ⟨report.text settings.showAll, some (.pair report), .exit 0, trace⟩
  | .error (.unnameable path) => ⟨[], none, .broken (.file ⟨.unnameable, path⟩), trace⟩
  | .error error => ⟨["ERROR: " ++ error.message], none, .exit 1, trace⟩

/-- Compares the source files of two directories. -/
def runTree (tree : FileTree) (command : Command) : RunLog :=
  let settings := command.settings
  let visits := tree.visits settings .default command.inputA command.inputB
  let report := TreeReport.ofVisits command.inputA command.inputB visits
  let trace := if command.wantsTrace then visits.flatMap (Visit.trace tree settings) else []
  let ending := .exit (if report.failures.isEmpty then 0 else 1)
  ⟨visits.flatMap (Visit.text settings.showAll), some (.tree report), ending, trace⟩

/-- Does what the command is to do. -/
def run (tree : FileTree) (command : Command) : RunLog :=
  if tree.isDirectory command.inputA then command.runTree tree else command.runPair tree

end Command

/-- All that a run of the command leaves behind. -/
structure CommandResult where
  ending : Ending
  output : String
  errors : String
  tree : FileTree

namespace Command

/-- The file of assignments in the working directory. -/
def assignmentsPath : Path := Path.ofText ".env"

/-- The environment with the variables that the file of assignments adds. -/
def environmentOf (tree : FileTree) (environment : Environment) :
    Except CommandFault Environment :=
  match tree.read assignmentsPath with
  | .error _ => .ok environment
  | .ok data =>
    let more := (Assignments.read environment (Text.Utf8.decode data)).filter fun (name, _) =>
      (environment.lookup name).isNone
    if !Text.Utf8.isWellFormed data then .error .garbledAssignments
    else if more.all fun (name, value) => Environment.admits name value then
      .ok (environment.withDefaults more)
    else .error .inadmissibleVariable

/-- The command that is called by some words. The file of assignments is read first. -/
def ofCall (tree : FileTree) (environment : Environment) (words : List String) :
    Except Refusal Command := do
  let environment ← (environmentOf tree environment).mapError .fault
  ofWords tree environment words

/-- Lines as printed. -/
def printed (lines : List String) : String :=
  String.join (lines.map (· ++ "\n"))

/-- How to call the command. -/
def usage : List String :=
  ["usage: adiff [-h] [-show_all] [-body_only] [-not_nested] [-vs N]",
    "             [-report PATH] [--log-level \x7bDEBUG,INFO,WARNING,ERROR\x7d]",
    "             input1 input2",
    "",
    "Report which C functions changed between two versions of a file",
    "",
    "positional arguments:",
    "  input1                Old version (file or directory)",
    "  input2                New version (file or directory)",
    "",
    "options:",
    "  -h, --help            show this help message and exit",
    "  -show_all             Also print functions that did not change",
    "  -body_only            Start each function at its body\x27s opening brace",
    "  -not_nested           The first \x27*/\x27 always closes a comment",
    "  -vs N                 Max branch choices evaluated per file (default: 500)",
    "  -report PATH          Also write the results as YAML to PATH",
    "  --log-level \x7bDEBUG,INFO,WARNING,ERROR\x7d",
    "                        Diagnostic logging level on stderr (default: WARNING)"]

/-- Writes the report of a run, if there is one and a place for it. -/
def save (tree : FileTree) (command : Command) (time : String) (log : RunLog) :
    FileTree × Except CommandFault Unit :=
  match command.report, log.report with
  | .given path, some report =>
    let (tree, written) := tree.write path (.report time report)
    (tree, written.mapError .file)
  | .empty, some _ => (tree, .error .emptyReport)
  | _, _ => (tree, .ok ())

/-- Runs the command line in a file tree, at some time. -/
def execute (tree : FileTree) (environment : Environment) (time : String)
    (words : List String) : CommandResult :=
  match ofCall tree environment words with
  | .error .help => ⟨.exit 0, printed usage, "", tree⟩
  | .error (.usage error) => ⟨.exit 2, "", "adiff: error: " ++ error.message ++ "\n", tree⟩
  | .error (.fault fault) => ⟨.broken fault, "", "", tree⟩
  | .ok command =>
    let log := command.run tree
    let errors := String.join (log.trace.map (·.text))
    let (tree, saved) := command.save tree time log
    let ending := match saved with
      | .ok () => log.ending
      | .error fault => .broken fault
    ⟨ending, printed log.lines, errors, tree⟩

end Command

end CDelta
