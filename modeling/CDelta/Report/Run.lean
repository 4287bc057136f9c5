import CDelta.Report
import CDelta.Text.Quoted

/-! # Reports of whole runs

A run compares one pair of files, or all source files of two directories. Its report can be
written as a document, in which every text stands between double quotes.
-/

namespace CDelta

/-- A pair of files that could not be compared. -/
structure PairFailure where
  pathA : String
  pathB : String
  error : String
deriving DecidableEq, Repr

/-- What is reported of two directories. -/
structure TreeReport where
  rootA : String
  rootB : String
  pairs : List FileReport
  failures : List PairFailure
deriving DecidableEq, Repr

/-- What is reported of a run. -/
inductive RunReport where
  | pair (report : FileReport)
  | tree (report : TreeReport)
deriving DecidableEq, Repr

namespace RunReport

/-- The fields of a report's document, in order. -/
def fields : RunReport → List String
  | pair _ =>
    ["generated_at", "path_a", "path_b", "differs", "functions", "residue", "warnings"]
  | tree _ => ["generated_at", "root_a", "root_b", "pairs", "failures"]

end RunReport

namespace Document

/-- A text of a document. -/
def text (value : String) : String :=
  String.ofList (['\x22'] ++ value.toList.flatMap (Text.escaped '\x22') ++ ['\x22'])

/-- A number of a document, if it is set. -/
def number : Option Int → String
  | some value => toString value
  | none => "null"

/-- A field with a value on its own line. -/
def scalar (name value : String) : List String :=
  [name ++ ": " ++ value]

/-- Lines moved to the right. -/
def indent (lines : List String) : List String :=
  lines.map ("  " ++ ·)

/-- Lines as one element of a list. -/
def element : List String → List String
  | [] => []
  | first :: rest => ("- " ++ first) :: indent rest

/-- A field with a list of elements. -/
def list (name : String) (elements : List (List String)) : List String :=
  match elements with
  | [] => scalar name "[]"
  | elements => (name ++ ":") :: elements.flatMap element

/-- The fields of a finding. -/
def finding (finding : Finding) : List String :=
  scalar "name" (text finding.name) ++
  scalar "status" finding.status.name ++
  scalar "offset_a" (number (finding.placeA.map (·.offset))) ++
  scalar "offset_b" (number (finding.placeB.map (·.offset))) ++
  scalar "line_a" (number (finding.placeA.map (·.line))) ++
  scalar "line_b" (number (finding.placeB.map (·.line)))

/-- The fields of a report on two files. -/
def file (report : FileReport) : List String :=
  scalar "path_a" (text report.pathA) ++
  scalar "path_b" (text report.pathB) ++
  scalar "differs" (if report.differs then "true" else "false") ++
  list "functions" (report.functions.map finding) ++
  ["residue:"] ++ indent (finding report.residue) ++
  list "warnings" (report.warnings.map fun warning => [text warning])

/-- The fields of a pair that could not be compared. -/
def failure (failure : PairFailure) : List String :=
  scalar "path_a" (text failure.pathA) ++
  scalar "path_b" (text failure.pathB) ++
  scalar "error" (text failure.error)

/-- The fields of a report. -/
def report : RunReport → List String
  | .pair report => file report
  | .tree report =>
    scalar "root_a" (text report.rootA) ++
    scalar "root_b" (text report.rootB) ++
    list "pairs" (report.pairs.map file) ++
    list "failures" (report.failures.map failure)

/-- The document of a report written at some time. -/
def ofReport (time : String) (run : RunReport) : String :=
  String.join ((scalar "generated_at" (text time) ++ report run).map (· ++ "\n"))

end Document

end CDelta
