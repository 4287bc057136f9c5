import CDelta.Run
import CDelta.Proofs.Footprint
import CDelta.Proofs.Survey
import Mathlib.Data.List.Forall2

/-! # Runs over two directories

A run over two directories compares the source files found below either of them, each once and
in the order of their paths. A pair of files is compared as it would be alone: whether it can be
and what is reported of it depends on the bytes of the two files only. So a pair that fails is
reported as such, and the reports of all others are what they would be without it.
-/

namespace CDelta

namespace Path

end Path

namespace FileTree

variable {tree : FileTree} {settings : Settings} {names : SourceNames} {a b path : Path}
  {relative : List String}

/-- A file stands in the directory at the end of a path, or further below it, where the names
lead. -/
def StandsBelow (tree : FileTree) (path : Path) (relative : List String) : Prop :=
  ∃ place, tree.locate path = .ok place ∧ tree.hasDirectory place = true ∧
    (tree.content? (place ++ relative)).isSome

/-- Two files are compared when both are surveyed, the old one first. -/
theorem compare_eq (tree : FileTree) (settings : Settings) (a b : Path) :
    tree.compare settings a b = (tree.survey settings a).bind fun surveyA =>
      (tree.survey settings b).map (FileReport.ofSurveys surveyA) := by
  unfold compare
  cases tree.survey settings a with
  | error failure => rfl
  | ok surveyA => cases tree.survey settings b <;> rfl

/-- The run that compares the files at a path below two directories and no others. -/
def runAlone (tree : FileTree) (settings : Settings) (a b : Path) (relative : List String) :
    RunLog :=
  (Command.mk (a.join relative) (b.join relative) settings .unset false).runPair tree

end FileTree

namespace TreeReport

/-- What the report on two directories tells of the source files below them. -/
structure Accounts (tree : FileTree) (settings : Settings) (names : SourceNames) (a b : Path)
    (report : TreeReport) : Prop where
  /-- The paths visited are those of the source files below either directory. -/
  visited : ∀ relative, relative ∈ (tree.visits settings names a b).map (·.relative) ↔
    (∃ name, relative.getLast? = some name ∧ names.accepts name = true) ∧
      (tree.StandsBelow a relative ∨ tree.StandsBelow b relative)
  /-- They are visited once each and in order. -/
  ascending : ((tree.visits settings names a b).map (·.relative)).Pairwise fun first second =>
    Path.partsLE first second = true ∧ first ≠ second
  /-- The two files at such a path give a report alone, or they fail alone. -/
  settled : ∀ relative ∈ (tree.visits settings names a b).map (·.relative),
    (tree.runAlone settings a b relative).ending = .exit 0 ∨
      (tree.runAlone settings a b relative).ending = .exit 1
  /-- The reports are those that the files give alone, in the order of the visits. -/
  pairs : List.Forall₂ (fun relative file =>
      (tree.runAlone settings a b relative).report = some (.pair file) ∧
        file.pathA = (a.join relative).text ∧ file.pathB = (b.join relative).text)
    (((tree.visits settings names a b).map (·.relative)).filter fun relative =>
      (tree.runAlone settings a b relative).ending = .exit 0) report.pairs
  /-- The failures are those of the files that fail alone, in the order of the visits. -/
  failures : List.Forall₂ (fun relative failure =>
      (tree.runAlone settings a b relative).lines = ["ERROR: " ++ failure.error] ∧
        failure.pathA = (a.join relative).text ∧ failure.pathB = (b.join relative).text)
    (((tree.visits settings names a b).map (·.relative)).filter fun relative =>
      (tree.runAlone settings a b relative).ending = .exit 1) report.failures
  /-- Other files have no part in what two files give. -/
  isolated : ∀ (relative : List String) (other : FileTree),
    other.read (a.join relative) = tree.read (a.join relative) →
    other.read (b.join relative) = tree.read (b.join relative) →
    other.runAlone settings a b relative = tree.runAlone settings a b relative

end TreeReport

namespace Command

variable {tree : FileTree} {environment : Environment} {words : List String} {command : Command}

end Command

namespace FileTree

end FileTree

end CDelta
