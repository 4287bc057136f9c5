import CDelta.Run
import CDelta.Text.Timestamp
import Std.Time.DateTime.Timestamp

/-! # The command

Reads the files that a command line names into a file tree, runs the command in it, prints
what it has to say and writes the report it has made.
-/

namespace CDelta.Main

/-- The name of a place in the file tree for the system. -/
def systemName : Location → String
  | [] => "."
  | "/" :: rest => "/" ++ "/".intercalate rest
  | place => "/".intercalate place

/-- Reads the file at a place. -/
def readFile (place : Location) : IO Content := do
  return .bytes (← IO.FS.readBinFile (systemName place)).toList

/-- Reads all that lies below a directory into the tree. -/
partial def readBelow (tree : FileTree) (place : Location) : IO FileTree := do
  let mut tree := tree
  for entry in ← ((← IO.currentDir) / systemName place).readDir do
    let inner := place ++ [entry.fileName]
    if ← entry.path.isDir then
      tree ← readBelow { tree with directories := inner :: tree.directories } inner
    else
      tree := { tree with files := (inner, ← readFile inner) :: tree.files }
  return tree

/-- Reads what a path leads through, and the file it leads to, into the tree. -/
def readAlong (tree : FileTree) (path : Path) : IO (FileTree × Location) := do
  let mut place := FileTree.origin path
  let mut tree := tree
  unless tree.hasDirectory place do
    tree := { tree with directories := place :: tree.directories }
  for part in path.parts do
    place := FileTree.next place part
    let system := (← IO.currentDir) / systemName place
    if ← system.isDir then
      unless tree.hasDirectory place do
        tree := { tree with directories := place :: tree.directories }
    else if ← system.pathExists then
      if (tree.content? place).isNone then
        tree := { tree with files := (place, ← readFile place) :: tree.files }
  return (tree, place)

/-- Reads an input into the tree, with all that lies below it if it is a directory. -/
def readInput (tree : FileTree) (path : Path) : IO FileTree := do
  let (tree, place) ← readAlong tree path
  if tree.hasDirectory place then readBelow tree place else return tree

/-- The variables that the command knows. -/
def readEnvironment : IO Environment := do
  let names := ["ADIFF_SHOW_ALL", "ADIFF_BODY_ONLY", "ADIFF_NESTED_COMMENTS",
    "ADIFF_CHOICE_LIMIT", "ADIFF_LOG_LEVEL"]
  names.filterMapM fun name => do
    return (← IO.getEnv name).map fun value => (name, value)

/-- The files that a command line names. -/
def readTree (words : List String) : IO FileTree := do
  let (tree, _) ← readAlong .empty Command.assignmentsPath
  match Invocation.ofWords words with
  | .error _ => return tree
  | .ok invocation =>
    let mut tree := tree
    if let some report := invocation.report.value? then
      tree := (← readAlong tree (Path.ofText report)).1
    for input in invocation.inputs.filterMap Argument.value? do
      tree ← readInput tree (Path.ofText input)
    return tree

/-- The present time. -/
def now : IO String := do
  let micros := (← Std.Time.Timestamp.now).toNanosecondsSinceUnixEpoch.val.toNat / 1000
  return Text.timestamp (micros / 1000000) (micros % 1000000)

/-- Writes the reports of a tree. -/
def writeReports (tree : FileTree) : IO Unit := do
  for (place, content) in tree.files do
    if let .report _ _ := content then
      IO.FS.createDirAll (systemName place.dropLast)
      IO.FS.writeBinFile (systemName place) (ByteArray.mk content.toBytes.toArray)

end CDelta.Main

/-- Runs the command and exits with its code. -/
def main (words : List String) : IO UInt32 := do
  let tree ← CDelta.Main.readTree words
  let environment ← CDelta.Main.readEnvironment
  let result := CDelta.Command.execute tree environment (← CDelta.Main.now) words
  IO.print result.output
  IO.eprint result.errors
  match result.ending with
  | .exit code =>
    CDelta.Main.writeReports result.tree
    return code.toUInt32
  | .broken fault =>
    IO.eprintln ("adiff: " ++ fault.message)
    return 1
