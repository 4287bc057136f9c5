import CDelta.FileFault
import CDelta.Report.Run
import CDelta.Text.Utf8

/-! # File trees

A file tree is what a run sees of the files around it: directories, and files with their
contents. Places in the tree are lists of names from the working directory on. A path is
followed part by part, and every part but the last has to lead into a directory. Names and
paths may not be too long.
-/

namespace CDelta

/-- The names that lead to a place from the working directory. What lies above it is found
under the name `..`, and what a path from a root names, under the name `/`. -/
abbrev Location := List String

/-- What a file holds. -/
inductive Content where
  | bytes (data : Bytes)
  | report (time : String) (report : RunReport)
deriving DecidableEq, Repr

namespace Content

/-- The bytes of a file. -/
def toBytes : Content → Bytes
  | bytes data => data
  | report time run => Text.Utf8.encode (Document.ofReport time run)

end Content

/-- Directories and files. The working directory is always there and not listed. -/
structure FileTree where
  directories : List Location
  files : List (Location × Content)
deriving DecidableEq, Repr

namespace FileTree

/-- An empty working directory. -/
def empty : FileTree := ⟨[], []⟩

/-- A directory stands at the place. -/
def hasDirectory (tree : FileTree) (place : Location) : Bool :=
  place.isEmpty || tree.directories.contains place

/-- The content of the file at a place. -/
def content? (tree : FileTree) (place : Location) : Option Content :=
  tree.files.lookup place

/-- The place above. -/
def above (place : Location) : Location :=
  if place = ["/"] then place
  else if place.isEmpty || place.getLast? = some ".." then place ++ [".."]
  else place.dropLast

/-- The place that one part of a path leads to. -/
def next (place : Location) (part : String) : Location :=
  if part = ".." then above place else place ++ [part]

/-- The place that a path starts from. -/
def origin (path : Path) : Location :=
  if path.root = "" then [] else ["/"]

/-- The most bytes that a name can have. -/
def nameLimit : Nat := 255

/-- The most bytes that a path can have. -/
def pathLimit : Nat := 4095

/-- A name has too many bytes. -/
def isLongName (name : String) : Bool :=
  nameLimit < name.utf8ByteSize

/-- A path as a whole has too many bytes. -/
def isLongPath (path : Path) : Bool :=
  pathLimit < path.text.utf8ByteSize

/-- A path holds a null character. -/
def isUnnameable (path : Path) : Bool :=
  path.text.toList.contains '\x00'

/-- The place that parts lead to. All but the last lead into directories; nothing is said
of what stands at the end. -/
def follow (tree : FileTree) : Location → List String → Except FileFault Location
  | place, [] => .ok place
  | place, part :: rest =>
    if tree.hasDirectory place then
      if isLongName part then .error .tooLong else tree.follow (next place part) rest
    else if (tree.content? place).isSome then .error .notDirectory
    else .error .missing

/-- The place that a path leads to. -/
def locate (tree : FileTree) (path : Path) : Except FileFault Location :=
  if isUnnameable path then .error .unnameable
  else if isLongPath path then .error .tooLong
  else tree.follow (origin path) path.parts

/-- A directory stands at the end of a path. -/
def isDirectory (tree : FileTree) (path : Path) : Bool :=
  match tree.locate path with
  | .ok place => tree.hasDirectory place
  | .error _ => false

/-- The content of the file at the end of a path. -/
def fetch (tree : FileTree) (path : Path) : Except FileFault Content := do
  let place ← tree.locate path
  if tree.hasDirectory place then throw .isDirectory
  match tree.content? place with
  | some content => return content
  | none => throw .missing

/-- The bytes of the file at the end of a path. -/
def read (tree : FileTree) (path : Path) : Except FileFault Bytes :=
  (tree.fetch path).map (·.toBytes)

/-- Something stands at the end of a path. There is no answer for a path that is too long. -/
def holds (tree : FileTree) (path : Path) : Except FileFault Bool :=
  match tree.locate path with
  | .ok place => .ok (tree.hasDirectory place || (tree.content? place).isSome)
  | .error .tooLong => .error .tooLong
  | .error _ => .ok false

/-- The report that was written to a path. -/
def report (tree : FileTree) (path : Path) : Except FileFault RunReport := do
  match ← tree.fetch path with
  | .report _ report => return report
  | .bytes _ => throw .missing

/-- Makes the directories that the parts of a path lead through, from a place on, as far as
it can be done. Directories that stand there already are used, but for the last one when it
has to be `new`. As long as none has been made (`made`), a fault is one of the whole path;
from then on the directories are made one by one, and it is one of the parts `passed`. A
file in the way is taken for the directory asked for when it stands at the end, or behind a
directory that had to be made. -/
def makeAlong (tree : FileTree) (path : Path) (new made : Bool) (place : Location)
    (passed : List String) : List String → FileTree × Except FileError Location
  | [] => (tree, .ok place)
  | part :: rest =>
    let place := next place part
    let passed := passed ++ [part]
    let asked : Path := if made then { path with parts := passed } else path
    if isLongName part then (tree, .error ⟨.tooLong, asked⟩)
    else if tree.hasDirectory place then
      if new && rest.isEmpty then (tree, .error ⟨.taken, asked⟩)
      else tree.makeAlong path new made place passed rest
    else if (tree.content? place).isSome then
      (tree, .error ⟨if made || rest.isEmpty then .taken else .notDirectory, asked⟩)
    else
      let tree := { tree with directories := place :: tree.directories }
      tree.makeAlong path new true place passed rest

/-- Makes the directory of a path, and those above it. It may stand there already unless it
has to be `new`. -/
def makeDirectory (tree : FileTree) (new : Bool) (path : Path) :
    FileTree × Except FileError Location :=
  if isUnnameable path then (tree, .error ⟨.unnameable, path⟩)
  else if isLongPath path then (tree, .error ⟨.tooLong, path⟩)
  else if new && path.parts.isEmpty then (tree, .error ⟨.taken, path⟩)
  else tree.makeAlong path new false (origin path) [] path.parts

/-- Puts a file at a place. -/
def put (tree : FileTree) (place : Location) (content : Content) : FileTree :=
  { tree with files := (place, content) :: tree.files.filter fun (other, _) => other ≠ place }

/-- Writes a file, and makes the directories above it. They stay even when the file cannot
be written. -/
def write (tree : FileTree) (path : Path) (content : Content) :
    FileTree × Except FileError Unit :=
  let (tree, result) := tree.makeDirectory false path.parent
  match result, path.parts.getLast? with
  | .error error, _ => (tree, .error error)
  | .ok _, none => (tree, .error ⟨.isDirectory, path⟩)
  | .ok above, some name =>
    let place := next above name
    if isUnnameable path then (tree, .error ⟨.unnameable, path⟩)
    else if isLongName name || isLongPath path then (tree, .error ⟨.tooLong, path⟩)
    else if name = ".." || tree.hasDirectory place then (tree, .error ⟨.isDirectory, path⟩)
    else (tree.put place content, .ok ())

/-- Removes a file. -/
def remove (tree : FileTree) (path : Path) : Except FileFault FileTree := do
  let place ← tree.locate path
  discard (tree.fetch path)
  return { tree with files := tree.files.filter fun (other, _) => other ≠ place }

/-- Why the files below some paths cannot be listed. Only paths that cannot be named stand
in the way; below others that lead to no directory there is nothing. -/
def listingError? (paths : List Path) : Option FileError :=
  (paths.find? isUnnameable).map fun path => ⟨.unnameable, path⟩

/-- The files below the end of a path, each by the names that lead to it from there. -/
def below (tree : FileTree) (path : Path) : List (List String) :=
  match tree.locate path with
  | .error _ => []
  | .ok place =>
    if tree.hasDirectory place then
      tree.files.filterMap fun (other, _) =>
        if place.isPrefixOf other then some (other.drop place.length) else none
    else []

end FileTree

end CDelta
