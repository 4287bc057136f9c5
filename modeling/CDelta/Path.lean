/-! # Paths

A path is a list of parts. Parts that name the place where they stand are left out, and so
are doubled and trailing slashes; a part that leads upwards stays. A path without parts
names the working directory.
-/

namespace CDelta

/-- The parts of a path, and what stands in front of them when it does not start from the
working directory. -/
structure Path where
  root : String
  parts : List String
deriving DecidableEq, Repr

namespace Path

/-- What a path starts with: nothing, or one slash for any number of them but two. -/
def rootOf (text : String) : String :=
  match (text.toList.takeWhile (· = '/')).length with
  | 0 => ""
  | 2 => "//"
  | _ => "/"

/-- The path that a text spells. -/
def ofText (text : String) : Path :=
  ⟨rootOf text, (text.splitOn "/").filter fun part => part ≠ "" && part ≠ "."⟩

/-- The path of some parts below the working directory. -/
def ofParts (parts : List String) : Path := ⟨"", parts⟩

/-- The text of a path. -/
def text (path : Path) : String :=
  if path.root = "" && path.parts.isEmpty then "."
  else path.root ++ "/".intercalate path.parts

/-- The path with further parts. -/
def join (path : Path) (parts : List String) : Path :=
  { path with parts := path.parts ++ parts }

/-- The path without its last part. -/
def parent (path : Path) : Path :=
  { path with parts := path.parts.dropLast }

/-- The order of parts: by the first part that differs, as text, and a beginning before
what it begins. -/
def partsLE : List String → List String → Bool
  | [], _ => true
  | _ :: _, [] => false
  | a :: as, b :: bs => a < b || (a = b && partsLE as bs)

end Path

end CDelta
