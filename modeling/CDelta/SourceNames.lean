/-! # Names of source files

A file of a directory is a source file by the endings of its name. Some endings rule a file
out whatever else its name ends in.
-/

namespace CDelta

/-- The endings of the names of source files, and those that rule a file out. -/
structure SourceNames where
  suffixes : List String
  excluded : List String
deriving DecidableEq, Repr

namespace SourceNames

/-- The names of C sources, without the intermediate ones. -/
def default : SourceNames := ⟨[".c"], [".int.c"]⟩

/-- The name ends in the suffix. -/
def endsIn (name suffix : String) : Bool :=
  suffix.toList.isSuffixOf name.toList

/-- The name is that of a source file. -/
def accepts (names : SourceNames) (name : String) : Bool :=
  !names.excluded.any (endsIn name) && names.suffixes.any (endsIn name)

end SourceNames

end CDelta
