import CDelta.Path
import CDelta.Text.Quoted

/-! # File faults

What can be wrong with the file or directory at a path. A fault has the number and the wording
that the system gives it, and a message says which path it was met at.
-/

namespace CDelta

/-- Why a path cannot be used as asked. -/
inductive FileFault where
  /-- Nothing stands there. -/
  | missing
  /-- Something stands where a directory should be made. -/
  | taken
  /-- A file stands where a directory should. -/
  | notDirectory
  /-- A directory stands where a file should. -/
  | isDirectory
  /-- The path, or a name in it, is too long. -/
  | tooLong
  /-- The path holds a null character, which no name can hold. -/
  | unnameable
deriving DecidableEq, Repr

namespace FileFault

/-- The wording of a fault. -/
def cause : FileFault → String
  | missing => "[Errno 2] No such file or directory"
  | taken => "[Errno 17] File exists"
  | notDirectory => "[Errno 20] Not a directory"
  | isDirectory => "[Errno 21] Is a directory"
  | tooLong => "[Errno 36] File name too long"
  | unnameable => "embedded null byte"

end FileFault

/-- A fault and the path it was met at. -/
structure FileError where
  fault : FileFault
  path : Path
deriving DecidableEq, Repr

namespace FileError

/-- The wording of an error. A path that cannot be named is not shown. -/
def message (error : FileError) : String :=
  let cause := error.fault.cause
  let shown := Text.quoted error.path.text
  if error.fault = .unnameable then cause else s!"{cause}: {shown}"

end FileError

end CDelta
