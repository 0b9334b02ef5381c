/-! Paths of files, as they are written on a command line. -/
namespace QueryBlocks

/-- Why a file could not be read or written. -/
inductive FileError where
  | missing
  /-- A name is looked up in something that is no directory. -/
  | notDirectory
  /-- A directory stands where a file is wanted. -/
  | directory
  | nameTooLong
  /-- Any other reason that the system gives. -/
  | other (reason : String)
deriving DecidableEq, Repr

def FileError.message : FileError → String
  | missing => "No such file or directory (os error 2)"
  | notDirectory => "Not a directory (os error 20)"
  | directory => "Is a directory (os error 21)"
  | nameTooLong => "File name too long (os error 36)"
  | other reason => reason

/-- A path: directories to walk through, and a last name to look up there. -/
structure Path where
  /-- Whether the walk begins at the root, and not at the working directory. -/
  fromRoot : Bool
  folders : List String
  last : String
  /-- Whether a slash ends the path, so that it can only mean a directory. -/
  closed : Bool
deriving DecidableEq, Repr

namespace Path

/-- Bytes that a path may have. -/
def maxSize : Nat := 4095

/-- Bytes that one name of a path may have. -/
def maxNameSize : Nat := 255

/-- Slashes divide names, several like one. The empty path names nothing, and a path of slashes
alone names the root. -/
def read (text : String) : Except FileError Path :=
  let names := (text.splitOn "/").filter (· != "")
  let fromRoot := text.toList.head? == some '/'
  if text.utf8ByteSize > maxSize then .error .nameTooLong
  else
    match names.getLast? with
    | some last => .ok ⟨fromRoot, names.dropLast, last, text.toList.getLast? == some '/'⟩
    | none => if fromRoot then .ok ⟨true, [], ".", true⟩ else .error .missing

end Path

end QueryBlocks
