import R3000.CommandLine.Failure
import R3000.Memory.Width

/-!
# Folders

A path is followed name by name from the folder that it is read in.  Of what lies outside the
folder no file is known.
-/

namespace R3000

/-- The files of a folder by name.  A file hides an earlier one of the same name. -/
structure Folder where
  files : List (String × Bytes)

namespace Folder

def pathLimit : Nat := 4096

def nameLimit : Nat := 255

def file? (f : Folder) (name : String) : Option Bytes :=
  f.files.reverse.lookup name

/-- Follow the names of a path from the folder, or from somewhere outside it.  Where the names end
without a file there is a directory. -/
def follow (f : Folder) (outside : Bool) : List String → Except FileError Bytes
  | [] => .error .isDirectory
  | name :: rest =>
    if name = "" ∨ name = "." then f.follow outside rest
    else if name = ".." then f.follow true rest
    else if nameLimit < name.utf8ByteSize then .error .nameTooLong
    else
      match if outside then none else f.file? name with
      | none => .error .notFound
      | some data => if rest.isEmpty then .ok data else .error .notDirectory

def read (f : Folder) (path : String) : Except FileError Bytes :=
  if path.isEmpty then .error .notFound
  else if pathLimit ≤ path.utf8ByteSize then .error .nameTooLong
  else
    let names := path.splitOn "/"
    f.follow (names.head? = some "") names

end Folder

end R3000
