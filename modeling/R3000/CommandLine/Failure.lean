import R3000.Text.Quoted

/-!
# Failures of the command line
-/

namespace R3000

inductive FileError
  | notFound
  | isDirectory
  /-- A file stands where the path goes on. -/
  | notDirectory
  | nameTooLong
  | denied
  | notText
deriving DecidableEq, Repr

inductive Failure
  | invalid (message : String)
  | file (e : FileError)
  | usage
deriving DecidableEq, Repr

def record (name : String) (fields : List (String × String)) : String :=
  name ++ " \x7b " ++ String.intercalate ", " (fields.map fun (k, v) => k ++ ": " ++ v) ++ " \x7d"

def systemError (code kind message : String) : String :=
  record "Os" [("code", code), ("kind", kind), ("message", Text.quoted message)]

def FileError.text : FileError → String
  | .notFound => systemError "2" "NotFound" "No such file or directory"
  | .isDirectory => systemError "21" "IsADirectory" "Is a directory"
  | .notDirectory => systemError "20" "NotADirectory" "Not a directory"
  | .nameTooLong => systemError "36" "InvalidFilename" "File name too long"
  | .denied => systemError "13" "PermissionDenied" "Permission denied"
  | .notText =>
    record "Error" [("kind", "InvalidData"),
      ("message", Text.quoted "stream did not contain valid UTF-8")]

def Failure.text : Failure → String
  | .invalid message =>
    "Error: " ++ record "Custom" [("kind", "InvalidInput"), ("error", Text.quoted message)]
  | .file e => "Error: " ++ e.text
  | .usage =>
    "Usage: otomips <image> [--bios <file>] [--exe] [--load <addr>] [--cycles N] [--no-jit] " ++
      "[--config <file.json>] [--break <addr>]"

end R3000
