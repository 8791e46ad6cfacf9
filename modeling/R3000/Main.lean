import R3000.CommandLine.Emulation

/-!
# The command line

Reads the files and variables that the command may ask for, and writes what it says as it runs.
-/

namespace R3000.Command

def readPath (path : String) : IO (Except FileError Bytes) := do
  try
    return .ok (← IO.FS.readBinFile path).data
  catch
    | .noFileOrDirectory .. => return .error .notFound
    | .inappropriateType _ 20 _ => return .error .notDirectory
    | .inappropriateType .. => return .error .isDirectory
    | .invalidArgument _ 36 _ => return .error .nameTooLong
    | .permissionDenied .. => return .error .denied
    | e => throw e

def readHost (o : Options) : IO Host := do
  let files ← o.paths.mapM fun path => return (path, ← readPath path)
  let values ← Config.variableNames.mapM fun name => return (name, ← IO.getEnv name)
  return {
    env := fun name => (values.lookup name).join
    file := fun path => (files.lookup path).getD (.error .notFound) }

def writeBytes (data : Bytes) : IO Unit := do
  let out ← IO.getStdout
  out.write ⟨data⟩
  out.flush

def writeTranscript (t : Transcript) : IO UInt32 := do
  writeBytes t.out
  IO.eprint t.err
  return UInt32.ofNat t.code

partial def emulate (e : Emulation) : IO UInt32 := do
  let (e, output, reason) := e.advance
  writeBytes output
  match reason with
  | none => emulate e
  | some reason => writeTranscript ((e.closing reason).foldl Transcript.say {})

def run (args : List String) : IO UInt32 := do
  let (unknown, options) := Options.read {} args
  let t := Transcript.unknownArguments unknown
  match options with
  | .error e => writeTranscript (t.fail e)
  | .ok o =>
    match (Emulation.prepare o (← readHost o)).run t with
    | (.error e, t) => writeTranscript (t.fail e)
    | (.ok e, t) =>
      discard <| writeTranscript t
      emulate e

end R3000.Command

def main (args : List String) : IO UInt32 :=
  R3000.Command.run args
