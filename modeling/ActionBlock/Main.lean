import ActionBlock.CommandLine.Report

/-!
# The program

Reads the arguments and the file, and writes the report.
-/

namespace ActionBlock.CommandLine

/-- The bytes of a text. -/
def bytesOf (t : Text) : ByteArray := ⟨(t.flatMap Utf8.encodeScalar).toArray⟩

/-- The data of a file. -/
def fetch (path : Text) : IO (Except FileError Bytes) := do
  match String.fromUTF8? (bytesOf path) with
  | none => return .error (.notFound path)
  | some name =>
    try
      let data ← IO.FS.readBinFile name
      return .ok data.toList
    catch
      | .inappropriateType _ 21 _ => return .error (.isAFolder path)
      | .inappropriateType .. => return .error (.notAFolder path)
      | .permissionDenied .. => return .error (.notPermitted path)
      | _ => return .error (.notFound path)

/-- Runs the command on files of the system. -/
def perform (arguments : List Text) : IO Report := do
  match parse arguments with
  | .error e => return failure [] e.message
  | .ok call => return report call (← fetch call.file)

end ActionBlock.CommandLine

open ActionBlock in
/-- The program. -/
def main (arguments : List String) : IO UInt32 := do
  let report ← CommandLine.perform (arguments.map Text.ofString)
  (← IO.getStdout).write (CommandLine.bytesOf report.out)
  (← IO.getStderr).write (CommandLine.bytesOf report.err)
  return UInt32.ofNat report.status
