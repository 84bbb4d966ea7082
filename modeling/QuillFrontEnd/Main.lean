import QuillFrontEnd.Command

/-!
# The command line

Reads the files that a command line names, runs it, and writes what it gives to the two outputs.
-/

namespace QuillFrontEnd.Command

/-- The number of an error, which may be given with either sign. -/
def errorNumber (code : UInt32) : Nat := min code.toNat (-code).toNat

/-- The reason why a file could not be read. Of the errors of one class the number of the error tells them apart. -/
def readErrorOf : IO.Error → ReadError
  | .noFileOrDirectory .. => .notFound
  | .permissionDenied .. => .permissionDenied
  | .inappropriateType _ code _ => if errorNumber code = 20 then .notDirectory else .isDirectory
  | e@(.invalidArgument _ code _) => if errorNumber code = 36 then .nameTooLong else .other (toString e)
  | e => .other (toString e)

/-- Reads the file at a path, or finds out why it cannot be read. -/
def readFile (path : String) : IO (Except ReadError ByteArray) := do
  if path.isEmpty then return .error .notFound
  try
    return .ok (← IO.FS.readBinFile path)
  catch e =>
    return .error (readErrorOf e)

/-- The surroundings of a command line that may read the given files. -/
def findSurroundings (paths : List String) : IO Surroundings := do
  let contents ← paths.mapM fun path => do return (path, ← readFile path)
  return {
    read := fun path => ((contents.find? fun c => c.1 == path).map (·.2)).getD (.error .notFound)
    terminal := ← (← IO.getStderr).isTty
    noColor := ← IO.getEnv "NO_COLOR" }

end QuillFrontEnd.Command

open QuillFrontEnd.Command in
/-- Runs the command line with the given arguments. -/
def main (arguments : List String) : IO UInt32 := do
  let paths := match Request.ofArguments arguments with
    | .ok request => request.files
    | .error _ => []
  let transcript := run (← findSurroundings paths) arguments
  IO.print transcript.output
  IO.eprint transcript.errors
  return transcript.code.toUInt32
