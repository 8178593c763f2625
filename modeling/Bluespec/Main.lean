import Bluespec.Command

/-!
# The program

Runs the command on the file system.
-/

namespace Bluespec

/-- Why the system refused to hand out a file.  A folder is refused when it is read, with a code of its own. -/
def ReadError.ofSystem : IO.Error → ReadError
  | .noFileOrDirectory .. => .notFound
  | .inappropriateType _ code _ => if code = 21 then .isFolder else .notFolder
  | e => .other (toString e)

/-- Reads a file as text. -/
def readFile (path : String) : IO (Except ReadError String) := do
  match ← (IO.FS.readBinFile path).toBaseIO with
  | .ok bytes => return decodeText bytes
  | .error e => return .error (.ofSystem e)

end Bluespec

/-- Runs the command and writes its report. -/
def main (args : List String) : IO UInt32 := do
  let report ← Bluespec.Command.run Bluespec.readFile args
  (← IO.getStdout).putStr report.output
  (← IO.getStderr).putStr report.errors
  return report.outcome.code.toUInt32
