import LetCalc.Command

/-!
# The executable

The command in the world of the system.  The outputs are written when it is done.
-/

namespace LetCalc.Command

/-- All that is left of a stream. -/
partial def readToEnd (stream : IO.FS.Stream) (before : ByteArray) : IO ByteArray := do
  let chunk ← stream.read 65536
  if chunk.isEmpty then return before
  readToEnd stream (before ++ chunk)

/-- The fault that an error of the system stands for. -/
def ReadFault.ofError : IO.Error → ReadFault
  | .noFileOrDirectory .. => .notFound
  -- A folder can be opened but not read; a path behind a file cannot even be opened.
  | .inappropriateType none .. => .isFolder
  | .inappropriateType (some _) .. => .notFolder
  -- The system gives this fault the number 36, with either sign.
  | .invalidArgument (some _) code reason =>
    if code = 36 ∨ code = 0 - 36 then .tooLong else .other reason
  | e => .other (toString e)

/-- Bytes from the system, or why there are none. -/
def attempt (read : IO ByteArray) : IO (Except ReadFault ByteArray) := do
  try
    return .ok (← read)
  catch e =>
    return .error (.ofError e)

/-- The standard input and the files of the system. -/
def system : World IO where
  stdin := attempt do readToEnd (← IO.getStdin) .empty
  file path := attempt (IO.FS.readBinFile path)

/-- The name that the command was started by, as far as the system tells: the path of the
executable. -/
def commandName : IO String := do
  try
    return toString (← IO.appPath)
  catch _ =>
    return "mfl"

end LetCalc.Command

open LetCalc.Command in
/-- Runs the command on its arguments. -/
def main (args : List String) : IO UInt32 := do
  let report ← execute ((← commandName) :: args) system
  IO.print report.stdout
  IO.eprint report.stderr
  return report.exitCode
