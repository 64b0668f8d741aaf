import ContextFree.Command.Run
import Std.Time.DateTime.Timestamp

/-! # The program

The command in the surroundings of a process: its files, its standard output for what is
printed, its standard error for what is reported, and its clock.
-/

namespace ContextFree

open Command (FileFault Host Outcome)

/-- The fault that an error of the file system stands for. -/
def fileFault (path : String) : IO.Error → FileFault
  | .noFileOrDirectory .. => .absent path
  | .inappropriateType _ code _ =>
    if code = 20 || code = -20 then .throughFile path else .directory path
  | e => ⟨5, toString e, path⟩

/-- A file operation that gives its fault as a value. -/
def attempt {α : Type} (path : String) (action : IO α) : IO (Except FileFault α) := do
  try
    return .ok (← action)
  catch e =>
    return .error (fileFault path e)

instance : Host IO where
  readFile path := attempt path (IO.FS.readFile path)
  createFile path := attempt path (IO.FS.writeFile path "")
  appendFile path text := IO.FS.withFile path .append fun handle => handle.putStr text
  print text := IO.print text
  report message := IO.eprintln message
  now := do
    let moment ← Std.Time.Timestamp.now
    return ⟨moment.toNanosecondsSinceUnixEpoch.val / 1000⟩

end ContextFree

/-- Runs the command with the arguments of the process. -/
def main (args : List String) : IO UInt32 := do
  let outcome ← ContextFree.Command.run args
  match outcome with
  | .misused cause =>
    IO.eprintln (ContextFree.Command.complaint cause)
  | .broken cause => IO.eprintln cause.message
  | _ => pure ()
  return outcome.status.toUInt32
