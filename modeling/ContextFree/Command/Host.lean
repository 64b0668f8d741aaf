import ContextFree.Event.Stamp
import ContextFree.Text.Quoted

/-! # What the command needs from its surroundings

The command reads and writes files, prints, reports and asks for the time. It is written for
any surroundings that offer these.
-/

namespace ContextFree.Command

/-- Why a file cannot be opened. -/
structure FileFault where
  code : Nat
  reason : String
  path : String
  deriving DecidableEq, Repr

namespace FileFault

/-- There is no such file. -/
def absent (path : String) : FileFault :=
  ⟨2, "No such file or directory", path⟩

/-- The path leads through a file as if it were a directory. -/
def throughFile (path : String) : FileFault :=
  ⟨20, "Not a directory", path⟩

/-- The path names a directory. -/
def directory (path : String) : FileFault :=
  ⟨21, "Is a directory", path⟩

/-- The wording of a fault. -/
def message (f : FileFault) : String :=
  "[Errno " ++ toString f.code ++ "] " ++ f.reason ++ ": " ++ Text.quote f.path

end FileFault

/-- Surroundings in which the command can run. -/
class Host (m : Type → Type) where
  /-- The text of a file. -/
  readFile : String → m (Except FileFault String)
  /-- Makes a file empty. -/
  createFile : String → m (Except FileFault Unit)
  /-- Adds to the end of a file that was created. -/
  appendFile : String → String → m Unit
  /-- Prints a text. -/
  print : String → m Unit
  /-- Reports a message. -/
  report : String → m Unit
  /-- The present moment. -/
  now : m Event.Stamp

end ContextFree.Command
