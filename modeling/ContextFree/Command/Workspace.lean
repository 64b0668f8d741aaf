import ContextFree.Command.Host
import ContextFree.Text.Blank
import Std.Data.ExtTreeMap

/-! # A directory as surroundings of the command

A single directory without subdirectories, together with everything that was printed and
reported, and a clock that stands still.
-/

namespace ContextFree.Command

/-- The files of a directory and the outputs of the command. -/
structure Workspace where
  files : Std.ExtTreeMap String String := ∅
  printed : String := ""
  reported : List String := []
  clock : Event.Stamp := ⟨0⟩

namespace Workspace

/-- The steps of a path. -/
def steps (path : String) : List String :=
  (Text.pieces (· = '/') path.toList).map String.ofList

/-- Whether a step of a path leads nowhere. -/
def isIdle (step : String) : Bool :=
  step = "" || step = "."

/-- The name of the file to which a path leads, or why it leads to none: it is empty, leads to
a directory or beyond a file, or goes by way of a directory that does not exist. -/
def locate (w : Workspace) (path : String) : Except FileFault String :=
  let steps := steps path
  let missing := FileFault.absent path
  let beyond (name : String) := if w.files.contains name then .throughFile path else missing
  if path.isEmpty then .error missing
  else match steps.filter fun step => !isIdle step with
    | [] => .error (.directory path)
    | name :: rest =>
      if name = ".." && rest.all (· = "..") then .error (.directory path)
      else if steps.head? = some "" then .error missing
      else if rest.isEmpty && !(steps.getLast?.any isIdle) then .ok name
      else .error (beyond name)

/-- The text of the file at a path. -/
def read (w : Workspace) (path : String) : Except FileFault String := do
  let name ← w.locate path
  (w.files[name]?).elim (.error (.absent path)) .ok

/-- Whether a path is that of a file of the directory but for slashes at its end. -/
def isSlashed (w : Workspace) (path : String) : Bool :=
  let plain := String.ofList (path.toList.reverse.dropWhile (· = '/')).reverse
  plain ≠ path && (w.locate plain).isOk

/-- Puts an empty file at a path. No file can be put where slashes ask for a directory. -/
def create (w : Workspace) (path : String) : Except FileFault Unit × Workspace :=
  match w.locate path with
  | .error fault => (.error (if w.isSlashed path then .directory path else fault), w)
  | .ok name => (.ok (), { w with files := w.files.insert name "" })

/-- Adds a text to the end of the file at a path. -/
def append (w : Workspace) (path text : String) : Workspace :=
  match w.locate path with
  | .error _ => w
  | .ok name => { w with files := w.files.modify name (· ++ text) }

instance : Host (StateM Workspace) where
  readFile path := return (← get).read path
  createFile path := modifyGet fun w => w.create path
  appendFile path text := modify fun w => w.append path text
  print text := modify fun w => { w with printed := w.printed ++ text }
  report message := modify fun w => { w with reported := w.reported ++ [message] }
  now := return (← get).clock

end Workspace

end ContextFree.Command
