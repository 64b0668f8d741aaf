import ContextFree.Command.Host
import ContextFree.Command.Usage
import ContextFree.Listing.Reader
import ContextFree.Listing.Writer
import ContextFree.NormalForm
import ContextFree.Normalization.Run
import ContextFree.Sample

/-! # Running the command

The command reads a grammar, or takes the sample grammar, converts it to Chomsky Normal Form
and prints it after each step. On request it writes the result and the events of the
conversion to files. A setting that is given without a value is no fault until it is used, and
then it breaks the run.
-/

namespace ContextFree.Command

/-- How a run ends. -/
inductive Outcome where
  /-- All was done. -/
  | done
  /-- Something that was asked for could not be done; it was reported. -/
  | failed
  /-- The arguments make no sense. -/
  | misused (cause : Misuse)
  /-- The run broke down, or the result is not in normal form. -/
  | broken (cause : Fault)
  deriving DecidableEq, Repr

/-- The exit status of an outcome. -/
def Outcome.status : Outcome → Nat
  | done => 0
  | failed => 1
  | misused _ => 2
  | broken _ => 1

variable {m : Type → Type} [Monad m] [Host m]

/-- A run that may end early. -/
abbrev Run (m : Type → Type) := ExceptT Outcome m

/-- Does something in the surroundings. -/
def perform {α : Type} (action : m α) : Run m α :=
  ExceptT.lift action

/-- Reports an error and ends the run. -/
def fail {α : Type} (message : String) : Run m α := do
  perform (Host.report ("error: " ++ message))
  throw .failed

/-- Reports a message unless the run is quiet. -/
def inform (o : Options) (message : String) : Run m Unit :=
  unless o.quiet do perform (Host.report message)

/-- Prints the grammar under a title unless the run is quiet. -/
def display (o : Options) (title : String) (g : Grammar) : Run m Unit :=
  unless o.quiet do perform (Host.print (g.titled title))

/-- The result of opening a file, or the end of the run. -/
def opened {α : Type} : Except FileFault α → Run m α
  | .ok value => return value
  | .error fault => fail fault.message

/-- The path that is given, or the end of the run. -/
def named : Given → Run m String
  | .text path => return path
  | .nothing => throw (.broken .pathUnnamed)

/-- What was read, or the end of the run. -/
def loaded {α : Type} : Except Fault α → Run m α
  | .ok value => return value
  | .error fault => if fault.kind = .grammar then fail fault.message else throw (.broken fault)

/-- The grammar to convert. -/
def load (o : Options) : Run m Grammar := do
  match o.input with
  | none =>
    if o.start.isSome then throw (.misused .startWithoutInput)
    loaded sampleGrammar
  | some path =>
    let text ← opened (← perform (Host.readFile path))
    match o.start with
    | none => loaded (Listing.read text none)
    | some (.text start) => loaded (Listing.read text (some start))
    | some .nothing =>
      loaded (Listing.check text)
      throw (.broken .startUnnamed)

/-- The message about the grammar that was read. -/
def loadedMessage (g : Grammar) : String :=
  "read grammar with " ++ toString g.productions.size ++ " nonterminals, " ++
    toString g.terminals.size ++ " terminals and " ++ toString g.size ++ " rules"

/-- Writes an event to the file for events. -/
def logEvent (o : Options) (e : Event.Record) : Run m Unit := do
  if let some given := o.logFile then
    let path ← named given
    let stamp ← perform Host.now
    perform (Host.appendFile path (e.line stamp ++ "\n"))

/-- Reports, logs and shows what a stage did. -/
def follow (o : Options) (p : Normalization.Passage) : Run m Unit := do
  for c in p.checkpoints do
    display o c.title c.grammar
  inform o p.message
  logEvent o p.event
  display o p.stage.title p.grammar

/-- Converts a grammar. -/
def convert (o : Options) (g : Grammar) : Run m Grammar := do
  logEvent o (Normalization.startEvent g)
  let (result, final) := Normalization.normalize.perform { grammar := g }
  match result with
  | .error fault => throw (.broken fault)
  | .ok passages =>
    passages.forM (follow o)
    match final.grammar.checkNormal with
    | .error fault => throw (.broken fault)
    | .ok () => return final.grammar

/-- Writes the final grammar. -/
def save (o : Options) (g : Grammar) : Run m Unit := do
  if let some given := o.output then
    let path ← named given
    opened (← perform (Host.createFile path))
    perform (Host.appendFile path (Listing.write g))
    inform o ("wrote grammar to " ++ path)

/-- Does what the options ask for. -/
def execute (o : Options) : Run m Unit := do
  let g ← load o
  inform o (loadedMessage g)
  display o "Original Grammar" g
  if let some given := o.logFile then
    let path ← named given
    opened (← perform (Host.createFile path))
  save o (← convert o g)

/-- Runs the command with a list of arguments. -/
def run (args : List String) : m Outcome := do
  match Invocation.ofArgs args with
  | .error cause => return .misused cause
  | .ok .help =>
    Host.print usage
    return .done
  | .ok (.conversion o) =>
    match ← (execute o).run with
    | .ok () => return .done
    | .error outcome => return outcome

end ContextFree.Command
