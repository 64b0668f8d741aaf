import ContextFree.Event.Record
import ContextFree.Grammar.Layout
import ContextFree.Normalization.Stage

/-! # Running the conversion

A run of the conversion leaves one record for each stage. What is reported, shown and logged
about the conversion is read off these records.
-/

namespace ContextFree.Normalization

open Event (Value Record)

/-- The names of the symbols of a set. -/
def nameData (symbols : SymbolSet) : Value :=
  .texts (Symbol.names symbols.toList)

/-- The names of each head and of every other symbol of its unit closure, in ascending
order. -/
def unitPairs (closures : UnitClosures) : List (List Name) :=
  arrangeBy id (closures.flatMap fun (X, closure) =>
    (closure.toList.filter (· ≠ X)).map fun Y => [X.name, Y.name])

/-- What a stage did, as structured data. -/
def Details.data : Details → List (String × Value)
  | nullable heads => [("nullable", nameData heads)]
  | closures units => [("unit_pairs", .array ((unitPairs units).map .texts))]
  | removed heads => [("removed", nameData heads)]
  | trimmed dead stranded => [("removed", nameData dead), ("unreachable", nameData stranded)]
  | minted wrappers chains =>
    [("terminal_wrappers", .object (wrappers.toList.map fun (a, T) => (a, .text T))),
      ("chain_nonterminals", .texts chains)]

/-- A stage that was run: what it did, the checkpoints on its way, and the grammar it
left. -/
structure Passage where
  stage : Stage
  details : Details
  checkpoints : List Checkpoint
  grammar : Grammar

namespace Passage

/-- The number of heads after the stage. -/
def nonterminals (p : Passage) : Nat :=
  p.grammar.productions.size

/-- The number of rules after the stage. -/
def rules (p : Passage) : Nat :=
  p.grammar.size

/-- The message about the stage. -/
def message (p : Passage) : String :=
  p.stage.name ++ ": " ++ toString p.nonterminals ++ " nonterminals, " ++
    toString p.rules ++ " rules"

/-- The event that follows the stage. -/
def event (p : Passage) : Record :=
  .ofGrammar "stage" p.grammar (("name", .text p.stage.name) :: p.details.data)

/-- All checkpoints of the stage, the last one at its end. -/
def shown (p : Passage) : List Checkpoint :=
  p.checkpoints ++ [⟨p.stage.title, p.grammar⟩]

end Passage

/-- Runs one stage. -/
def pass (stage : Stage) : Transform Passage := do
  let (details, checkpoints) ← stage.run
  return { stage, details, checkpoints, grammar := ← Transform.current }

/-- Converts the grammar to Chomsky Normal Form. -/
def normalize : Transform (List Passage) :=
  Stage.all.mapM pass

/-- The event that precedes the stages. -/
def startEvent (g : Grammar) : Record :=
  .ofGrammar "start" g []

/-- The events of a conversion that starts with the given grammar. -/
def events (g : Grammar) (passages : List Passage) : List Record :=
  startEvent g :: passages.map Passage.event

/-- What is printed in the course of a conversion. -/
def printed (passages : List Passage) : String :=
  String.join ((passages.flatMap Passage.shown).map fun c => c.grammar.titled c.title)

end ContextFree.Normalization
