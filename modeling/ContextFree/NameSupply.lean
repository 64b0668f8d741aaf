import ContextFree.Grammar.Revision

/-! # Minting nonterminals

New nonterminals take the first name of a numbered series that no symbol of the grammar
uses. The names of a series differ from each other, so among as many of them as the grammar
has symbols, and one more, there is a free one.
-/

namespace ContextFree

namespace Grammar

/-- The number of symbols of the grammar. -/
def symbolCount (g : Grammar) : Nat :=
  g.productions.size + g.terminals.size

/-- The first index from `index` on whose name is free, when at most `tries` indices are
passed over. -/
def firstFree (g : Grammar) (series : Nat → Name) : (tries index : Nat) → Nat
  | 0, index => index
  | tries + 1, index =>
    if g.uses (series index) then firstFree g series tries (index + 1) else index

end Grammar

/-- How new nonterminals are named: those that stand for a terminal are named after it, and
those that link the parts of a long rule are counted. -/
structure NameSupply where
  chainPrefix : String := "X"
  terminalPrefix : String := "T_"
  /-- The last number given out. -/
  counter : Nat := 0
  deriving DecidableEq, Repr

namespace NameSupply

/-- The names tried for a nonterminal that stands for a terminal. -/
def wrapperSeries (s : NameSupply) (terminal : String) : Nat → Name
  | 0 => s.terminalPrefix ++ terminal
  | n + 1 => s.terminalPrefix ++ terminal ++ "_" ++ toString (n + 1)

/-- The names tried for a link. -/
def chainSeries (s : NameSupply) (n : Nat) : Name :=
  s.chainPrefix ++ toString n

/-- The name of the next nonterminal that stands for a terminal. -/
def wrapperName (s : NameSupply) (g : Grammar) (terminal : String) : Name :=
  s.wrapperSeries terminal (g.firstFree (s.wrapperSeries terminal) g.symbolCount 0)

/-- The number of the next link. -/
def nextChain (s : NameSupply) (g : Grammar) : Nat :=
  g.firstFree s.chainSeries g.symbolCount (s.counter + 1)

end NameSupply

/-- A grammar in the course of its edits, together with the names for its new
nonterminals. -/
structure Workshop extends Revision where
  supply : NameSupply := {}

/-- A transformation that may mint nonterminals. -/
abbrev Minting := EStateM Fault Workshop

namespace Minting

/-- A transformation that mints nothing. -/
def transform {α : Type} (t : Transform α) : Minting α := fun w =>
  match t.run w.toRevision with
  | .ok value r => .ok value { w with toRevision := r }
  | .error fault r => .error fault { w with toRevision := r }

/-- Runs a minting with a supply of its own. -/
def withSupply {α : Type} (supply : NameSupply) (m : Minting α) : Transform α := fun r =>
  match m.run ⟨r, supply⟩ with
  | .ok value w => .ok value w.toRevision
  | .error fault w => .error fault w.toRevision

/-- Runs a minting: what it gives, and the workshop it leaves in either case. -/
def perform {α : Type} (m : Minting α) (w : Workshop) : Except Fault α × Workshop :=
  match m.run w with
  | .ok value w' => (.ok value, w')
  | .error fault w' => (.error fault, w')

/-- Adds a nonterminal under a free name, without right sides. -/
def register (A : Name) : Minting Name := do
  transform (Transform.edit fun g => g.addHead (.nonterminal A))
  return A

/-- Mints a nonterminal that stands for a terminal. -/
def wrapper (terminal : String) : Minting Name := do
  let w ← get
  register (w.supply.wrapperName w.grammar terminal)

/-- Mints a link. -/
def chain : Minting Name := do
  let w ← get
  let number := w.supply.nextChain w.grammar
  set { w with supply := { w.supply with counter := number } }
  register (w.supply.chainSeries number)

/-- Mints several links. -/
def chains : Nat → Minting (List Name)
  | 0 => return []
  | n + 1 => return (← chain) :: (← chains n)

end Minting

end ContextFree
