import ContextFree.Grammar.Edit

/-! # Grammars from their parts

A draft lists the parts of a grammar in any order and with any repetitions. A draft whose
parts fit together is a grammar; the order and the repetitions leave no trace in it.
-/

namespace ContextFree

/-- The parts of a grammar as they are listed. -/
structure Draft where
  nonterminals : List RawSymbol
  terminals : List RawSymbol
  start : RawSymbol
  productions : List (RawSymbol × List (List RawSymbol))

namespace Grammar

/-- Adds right sides to those that a head has. -/
def addRights (g : Grammar) (left : RawSymbol) (rights : List (List RawSymbol)) :
    Except Fault Grammar :=
  match g.resolveLeft left with
  | none => .error (.leftOutside left.name)
  | some X => do
    let rights ← rights.mapM (g.resolveRight X)
    return { g with productions := g.productions.insert X ((g.rightsOf X).insertMany rights) }

end Grammar

namespace Draft

/-- The names of values that must all be nonterminals. -/
def nonterminalNames (values : List RawSymbol) : Except Fault (List Name) :=
  values.mapM fun x => x.nonterminal?.elim (.error (.notNonterminal x)) .ok

/-- The names of values that must all be terminals. -/
def terminalNames (values : List RawSymbol) : Except Fault (List Name) :=
  values.mapM fun x => x.terminal?.elim (.error (.notTerminal x)) .ok

/-- The grammar that a draft describes. -/
def grammar (d : Draft) : Except Fault Grammar := do
  let nonterminals ← nonterminalNames d.nonterminals
  let terminals := NameSet.of (← terminalNames d.terminals)
  let shared := (NameSet.of nonterminals).filter terminals.contains
  unless shared.isEmpty do
    throw (.sharedNames shared.toList)
  match d.start.nonterminal?.filter nonterminals.contains with
  | none => throw (.startOutside d.start.name)
  | some start =>
    d.productions.foldlM (fun g (left, rights) => g.addRights left rights)
      { start, terminals,
        productions := .ofList (nonterminals.map fun A => (Symbol.nonterminal A, ∅)) }

end Draft

namespace Grammar

/-- The grammar whose rules are the given ones and whose symbols are the start symbol and
those that the rules mention. -/
def ofRules (start : Name) (rules : List Rule) : Except Fault Grammar :=
  Draft.grammar {
    nonterminals := (.nonterminal start :: rules.flatMap fun r =>
      .nonterminal r.left :: RightSide.nonterminals r.right).map .tagged
    terminals := (rules.flatMap fun r => RightSide.terminals r.right).map .tagged
    start := .tagged (.nonterminal start)
    productions := rules.map fun r => (.tagged (.nonterminal r.left), [r.right.map .tagged]) }

/-- The grammar of rules that are handed in, possibly among other values. -/
def ofRawRules (start : RawSymbol) (values : List (RawRule ⊕ RawSymbol)) :
    Except Fault Grammar := do
  let start ← start.nonterminal?.elim (.error .startKind) .ok
  let rules ← values.mapM fun
    | .inl rule => .ok rule
    | .inr _ => .error .strayValue
  let rules ← rules.mapM fun rule => rule.rule?.elim (.error .noKind) .ok
  ofRules start rules

end Grammar

end ContextFree
