import ContextFree.NameSupply

/-! # Isolating terminals

Right sides of two or more symbols are freed of terminals: each such terminal is replaced by a
new nonterminal whose only right side is that terminal. Shorter right sides stay as they are.
-/

namespace ContextFree

/-- The nonterminal that stands for each replaced terminal. -/
abbrev Wrappers := Std.ExtTreeMap Name Name

/-- A symbol, or the nonterminal that stands for it. -/
def Symbol.wrap (wrappers : Wrappers) : Symbol → Symbol
  | .nonterminal A => .nonterminal A
  | .terminal a => (wrappers[a]?).elim (.terminal a) .nonterminal

/-- A right side of two or more symbols with its terminals replaced. -/
def RightSide.isolate (wrappers : Wrappers) (right : RightSide) : RightSide :=
  if 2 ≤ right.length then right.map (Symbol.wrap wrappers) else right

/-- The terminals that occur in right sides of two or more symbols. -/
def Grammar.mixedTerminals (g : Grammar) : NameSet :=
  .of (((g.allRights.filter fun right => 2 ≤ right.length).flatMap RightSide.terminals).map
    Symbol.name)

namespace Minting

/-- Mints the nonterminals that stand for terminals, and gives each its right side. -/
def wrapAll : List Name → Minting Wrappers
  | [] => return ∅
  | a :: rest => do
    let T ← wrapper a
    transform (Transform.assign (.nonterminal T) {[.terminal a]})
    return (← wrapAll rest).insert a T

/-- Replaces the terminals in right sides of two or more symbols. -/
def isolateTerminals : Minting Wrappers := do
  let wrappers ← wrapAll (← get).grammar.mixedTerminals.toList
  transform (Transform.assignEach fun _ rights =>
    .ofList (rights.toList.map (RightSide.isolate wrappers)))
  return wrappers

end Minting

end ContextFree
