import ContextFree.Analysis
import ContextFree.Grammar.Revision

/-! # Eliminating unit rules

A head takes over the other rules of every nonterminal that it derives by unit rules, and keeps
its own, so that chains and cycles of unit rules are resolved at once. Only the start symbol
takes over an epsilon rule.
-/

namespace ContextFree

/-- For each head, in ascending order, the symbols that it derives by unit rules. -/
abbrev UnitClosures := List (Symbol × SymbolSet)

namespace Grammar

/-- The unit closures of all heads. -/
def unitClosures (g : Grammar) : Except Fault UnitClosures :=
  let graph := g.unitSteps
  g.heads.mapM fun X => do return (X, ← search graph (.tagged X))

/-- Whether `X` takes over a right side from a symbol of its unit closure. -/
def inherits (g : Grammar) (X : Symbol) (right : RightSide) : Bool :=
  !right.isUnit && (!right.isEmpty || X = .nonterminal g.start)

/-- The right sides that a head takes over from its unit closure. -/
def inherited (g : Grammar) (X : Symbol) (closure : SymbolSet) : RightSides :=
  .ofList (closure.toList.flatMap fun Y => (g.rightsOf Y).toList.filter (g.inherits X))

end Grammar

namespace Transform

/-- Eliminates the unit rules. Gives the unit closures of the grammar before. -/
def removeUnaryRules : Transform UnitClosures := do
  let g ← current
  let closures ← ofExcept g.unitClosures
  assignAll (closures.map fun (X, closure) => (X, g.inherited X closure))
  return closures

end Transform

end ContextFree
