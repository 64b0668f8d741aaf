import ContextFree.Analysis
import ContextFree.Grammar.Revision

/-! # Eliminating epsilon rules

Every right side is joined by the variants that leave out some of its nullable symbols.
Variants that become empty are dropped, except that the start symbol has the empty right
side when it is nullable.
-/

namespace ContextFree

/-- The right sides that are left when some of the symbols in `nullable` are omitted. -/
def RightSide.omissions (nullable : SymbolSet) : RightSide → List RightSide
  | [] => [[]]
  | X :: right =>
    let variants := omissions nullable right
    if nullable.contains X then variants.map (X :: ·) ++ variants else variants.map (X :: ·)

namespace Grammar

/-- The non-empty variants of the right sides of a head, and the empty one if the head is the
nullable start symbol. -/
def rightsWithoutEpsilon (g : Grammar) (nullable : SymbolSet) (X : Symbol) (rights : RightSides) :
    RightSides :=
  let variants := (rights.toList.flatMap (RightSide.omissions nullable)).filter (!·.isEmpty)
  .ofList (if X = .nonterminal g.start && nullable.contains X then [] :: variants else variants)

end Grammar

namespace Transform

/-- Eliminates the epsilon rules. Gives the nullable heads of the grammar before. -/
def removeEpsilonRules : Transform SymbolSet := do
  let g ← current
  let nullable := g.nullable
  assignEach (g.rightsWithoutEpsilon nullable)
  return nullable

end Transform

end ContextFree
