import ContextFree.Analysis
import ContextFree.Grammar.Revision

/-! # Removing useless heads

Heads that the start symbol does not reach are removed, and so are those that derive no string
of terminals, with every rule that mentions them. The start symbol always stays; if it derives
no string, it is left without rules.
-/

namespace ContextFree.Transform

/-- Removes the heads that cannot be reached from the start symbol; the right sides of the
others stay as they are. Gives the removed heads. -/
def removeUnreachable : Transform SymbolSet := do
  let g ← current
  let reachable ← ofExcept g.reachable
  let removed := SymbolSet.of (g.heads.filter fun X => !reachable.contains X)
  remove removed
  return removed

/-- Removes the heads other than the start symbol that derive no string of terminals, and
every right side that mentions a nonterminal without such a string. Gives the removed heads. -/
def removeUnproductive : Transform SymbolSet := do
  let g ← current
  let productive := g.productive
  let removed := SymbolSet.of (g.heads.filter fun X =>
    !productive.contains X && X ≠ .nonterminal g.start)
  remove removed
  assignEach fun _ rights => rights.filter (RightSide.isProductive productive)
  return removed

end ContextFree.Transform
