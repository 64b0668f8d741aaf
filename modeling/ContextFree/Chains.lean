import ContextFree.Isolation

/-! # Splitting long right sides

A right side of more than two symbols is split into a chain of pairs: each pair consists of
the next symbol and a link, a new nonterminal whose only right side is the next pair. The last
pair holds the last two symbols.
-/

namespace ContextFree

/-- The nonterminals of a chain, each with its right side. -/
abbrev Links := List (Name × RightSide)

/-- The number of links that a right side needs. -/
def RightSide.linkCount (right : RightSide) : Nat :=
  right.length - 2

/-- The pair that replaces a right side, and the links that carry its other symbols. -/
def RightSide.split : RightSide → List Name → RightSide × Links
  | X :: Y :: Z :: right, N :: names =>
    let rest := split (Y :: Z :: right) names
    ([X, .nonterminal N], (N, rest.1) :: rest.2)
  | right, _ => (right, [])

namespace Minting

/-- Splits right sides one after the other, with new links for each: what remains of them,
and all links. -/
def splitAll : List RightSide → Minting (List RightSide × Links)
  | [] => return ([], [])
  | right :: rest => do
    let (pair, links) := RightSide.split right (← chains (RightSide.linkCount right))
    let (pairs, more) ← splitAll rest
    return (pair :: pairs, links ++ more)

/-- What remains of the right sides of each head, preceded by the links of its chains. -/
def splitRules :
    List (Symbol × RightSides) → Minting (List (Symbol × RightSides) × List Name)
  | [] => return ([], [])
  | (X, rights) :: rest => do
    let (pairs, links) ← splitAll rights.toList
    let (plan, names) ← splitRules rest
    return (links.map (fun (N, pair) => (.nonterminal N, {pair})) ++ (X, .ofList pairs) :: plan,
      links.map Prod.fst ++ names)

/-- Splits every right side of more than two symbols. Gives the links in the order in which
they were minted. -/
def shortenRules : Minting (List Name) := do
  let (plan, names) ← splitRules (← get).grammar.productions.toList
  transform (Transform.assignAll plan)
  return names

end Minting

/-- Isolates terminals and then splits long right sides. Gives the nonterminals that stand
for terminals, and the links. -/
def Transform.binarize : Transform (Wrappers × List Name) :=
  Minting.withSupply {} do
    let wrappers ← Minting.isolateTerminals
    return (wrappers, ← Minting.shortenRules)

end ContextFree
