import ContextFree.Grammar.Basic

/-! # The normal form

A rule is in Chomsky Normal Form if its right side is one terminal or two nonterminals, or
if it is the epsilon rule of the start symbol.
-/

namespace ContextFree

/-- Whether a rule has one of the shapes that the normal form of a grammar with the given
start symbol allows. -/
def Rule.isNormal (start : Name) (r : Rule) : Bool :=
  match r.right with
  | [] => r.left = start
  | [.terminal _] => true
  | [.nonterminal _, .nonterminal _] => true
  | _ => false

namespace Grammar

/-- The first rule that is not in normal form. -/
def nonNormalRule? (g : Grammar) : Except Fault (Option Rule) := do
  return (← g.listRules).find? fun r => !r.isNormal g.start

/-- Whether all rules are in normal form. -/
def isNormal (g : Grammar) : Except Fault Bool := do
  return (← g.nonNormalRule?).isNone

/-- Fails at the first rule that is not in normal form. -/
def checkNormal (g : Grammar) : Except Fault Unit := do
  if let some rule ← g.nonNormalRule? then throw (.notNormal rule)

end Grammar

end ContextFree
