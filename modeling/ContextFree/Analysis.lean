import ContextFree.Fixpoint
import ContextFree.Grammar.Basic
import ContextFree.Graph

/-! # Four analyses of a grammar

Which heads derive the empty string, which derive some string of terminals, which nonterminals
occur in what the start symbol derives, and which a head derives by unit rules alone. The first
two are least fixpoints, the last two are searches in a graph; a search fails when it meets a
nonterminal that was removed from the grammar.
-/

namespace ContextFree

/-- Whether all nonterminals of a right side belong to the set. -/
def RightSide.isProductive (productive : SymbolSet) (right : RightSide) : Bool :=
  (RightSide.nonterminals right).all productive.contains

namespace Grammar

/-- A head derives the empty string if all symbols of one of its right sides do. -/
def vanishingClauses (g : Grammar) : Clauses Symbol :=
  g.productions.map fun _ rights => rights.toList

/-- The heads that derive the empty string. -/
def nullable (g : Grammar) : SymbolSet :=
  Fixpoint.least g.vanishingClauses.holds g.heads

/-- A head derives a string of terminals if all nonterminals of one of its right sides do. -/
def productiveClauses (g : Grammar) : Clauses Symbol :=
  g.productions.map fun _ rights => rights.toList.map RightSide.nonterminals

/-- The heads that derive at least one string of terminals. -/
def productive (g : Grammar) : SymbolSet :=
  Fixpoint.least g.productiveClauses.holds g.heads

/-- The nonterminals that the right sides of each head mention. -/
def mentions (g : Grammar) : Graph Symbol :=
  g.productions.map fun _ rights => rights.toList.flatMap RightSide.nonterminals

/-- The nonterminals that each head may be replaced by. -/
def unitSteps (g : Grammar) : Graph Symbol :=
  g.productions.map fun _ rights => rights.toList.filterMap RightSide.unit?

/-- The nodes of a graph of symbols that can be reached from a value; a value or a node without
entry is reported. -/
def search (graph : Graph Symbol) (x : RawSymbol) : Except Fault SymbolSet :=
  match x.symbol? with
  | some X => (graph.reachableFrom X).mapError fun Y => .noEntry (.tagged Y)
  | none => .error (.noEntry x)

/-- The nonterminals that occur in what the start symbol derives. -/
def reachable (g : Grammar) : Except Fault SymbolSet :=
  search g.mentions (.tagged (.nonterminal g.start))

/-- The nonterminals that a head derives by unit rules, and the head itself. -/
def unitClosure (g : Grammar) (x : RawSymbol) : Except Fault SymbolSet :=
  search g.unitSteps x

end Grammar

end ContextFree
