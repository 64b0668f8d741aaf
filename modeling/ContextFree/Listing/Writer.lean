import ContextFree.Grammar.Layout

/-! # Writing a grammar listing

The listing of a grammar declares all its symbols and then gives one rule line for each head,
the start symbol first and the others in the order of their names.
-/

namespace ContextFree.Listing

/-- A line that declares names. -/
def declarationLine (heading : Heading) (names : List Name) : String :=
  heading.word ++ ": " ++ " ".intercalate names

/-- The heads of a grammar, the start symbol first. -/
def startFirst (g : Grammar) : List Symbol :=
  .nonterminal g.start :: Symbol.byName (g.heads.filter (· ≠ .nonterminal g.start))

/-- The lines of a grammar's listing. -/
def linesOf (g : Grammar) : List String :=
  declarationLine .nonterminals ((startFirst g).map Symbol.name) ::
  declarationLine .terminals g.terminals.toList ::
  declarationLine .start [g.start] ::
  (startFirst g).map g.line

/-- The listing of a grammar. -/
def write (g : Grammar) : String :=
  String.join ((linesOf g).map (· ++ "\n"))

end ContextFree.Listing
