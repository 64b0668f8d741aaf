import ContextFree.Grammar.Basic

/-! # Grammars as lines of text

A grammar is shown with one line for each head, in the order of their names. Symbols are
written next to each other if all names have one character, and with spaces between them
otherwise.
-/

namespace ContextFree

/-- What stands between the sides of a rule line. -/
def arrow : String := "→"

/-- What stands between the right sides of a rule line. -/
def bar : String := " | "

/-- The line that gives all right sides of a head, from the names of the symbols. -/
def ruleLine (separator : String) (left : Name) (rights : List (List Name)) : String :=
  left ++ " " ++ arrow ++ " " ++
    if rights.isEmpty then emptyMarker else bar.intercalate (rights.map (sideText separator))

namespace Grammar

/-- What stands between two symbols of a right side. -/
def separator (g : Grammar) : String :=
  if (g.heads.map Symbol.name ++ g.terminals.toList).all fun name => name.length = 1 then ""
  else " "

/-- The line of one head. -/
def line (g : Grammar) (X : Symbol) : String :=
  ruleLine g.separator X.name ((g.rightsOf X).toList.map fun right => right.map Symbol.name)

/-- The lines of all heads, in the order of their names. -/
def layout (g : Grammar) : String :=
  "\n".intercalate ((Symbol.byName g.heads).map g.line)

/-- The grammar under a title, after an empty line. -/
def titled (title : String) (g : Grammar) : String :=
  "\n" ++ title ++ "\n" ++ g.layout ++ "\n"

end Grammar

end ContextFree
