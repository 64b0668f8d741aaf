import ContextFree.Grammar.Basic
import ContextFree.Raw.Order

/-! # Editing a grammar

The three edits of a grammar: giving a head new right sides, adding a head and removing
heads. Each checks its arguments first and changes nothing when it fails.
-/

namespace ContextFree.Grammar

/-- The symbol that a value stands for, if the grammar has it. -/
def resolve (g : Grammar) (x : RawSymbol) : Option Symbol :=
  x.symbol?.filter g.has

/-- The symbol that a value in a right side stands for. A value that is no symbol of the
grammar is reported together with the rule in which it stands. -/
def resolveIn (g : Grammar) (left : Symbol) (right : List RawSymbol) (x : RawSymbol) :
    Except Fault Symbol :=
  match g.resolve x with
  | some X => .ok X
  | none => do
    let rule ← RawRule.ofSides (.tagged left) right
    throw (.unknownSymbol rule x)

/-- The right side that a sequence of values stands for; the first value that is no symbol
of the grammar is reported. -/
def resolveRight (g : Grammar) (left : Symbol) (right : List RawSymbol) :
    Except Fault RightSide :=
  right.mapM (g.resolveIn left right)

/-- The head of the grammar that a value stands for. -/
def resolveLeft (g : Grammar) (left : RawSymbol) : Option Symbol :=
  left.symbol?.filter g.productions.contains

/-- Replaces the right sides of a head. -/
def setRights (g : Grammar) (left : RawSymbol) (rights : List (List RawSymbol)) :
    Except Fault Grammar :=
  match g.resolveLeft left with
  | none => .error (.notInGrammar left.name)
  | some X => do
    let rights ← rights.mapM (g.resolveRight X)
    return { g with productions := g.productions.insert X (.ofList rights) }

/-- Adds a head without right sides: a symbol that is no head yet, under a name that no
terminal has. -/
def addHead (g : Grammar) (X : Symbol) : Except Fault Grammar :=
  if g.productions.contains X || g.terminals.contains X.name then .error (.nameTaken X.name)
  else .ok { g with productions := g.productions.insert X ∅ }

/-- Adds the head that a value stands for. -/
def addSymbol (g : Grammar) (x : RawSymbol) : Except Fault Grammar :=
  match x.symbol? with
  | some X => g.addHead X
  | none => .error (if g.terminals.contains x.name then .nameTaken x.name else .notNonterminal x)

/-- Removes heads other than the start symbol, with their right sides. Symbols that are no
heads are passed over. -/
def removeHeads (g : Grammar) (symbols : SymbolSet) : Except Fault Grammar :=
  if .nonterminal g.start ∈ symbols then .error (.startRemoved g.start)
  else .ok { g with productions := g.productions.filter fun X _ => !symbols.contains X }

/-- A nonterminal can be added exactly under a name that is not in use. -/
theorem addHead_nonterminal (g : Grammar) (A : Name) :
    g.addHead (.nonterminal A) =
      if g.uses A then .error (.nameTaken A)
      else .ok { g with productions := g.productions.insert (.nonterminal A) ∅ } :=
  rfl

end ContextFree.Grammar
