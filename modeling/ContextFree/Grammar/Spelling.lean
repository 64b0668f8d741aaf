import ContextFree.Grammar.Draft
import ContextFree.Text.Blank

/-! # Grammars from names and spelled right sides

A right side may be spelled as one text. A text that names a symbol stands for that symbol, a
text with blanks is a sequence of names, and any other text is a sequence of one-character
names; the epsilon marker alone stands for the empty right side.
-/

namespace ContextFree

/-- The names that a spelled right side consists of. -/
def splitRightSide (text marker : String) (isName : Name → Bool) : Except Fault (List Name) :=
  let cs := Text.strip text.toList
  let stripped := String.ofList cs
  if cs.isEmpty then .error (.emptyRight marker)
  else if stripped = marker then .ok []
  else if isName stripped then .ok [stripped]
  else if cs.any Text.isBlank then .ok ((Text.fields cs).map String.ofList)
  else .ok (cs.map String.singleton)

/-- A grammar given by the names of its symbols and by spelled right sides, all but its start
symbol. -/
structure Spelling where
  nonterminals : List Name
  terminals : List Name
  productions : List (Name × List String)
  marker : String := epsilonMarker

namespace Spelling

/-- The names of one kind, and of both. -/
structure Vocabulary where
  nonterminals : NameSet
  terminals : NameSet

/-- Whether a name is declared. -/
def Vocabulary.has (v : Vocabulary) (name : Name) : Bool :=
  v.nonterminals.contains name || v.terminals.contains name

/-- The declared names. -/
def vocabulary (s : Spelling) : Vocabulary where
  nonterminals := .ofList s.nonterminals
  terminals := .ofList s.terminals

/-- The symbol that a name stands for in a rule. -/
def symbol (v : Vocabulary) (marker rule : String) (name : Name) : Except Fault RawSymbol :=
  if v.nonterminals.contains name then .ok (.tagged (.nonterminal name))
  else if v.terminals.contains name then .ok (.tagged (.terminal name))
  else if name = marker then .error (.markerNotAlone marker rule)
  else .error (.unknownName rule name)

/-- The right side that a text spells. -/
def right (v : Vocabulary) (marker : String) (left : Name) (text : String) :
    Except Fault (List RawSymbol) := do
  if (Text.strip text.toList).isEmpty then
    throw (.blankRight left marker)
  let names ← splitRightSide text marker v.has
  names.mapM (symbol v marker (left ++ " -> " ++ text))

/-- The right sides that texts spell, with their left side. -/
def production (v : Vocabulary) (marker : String) :
    Name × List String → Except Fault (RawSymbol × List (List RawSymbol))
  | (left, texts) => do
    unless v.nonterminals.contains left do
      throw (.leftUndeclared left)
    return (.tagged (.nonterminal left), ← texts.mapM (right v marker left))

/-- All right sides that are spelled, each list with its left side. -/
def readProductions (s : Spelling) :
    Except Fault (List (RawSymbol × List (List RawSymbol))) := do
  let v := s.vocabulary
  if v.has s.marker then
    throw (.markerDeclared s.marker)
  s.productions.mapM (production v s.marker)

/-- The grammar that is spelled, with a start symbol. -/
def grammar (s : Spelling) (start : Name) : Except Fault Grammar := do
  let productions ← s.readProductions
  unless s.vocabulary.nonterminals.contains start do
    throw (.startUndeclared start)
  Draft.grammar {
    nonterminals := s.nonterminals.map fun A => .tagged (.nonterminal A)
    terminals := s.terminals.map fun a => .tagged (.terminal a)
    start := .tagged (.nonterminal start)
    productions }

end Spelling

end ContextFree
