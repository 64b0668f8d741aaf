import ContextFree.Grammar.Spelling
import ContextFree.Grouping
import ContextFree.Listing.Line
import ContextFree.Text.Lines

/-! # Reading a grammar listing

The terminals must be declared, so that a misspelled nonterminal is reported instead of
being taken for a terminal. The nonterminals default to the left sides, and the start symbol
to the first left side. A fault in a line is reported with the number of the line.
-/

namespace ContextFree.Listing

/-- The names of a declaration and the number of its line. -/
structure Declaration where
  number : Nat
  names : List Name

/-- A rule line and its number. -/
structure RuleLine where
  number : Nat
  left : Name
  alternatives : List String

/-- What the lines of a listing say, taken together. -/
structure Outline where
  declarations : List (Heading × Declaration) := []
  rules : List RuleLine := []

namespace Outline

/-- The declaration under a heading. -/
def declaration? (o : Outline) (heading : Heading) : Option Declaration :=
  o.declarations.lookup heading

/-- Adds what one more line says. -/
def add (o : Outline) (number : Nat) : Line → Except LineFault Outline
  | .blank => .ok o
  | .declaration heading names =>
    if (o.declaration? heading).isSome then .error (.repeated heading)
    else .ok { o with declarations := (heading, ⟨number, names⟩) :: o.declarations }
  | .rule left alternatives =>
    .ok { o with rules := o.rules ++ [⟨number, left, alternatives⟩] }

/-- Reads one line. -/
def readLine (o : Outline) (number : Nat) (line : List Char) : Except Fault Outline :=
  match Line.read line >>= o.add number with
  | .ok o' => .ok o'
  | .error cause => .error (.atLine number cause)

/-- Reads lines that are numbered from `number` on. -/
def readLines (o : Outline) (number : Nat) : List (List Char) → Except Fault Outline
  | [] => .ok o
  | line :: rest => do (← o.readLine number line).readLines (number + 1) rest

/-- Reads all lines of a text. -/
def ofText (text : String) : Except Fault Outline :=
  readLines {} 1 (Text.lines text.toList)

/-- The nonterminals: the declared ones, or else the left sides. -/
def nonterminals (o : Outline) : List Name :=
  match o.declaration? .nonterminals with
  | some declaration => declaration.names
  | none => o.rules.map RuleLine.left

/-- The start symbol: the declared one, or else the first left side. -/
def start (o : Outline) : Except Fault Name :=
  match o.declaration? .start, o.rules with
  | some ⟨_, [name]⟩, _ => .ok name
  | some ⟨number, _⟩, _ => .error (.atLine number .startCount)
  | none, rule :: _ => .ok rule.left
  | none, [] => .error .noStart

/-- Checks that an alternative mentions declared names only. -/
def checkAlternative (v : Spelling.Vocabulary) (number : Nat) (alternative : String) :
    Except Fault Unit := do
  let names ← splitRightSide alternative epsilonMarker v.has
  match names.find? fun name => !v.has name with
  | some name => throw (.atLine number (.undeclaredName name alternative))
  | none => return

/-- Checks that a rule line mentions declared names only. -/
def checkRule (v : Spelling.Vocabulary) (rule : RuleLine) : Except Fault Unit := do
  unless v.nonterminals.contains rule.left do
    throw (.atLine rule.number (.undeclaredLeft rule.left))
  rule.alternatives.forM (checkAlternative v rule.number)

/-- The names and right sides of an outline. -/
def spelling (o : Outline) : Except Fault Spelling :=
  match o.declaration? .terminals with
  | none => .error .noTerminals
  | some terminals => .ok {
      nonterminals := o.nonterminals
      terminals := terminals.names
      productions := (groupBy RuleLine.left o.rules).map fun (left, lines) =>
        (left, lines.flatMap RuleLine.alternatives) }

/-- The grammar that an outline describes, whose start symbol a given one overrides. -/
def grammar (o : Outline) (start? : Option Name) : Except Fault Grammar := do
  let spelling ← o.spelling
  let start ← start?.elim o.start .ok
  o.rules.forM (checkRule spelling.vocabulary)
  spelling.grammar start

/-- Checks what an outline says apart from the start symbol. -/
def check (o : Outline) : Except Fault Unit := do
  let spelling ← o.spelling
  o.rules.forM (checkRule spelling.vocabulary)
  discard spelling.readProductions

end Outline

/-- Reads a grammar from its listing. -/
def read (text : String) (start? : Option Name) : Except Fault Grammar := do
  (← Outline.ofText text).grammar start?

/-- Checks a listing apart from the start symbol. -/
def check (text : String) : Except Fault Unit := do
  (← Outline.ofText text).check

end ContextFree.Listing
