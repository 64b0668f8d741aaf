import ContextFree.Raw

/-! # Causes of failure

Every operation that can fail says why by a value of `Fault`. The kind of a cause and its
wording are functions of it.
-/

namespace ContextFree

/-- The declarations that a grammar listing may hold. -/
inductive Heading where
  | nonterminals
  | terminals
  | start
  deriving DecidableEq, Repr

/-- The word that opens a declaration. -/
def Heading.word : Heading → String
  | .nonterminals => "nonterminals"
  | .terminals => "terminals"
  | .start => "start"

/-- What can be wrong with one line of a grammar listing. -/
inductive LineFault where
  /-- The declaration was made before. -/
  | repeated (heading : Heading)
  /-- The line is neither a declaration nor a rule. -/
  | noArrow (line : String)
  /-- The text before the arrow is not one name. -/
  | badLeft (left : String)
  /-- One of the alternatives is empty. -/
  | emptyAlternative (line : String)
  /-- The start declaration does not name exactly one symbol. -/
  | startCount
  /-- The left side is not among the nonterminals. -/
  | undeclaredLeft (left : Name)
  /-- An alternative mentions a name that is not declared. -/
  | undeclaredName (name : Name) (alternative : String)
  deriving DecidableEq, Repr

/-- The wording of a line's fault. -/
def LineFault.message : LineFault → String
  | repeated heading => "duplicate " ++ heading.word ++ " declaration"
  | noArrow line => "expected a rule of the form A -> ...: " ++ Text.quote line
  | badLeft left => "invalid left side " ++ Text.quote left
  | emptyAlternative line =>
    "empty right side in " ++ Text.quote line ++ "; write " ++ epsilonMarker ++
      " for the empty string or " ++ emptyMarker ++ " for no rules"
  | startCount => "expected exactly one start symbol"
  | undeclaredLeft left => Text.quote left ++ " is not a declared nonterminal"
  | undeclaredName name alternative =>
    "unknown symbol " ++ Text.quote name ++ " in " ++ Text.quote alternative

/-- Why an operation failed. -/
inductive Fault where
  /-- A value listed among the nonterminals is none. -/
  | notNonterminal (value : RawSymbol)
  /-- A value listed among the terminals is none. -/
  | notTerminal (value : RawSymbol)
  /-- Names belong to both kinds of symbols. -/
  | sharedNames (names : List Name)
  /-- The start symbol is not one of the grammar's nonterminals. -/
  | startOutside (start : String)
  /-- Productions are given for a symbol that is not one of the grammar's nonterminals. -/
  | leftOutside (left : String)
  /-- Productions are set for a symbol that is not one of the grammar's nonterminals. -/
  | notInGrammar (left : String)
  /-- A right side mentions a symbol that the grammar does not have. -/
  | unknownSymbol (rule : RawRule) (symbol : RawSymbol)
  /-- The name of a new nonterminal is in use. -/
  | nameTaken (name : String)
  /-- The start symbol is among the nonterminals to remove. -/
  | startRemoved (start : Name)
  /-- The epsilon marker is declared as a symbol. -/
  | markerDeclared (marker : String)
  /-- The start symbol is not a declared name. -/
  | startUndeclared (start : Name)
  /-- The left side is not a declared name. -/
  | leftUndeclared (left : Name)
  /-- A nonterminal is given a right side without any symbol or marker. -/
  | blankRight (left : Name) (marker : String)
  /-- A text to be split into symbols is blank. -/
  | emptyRight (marker : String)
  /-- The epsilon marker stands beside other symbols. -/
  | markerNotAlone (marker rule : String)
  /-- A rule mentions a name that is not declared. -/
  | unknownName (rule : String) (name : Name)
  /-- A rule has none of the shapes of the normal form. -/
  | notNormal (rule : Rule)
  /-- A listing lacks the declaration of the terminals. -/
  | noTerminals
  /-- A listing has neither a rule nor a start declaration. -/
  | noStart
  /-- A line of a listing is wrong; lines are counted from one. -/
  | atLine (number : Nat) (cause : LineFault)
  /-- The start symbol offered is not a nonterminal. -/
  | startKind
  /-- The left side of a rule is not a nonterminal. -/
  | leftKind
  /-- The right side of a rule holds a value that is no symbol. -/
  | rightKind
  /-- A value that is no rule stands among the rules. -/
  | strayValue
  /-- A value is compared with one of another sort. -/
  | incomparable
  /-- A detail of an event has a name that belongs to the event itself. -/
  | detailTaken (name : String)
  /-- A start symbol is asked for, but not named. -/
  | startUnnamed
  /-- A file is to be opened, but no path is given. -/
  | pathUnnamed
  /-- The kind of a symbol is asked for that has none. -/
  | noKind
  /-- A symbol is looked up that has no entry. -/
  | noEntry (key : RawSymbol)
  deriving DecidableEq, Repr

namespace Fault

/-- The four families of causes. -/
inductive Kind where
  /-- The values do not make up a grammar. -/
  | grammar
  /-- A value is of the wrong sort. -/
  | sort
  /-- A look-up finds nothing. -/
  | missing
  /-- A question has no answer for the value. -/
  | undefined
  deriving DecidableEq, Repr

/-- The family of a cause. -/
def kind : Fault → Kind
  | startKind | leftKind | rightKind | strayValue | incomparable | detailTaken _
  | startUnnamed | pathUnnamed => .sort
  | noKind => .undefined
  | noEntry _ => .missing
  | _ => .grammar

/-- The wording of a cause. -/
def message : Fault → String
  | notNonterminal value => value.inspect ++ " is not a nonterminal"
  | notTerminal value => value.inspect ++ " is not a terminal"
  | sharedNames names =>
    "symbols cannot be both terminal and nonterminal: " ++ ", ".intercalate names
  | startOutside start => "start symbol " ++ start ++ " is not a nonterminal of the grammar"
  | leftOutside left => "left side " ++ left ++ " is not a nonterminal of the grammar"
  | notInGrammar left => left ++ " is not a nonterminal of the grammar"
  | unknownSymbol rule symbol =>
    "rule " ++ rule.text ++ " uses unknown symbol " ++ symbol.inspect
  | nameTaken name => "symbol " ++ name ++ " is already used in the grammar"
  | startRemoved start => "cannot remove the start symbol " ++ start
  | markerDeclared marker =>
    "the epsilon marker " ++ Text.quote marker ++ " cannot be a grammar symbol"
  | startUndeclared start =>
    "start symbol " ++ Text.quote start ++ " is not a nonterminal of the grammar"
  | leftUndeclared left =>
    "left side " ++ Text.quote left ++ " is not a nonterminal of the grammar"
  | blankRight left marker =>
    "rule for " ++ Text.quote left ++ " has an empty right side; write " ++ marker ++
      " for the empty string"
  | emptyRight marker => "empty right side; write " ++ marker ++ " for the empty string"
  | markerNotAlone marker rule =>
    Text.quote marker ++ " must stand alone in a right side: " ++ rule
  | unknownName rule name => "rule " ++ rule ++ " uses unknown symbol " ++ Text.quote name
  | notNormal rule => "rule " ++ rule.text ++ " is not in Chomsky Normal Form"
  | noTerminals => "missing terminals declaration"
  | noStart => "grammar has no rules and no start declaration"
  | atLine number cause => "line " ++ toString number ++ ": " ++ cause.message
  | startKind => "start symbol must be a nonterminal"
  | leftKind => "left side must be a nonterminal"
  | rightKind => "right side must be a sequence of symbols"
  | strayValue => "rules must be instances of <class 'chomsky.formal_models.cfg.Rule'>"
  | incomparable => ""
  | detailTaken name =>
    "Logger.log_grammar() got multiple values for argument '" ++ name ++ "'"
  | startUnnamed => "unhashable type: 'list'"
  | pathUnnamed => "expected str, bytes or os.PathLike object, not list"
  | noKind => ""
  | noEntry key => key.inspect

end Fault

end ContextFree
