import ContextFree.Fault
import ContextFree.Text.Blank

/-! # The lines of a grammar listing

A listing is the plain text form of a grammar. Each of its lines is blank, a comment, a
declaration such as `start: S`, or a rule such as `S -> AB | a | ε`, where the arrow may
also be written as one character.
-/

namespace ContextFree.Listing

/-- What one line says. -/
inductive Line where
  /-- Nothing, or a comment. -/
  | blank
  /-- The names that follow a heading. -/
  | declaration (heading : Heading) (names : List Name)
  /-- The alternatives for a left side; there are none where the empty marker stands. -/
  | rule (left : Name) (alternatives : List String)
  deriving DecidableEq, Repr

namespace Line

/-- The names after a heading and its colon. -/
def declarationOf (heading : Heading) (cs : List Char) : Option Line :=
  let word := heading.word.toList
  if word.isPrefixOf cs then
    match (cs.drop word.length).dropWhile Text.isBlank with
    | ':' :: rest => some (.declaration heading ((Text.fields rest).map String.ofList))
    | _ => none
  else none

/-- The declaration that a line makes. -/
def declaration? (cs : List Char) : Option Line :=
  [Heading.nonterminals, .terminals, .start].findSome? fun heading => declarationOf heading cs

/-- The texts before and after the first arrow. -/
def splitArrow : List Char → Option (List Char × List Char)
  | [] => none
  | '-' :: '>' :: cs => some ([], cs)
  | c :: cs =>
    if c = '→' then some ([], cs)
    else (splitArrow cs).map fun (left, right) => (c :: left, right)

/-- The alternatives that a text lists between bars. -/
def alternatives (line right : List Char) : Except LineFault (List String) :=
  if String.ofList right = emptyMarker then .ok []
  else
    let parts := (Text.pieces (· = '|') right).map Text.strip
    if parts.any List.isEmpty then .error (.emptyAlternative (String.ofList line))
    else .ok (parts.map String.ofList)

/-- The rule that a line gives. -/
def ruleOf (cs : List Char) : Except LineFault Line :=
  match splitArrow cs with
  | none => .error (.noArrow (String.ofList cs))
  | some (before, after) =>
    let left := Text.strip before
    if left.isEmpty || left.any Text.isBlank then .error (.badLeft (String.ofList left))
    else (alternatives cs (Text.strip after)).map (.rule (String.ofList left))

/-- What a line says. -/
def read (line : List Char) : Except LineFault Line :=
  match Text.strip line with
  | [] => .ok .blank
  | '#' :: _ => .ok .blank
  | cs =>
    match declaration? cs with
    | some line => .ok line
    | none => ruleOf cs

end Line

end ContextFree.Listing
