import ContextFree.Rule

/-! # Symbols and rules as they are handed in

Callers may hand in values that are not yet known to be symbols of a grammar: symbols
whose kind was left open, and plain text. They are kept apart from the symbols proper
until an operation has checked them.
-/

namespace ContextFree

/-- What a caller may hand in where a symbol is expected. -/
inductive RawSymbol where
  /-- A nonterminal or a terminal. -/
  | tagged (symbol : Symbol)
  /-- A symbol whose kind was left open. -/
  | untagged (name : Name)
  /-- Plain text, which is no symbol. -/
  | text (chars : String)
  deriving DecidableEq, Repr

instance : Coe Symbol RawSymbol where
  coe := .tagged

namespace RawSymbol

/-- The name of the symbol, or the text itself. -/
def name : RawSymbol → String
  | tagged X => X.name
  | untagged name => name
  | text chars => chars

/-- The value with its kind, for messages. -/
def inspect : RawSymbol → String
  | tagged X => X.inspect
  | untagged name => "Symbol(" ++ Text.quote name ++ ")"
  | text chars => Text.quote chars

/-- Whether the value is plain text. -/
def isText : RawSymbol → Bool
  | text _ => true
  | _ => false

/-- The symbol, if the kind is known. -/
def symbol? : RawSymbol → Option Symbol
  | tagged X => some X
  | _ => none

/-- The name, if the value is a nonterminal. -/
def nonterminal? : RawSymbol → Option Name
  | tagged (.nonterminal A) => some A
  | _ => none

/-- The name, if the value is a terminal. -/
def terminal? : RawSymbol → Option Name
  | tagged (.terminal a) => some a
  | _ => none

end RawSymbol

/-- A rule whose right side may hold symbols of open kind. -/
structure RawRule where
  left : Name
  right : List RawSymbol
  deriving DecidableEq, Repr

/-- A rule as a rule that was handed in. -/
def Rule.toRaw (r : Rule) : RawRule where
  left := r.left
  right := r.right.map .tagged

/-- The kind of every symbol of a right side is known. -/
theorem RawSymbol.mapM_symbol?_tagged (right : RightSide) :
    (right.map RawSymbol.tagged).mapM RawSymbol.symbol? = some right := by
  induction right with
  | nil => rfl
  | cons X right ih => simp [ih, RawSymbol.symbol?]

namespace RawRule

/-- The rule on one line. -/
def text (r : RawRule) : String :=
  ruleText r.left (r.right.map RawSymbol.name)

/-- The rule with the kinds of its symbols, for messages. -/
def inspect (r : RawRule) : String :=
  "Rule(" ++ (Symbol.nonterminal r.left).inspect ++ ", " ++
    parenthesized (r.right.map RawSymbol.inspect) ++ ")"

/-- The rule, if all kinds are known. -/
def rule? (r : RawRule) : Option Rule :=
  (r.right.mapM RawSymbol.symbol?).map (Rule.mk r.left)

/-- A rule that is handed in is itself. -/
theorem rule?_toRaw (r : Rule) : r.toRaw.rule? = some r := by
  rw [rule?, Rule.toRaw, RawSymbol.mapM_symbol?_tagged]
  rfl

end RawRule

end ContextFree
