import ContextFree.Arrangement
import ContextFree.Text.Quoted
import Std.Data.ExtTreeSet

/-! # Symbols and right sides

A symbol is a nonterminal or a terminal with a name. Nonterminals come before terminals
and symbols of one kind stand in the order of their names, so that sets of symbols and
sets of right sides have one listing each.
-/

namespace ContextFree

/-- The name of a symbol: any text, the empty one included. -/
abbrev Name := String

/-- A finite set of names, listed by code point. -/
abbrev NameSet := Std.ExtTreeSet Name

/-- The set of the names in a list. -/
def NameSet.of (names : List Name) : NameSet :=
  .ofList names

/-- A symbol of a grammar. -/
inductive Symbol where
  | nonterminal (name : Name)
  | terminal (name : Name)
  deriving DecidableEq, Repr

namespace Symbol

/-- The name of the symbol, whatever its kind. -/
def name : Symbol → Name
  | nonterminal name => name
  | terminal name => name

/-- Whether the symbol is a terminal. -/
def isTerminal : Symbol → Bool
  | nonterminal _ => false
  | terminal _ => true

/-- The symbol with its kind, for messages. -/
def inspect : Symbol → String
  | nonterminal name => "Nonterminal(" ++ Text.quote name ++ ")"
  | terminal name => "Terminal(" ++ Text.quote name ++ ")"

/-- A symbol is its kind and its name. -/
theorem ext {X Y : Symbol} (kind : X.isTerminal = Y.isTerminal) (name : X.name = Y.name) :
    X = Y := by
  cases X <;> cases Y <;> simp_all [isTerminal, Symbol.name]

instance : Ord Symbol where
  compare := compareLex (compareOn isTerminal) (compareOn name)

instance : Std.TransOrd Symbol :=
  inferInstanceAs (Std.TransCmp (compareLex (compareOn isTerminal) (compareOn name)))

instance : Std.LawfulEqOrd Symbol where
  eq_of_compare {X Y} h := by
    have h' : (compare X.isTerminal Y.isTerminal).then (compare X.name Y.name) = .eq := h
    rw [Ordering.then_eq_eq] at h'
    exact ext (Std.LawfulEqOrd.eq_of_compare h'.1) (Std.LawfulEqOrd.eq_of_compare h'.2)

/-- The symbols of a list in the order of their names. -/
def byName (Xs : List Symbol) : List Symbol :=
  arrangeBy name Xs

/-- The names of the symbols of a list, in ascending order. -/
def names (Xs : List Symbol) : List Name :=
  (byName Xs).map name

/-- Putting symbols in the order of their names loses and repeats none. -/
@[simp] theorem mem_byName {X : Symbol} {Xs : List Symbol} : X ∈ byName Xs ↔ X ∈ Xs :=
  mem_arrangeBy

end Symbol

/-- A finite set of symbols, listed with the nonterminals first. -/
abbrev SymbolSet := Std.ExtTreeSet Symbol

/-- The set of the symbols in a list. -/
def SymbolSet.of (symbols : List Symbol) : SymbolSet :=
  .ofList symbols

/-- What a nonterminal may be replaced by: a sequence of symbols. -/
abbrev RightSide := List Symbol

/-- A finite set of right sides, listed lexicographically. -/
abbrev RightSides := Std.ExtTreeSet RightSide

/-- The nonterminal that a right side consists of, if it is a single one. -/
def RightSide.unit? : RightSide → Option Symbol
  | [.nonterminal A] => some (.nonterminal A)
  | _ => none

/-- Whether a right side consists of one nonterminal. -/
def RightSide.isUnit (right : RightSide) : Bool :=
  right.unit?.isSome

/-- The nonterminals of a right side, from left to right. -/
def RightSide.nonterminals (right : RightSide) : List Symbol :=
  right.filter (!·.isTerminal)

/-- The terminals of a right side, from left to right. -/
def RightSide.terminals (right : RightSide) : List Symbol :=
  right.filter (·.isTerminal)

end ContextFree
