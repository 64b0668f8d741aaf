import ContextFree.Symbol

/-! # Rules

A rule allows its left side to be replaced by its right side. Rules stand in the order of
their left sides, and rules with one left side in the order of their right sides.
-/

namespace ContextFree

/-- How the empty string is written. -/
def epsilonMarker : String := "ε"

/-- How the absence of any right side is written. -/
def emptyMarker : String := "∅"

/-- The symbols of a right side, given by name, between separators; the empty right side
is written as the epsilon marker. -/
def sideText (separator : String) (right : List Name) : String :=
  if right.isEmpty then epsilonMarker else separator.intercalate right

/-- A rule, given by the names of its symbols, on one line. -/
def ruleText (left : Name) (right : List Name) : String :=
  left ++ " -> " ++ sideText " " right

/-- The texts of several values as a bracketed list. -/
def bracketed (items : List String) : String :=
  "[" ++ ", ".intercalate items ++ "]"

/-- The texts of several values as a tuple: a single one is followed by a comma. -/
def parenthesized : List String → String
  | [item] => "(" ++ item ++ ",)"
  | items => "(" ++ ", ".intercalate items ++ ")"

/-- A rule: the nonterminal that may be replaced, and what may replace it. -/
structure Rule where
  left : Name
  right : RightSide
  deriving DecidableEq, Repr

namespace Rule

instance : Ord Rule where
  compare := compareLex (compareOn left) (compareOn right)

instance : Std.TransOrd Rule :=
  inferInstanceAs (Std.TransCmp (compareLex (compareOn left) (compareOn right)))

instance : Std.LawfulEqOrd Rule where
  eq_of_compare {r s} h := by
    have h' : (compare r.left s.left).then (compare r.right s.right) = .eq := h
    rw [Ordering.then_eq_eq] at h'
    cases r
    cases s
    exact congr (congrArg Rule.mk (Std.LawfulEqOrd.eq_of_compare h'.1))
      (Std.LawfulEqOrd.eq_of_compare h'.2)

/-- The rule on one line. -/
def text (r : Rule) : String :=
  ruleText r.left (r.right.map Symbol.name)

/-- The rule with the kinds of its symbols, for messages. -/
def inspect (r : Rule) : String :=
  "Rule(" ++ (Symbol.nonterminal r.left).inspect ++ ", " ++
    parenthesized (r.right.map Symbol.inspect) ++ ")"

end Rule

end ContextFree
