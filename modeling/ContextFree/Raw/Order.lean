import ContextFree.Fault

/-! # Questions about values that were handed in

The kind of a symbol, the shape of a rule and the order of two values are defined only
where no symbol of open kind stands in the way; otherwise the question fails.
-/

namespace ContextFree

/-- Sorts a list by an order that may fail: every two members at different places must be
comparable. -/
def sortedBy {α : Type} (order : α → α → Except Fault Ordering) (xs : List α) :
    Except Fault (List α) := do
  comparable xs
  return xs.mergeSort fun x y => match order x y with
    | .ok o => o.isLE
    | .error _ => true
where
  /-- Compares every member with all later ones. -/
  comparable : List α → Except Fault Unit
    | [] => .ok ()
    | x :: xs => do
      xs.forM fun y => discard (order x y)
      comparable xs

namespace RawSymbol

/-- Whether the symbol is a terminal. -/
def isTerminal (x : RawSymbol) : Except Fault Bool :=
  match x.symbol? with
  | some X => .ok X.isTerminal
  | none => .error .noKind

/-- The order of two symbols, or of two texts. A text does not compare with a symbol. -/
def order (x y : RawSymbol) : Except Fault Ordering :=
  match x, y with
  | .text s, .text t => .ok (compare s t)
  | .text _, _ | _, .text _ => .error .incomparable
  | .tagged X, .tagged Y => .ok (compare X Y)
  | _, _ => .error .noKind

/-- The order of two sequences of symbols: the first place where they differ decides, and
a sequence comes before its extensions. -/
def sideOrder : List RawSymbol → List RawSymbol → Except Fault Ordering
  | [], [] => .ok .eq
  | [], _ :: _ => .ok .lt
  | _ :: _, [] => .ok .gt
  | x :: xs, y :: ys => if x = y then sideOrder xs ys else order x y

end RawSymbol

namespace RawRule

/-- The rule with the given sides: the left one a nonterminal, the right one symbols. -/
def ofSides (left : RawSymbol) (right : List RawSymbol) : Except Fault RawRule :=
  match left with
  | .tagged (.nonterminal A) =>
    if right.any RawSymbol.isText then .error .rightKind else .ok ⟨A, right⟩
  | _ => .error .leftKind

/-- Whether the right side is empty. -/
def isEpsilon (r : RawRule) : Bool :=
  r.right.isEmpty

/-- Whether the right side is one nonterminal. -/
def isUnary (r : RawRule) : Except Fault Bool :=
  match r.right with
  | [x] => return !(← x.isTerminal)
  | _ => return false

/-- Whether the right side is one terminal. -/
def isLexical (r : RawRule) : Except Fault Bool :=
  match r.right with
  | [x] => x.isTerminal
  | _ => return false

/-- Whether the right side is two nonterminals. -/
def isBinary (r : RawRule) : Except Fault Bool :=
  match r.right with
  | [x, y] => do
    if ← x.isTerminal then return false
    return !(← y.isTerminal)
  | _ => return false

/-- The order of two rules. -/
def order (r s : RawRule) : Except Fault Ordering :=
  if r.left = s.left then RawSymbol.sideOrder r.right s.right
  else .ok (compare r.left s.left)

end RawRule

end ContextFree
