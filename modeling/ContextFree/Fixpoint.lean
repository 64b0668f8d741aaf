import Std.Data.ExtTreeMap
import Std.Data.ExtTreeSet

/-! # Least fixpoints over a list of candidates

A set is grown from nothing: a candidate joins it as soon as it qualifies, given the
members so far. When whether a candidate qualifies is monotone in the set, the result is the
least set that holds every qualifying candidate.
-/

namespace ContextFree

namespace Fixpoint

variable {α : Type} [Ord α] [Std.TransOrd α]

/-- One pass over the candidates outside the set: those that still do not qualify, and the
set grown by the others. -/
def pass (qualifies : α → Std.ExtTreeSet α → Bool) :
    List α → Std.ExtTreeSet α → List α × Std.ExtTreeSet α
  | [], known => ([], known)
  | x :: xs, known =>
    if known.contains x || qualifies x known then pass qualifies xs (known.insert x)
    else
      let rest := pass qualifies xs known
      (x :: rest.1, rest.2)

/-- Passes over the candidates until none joins the set. -/
def grow (qualifies : α → Std.ExtTreeSet α → Bool) (candidates : List α)
    (known : Std.ExtTreeSet α) : Std.ExtTreeSet α :=
  let next := pass qualifies candidates known
  if next.1.length < candidates.length then grow qualifies next.1 next.2 else next.2
termination_by candidates.length

/-- The set that grows from nothing by qualifying candidates. -/
def least (qualifies : α → Std.ExtTreeSet α → Bool) (candidates : List α) : Std.ExtTreeSet α :=
  grow qualifies candidates ∅

end Fixpoint

/-- For each candidate, the alternatives of which one has to hold: a conjunction of other
candidates. -/
abbrev Clauses (α : Type) [Ord α] := Std.ExtTreeMap α (List (List α))

namespace Clauses

variable {α : Type} [Ord α] [Std.TransOrd α]

/-- Whether some clause of `x` has all its members in the set. -/
def holds (clauses : Clauses α) (x : α) (known : Std.ExtTreeSet α) : Bool :=
  (clauses.getD x []).any fun body => body.all known.contains

/-- The least set of candidates that is closed under the clauses, or the first candidate
without clauses. -/
def closure (clauses : Clauses α) (candidates : List α) : Except α (Std.ExtTreeSet α) :=
  match candidates.find? fun x => !clauses.contains x with
  | some x => .error x
  | none => .ok (Fixpoint.least clauses.holds candidates)

end Clauses

end ContextFree
