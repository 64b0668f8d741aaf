/-! # Grouping by a key

The members of a list are collected by a key. Groups stand in the order in which their keys
first occur, and the members of a group in the order of the list.
-/

namespace ContextFree

variable {α κ : Type} [DecidableEq κ]

/-- Adds a member to the group of its key, which is opened at the end if there is none. -/
def addToGroup (k : κ) (x : α) : List (κ × List α) → List (κ × List α)
  | [] => [(k, [x])]
  | (k', xs) :: groups =>
    if k' = k then (k', xs ++ [x]) :: groups else (k', xs) :: addToGroup k x groups

/-- The members of a list, collected by key. -/
def groupBy (key : α → κ) (xs : List α) : List (κ × List α) :=
  xs.foldl (fun groups x => addToGroup (key x) x groups) []

end ContextFree
