import Std.Data.ExtTreeMap
import Std.Data.ExtTreeSet

/-! # Searching a finite graph

A graph lists the children of each of its nodes. The search collects the nodes that can be
reached from a root; it fails at the first node it visits that has no entry.
-/

namespace ContextFree

/-- The children of each node of a finite graph. -/
abbrev Graph (α : Type) [Ord α] := Std.ExtTreeMap α (List α)

namespace Graph

variable {α : Type} [Ord α] [Std.TransOrd α]

/-- The members of a list that are not seen yet, each once and in order. -/
def unseen (seen : Std.ExtTreeSet α) : List α → List α
  | [] => []
  | x :: xs => if seen.contains x then unseen seen xs else x :: unseen (seen.insert x) xs

/-- Removing a node's entry makes the graph smaller. -/
theorem size_erase_lt {graph : Graph α} {node : α} (h : node ∈ graph) :
    (graph.erase node).size < graph.size := by
  have nonempty : graph.size ≠ 0 := by
    rw [ne_eq, ← Std.ExtTreeMap.eq_empty_iff_size_eq_zero]
    rintro rfl
    exact Std.ExtTreeMap.not_mem_empty h
  rw [Std.ExtTreeMap.size_erase, if_pos (Std.ExtTreeMap.contains_iff_mem.2 h)]
  omega

/-- Continues a search: `rest` is the part of the graph that was not visited, `seen` holds the
nodes found so far, and the list those of them that are still to be visited. A node is
removed from `rest` when it is visited, so the search ends. -/
def explore (rest : Graph α) (seen : Std.ExtTreeSet α) : List α → Except α (Std.ExtTreeSet α)
  | [] => .ok seen
  | node :: pending =>
    if h : node ∈ rest then
      let found := unseen seen rest[node]
      explore (rest.erase node) (seen.insertMany found) (found.reverse ++ pending)
    else .error node
termination_by rest.size
decreasing_by exact size_erase_lt h

/-- The nodes that can be reached from `root`, or a node among them without entry. -/
def reachableFrom (graph : Graph α) (root : α) : Except α (Std.ExtTreeSet α) :=
  graph.explore {root} [root]

end Graph

end ContextFree
