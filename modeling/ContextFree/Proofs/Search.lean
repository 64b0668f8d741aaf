import ContextFree.Graph

/-! # What a search finds

A node of a graph can be reached from a root if a chain of entries leads to it. A search either
finds exactly the nodes that can be reached, or it stops at one of them that has no entry.
-/

namespace ContextFree.Graph

variable {α : Type} [Ord α] [Std.TransOrd α]

/-- The nodes to which a chain of entries leads from a root. -/
inductive Reaches (graph : Graph α) (root : α) : α → Prop where
  | root : Reaches graph root root
  | step {x y : α} {children : List α} :
    Reaches graph root x → graph[x]? = some children → y ∈ children → Reaches graph root y

variable [Std.LawfulEqOrd α] [DecidableEq α] {graph rest : Graph α} {root : α}
  {seen : Std.ExtTreeSet α}

theorem mem_unseen {x : α} {xs : List α} : x ∈ unseen seen xs ↔ x ∈ xs ∧ x ∉ seen := by
  fun_induction unseen seen xs with
  | case1 => simp
  | case2 seen y xs hy ih =>
    rw [Std.ExtTreeSet.contains_iff_mem] at hy
    rw [ih, List.mem_cons]
    constructor
    · exact fun ⟨hx, hseen⟩ => ⟨.inr hx, hseen⟩
    · rintro ⟨rfl | hx, hseen⟩
      · exact absurd hy hseen
      · exact ⟨hx, hseen⟩
  | case3 seen y xs hy ih =>
    rw [Std.ExtTreeSet.contains_iff_mem] at hy
    rw [List.mem_cons, ih, List.mem_cons, Std.ExtTreeSet.mem_insert]
    by_cases hxy : x = y
    · simp [hxy, hy]
    · have hne : compare y x ≠ .eq := fun heq => hxy (Std.LawfulEqOrd.eq_of_compare heq).symm
      simp [hxy, hne]

theorem nodup_unseen (seen : Std.ExtTreeSet α) (xs : List α) : (unseen seen xs).Nodup := by
  fun_induction unseen seen xs with
  | case1 => exact .nil
  | case2 seen y xs _ ih => exact ih
  | case3 seen y xs _ ih =>
    refine List.nodup_cons.2 ⟨fun hy => ?_, ih⟩
    exact (mem_unseen.1 hy).2 Std.ExtTreeSet.mem_insert_self

theorem mem_insertMany_unseen {x : α} {xs : List α} :
    x ∈ seen.insertMany (unseen seen xs) ↔ x ∈ seen ∨ x ∈ xs ∧ x ∉ seen := by
  rw [Std.ExtTreeSet.mem_insertMany_list, List.contains_iff_mem, mem_unseen]

theorem mem_insertMany_unseen_of_mem {x : α} {xs : List α} (hx : x ∈ xs) :
    x ∈ seen.insertMany (unseen seen xs) := by
  rw [mem_insertMany_unseen]
  exact (Classical.em (x ∈ seen)).imp_right fun hseen => ⟨hx, hseen⟩

/-- The state of a search: the nodes on the stack were seen and not yet visited, the other seen
nodes were visited and have an entry whose nodes were seen, too. -/
structure Frontier (graph rest : Graph α) (root : α) (seen : Std.ExtTreeSet α) (stack : List α) :
    Prop where
  nodup : stack.Nodup
  stack_seen : ∀ x ∈ stack, x ∈ seen
  reached : ∀ x ∈ seen, graph.Reaches root x
  pending : ∀ x ∈ stack, rest[x]? = graph[x]?
  unseen : ∀ x, x ∉ seen → rest[x]? = graph[x]?
  visited : ∀ x ∈ seen, x ∉ stack → ∃ children, graph[x]? = some children ∧ ∀ y ∈ children, y ∈ seen

/-- Visiting the node on top of the stack puts its unseen children there. -/
theorem Frontier.visit {node : α} {stack children : List α}
    (h : Frontier graph rest root seen (node :: stack)) (hentry : rest[node]? = some children) :
    Frontier graph (rest.erase node) root (seen.insertMany (Graph.unseen seen children))
      ((Graph.unseen seen children).reverse ++ stack) := by
  have hnode : node ∈ seen := h.stack_seen node List.mem_cons_self
  have hgraph : graph[node]? = some children := by rw [← h.pending node List.mem_cons_self, hentry]
  obtain ⟨hnotin, hnodup⟩ := List.nodup_cons.1 h.nodup
  have hstack {x : α} : x ∈ (Graph.unseen seen children).reverse ++ stack ↔
      (x ∈ children ∧ x ∉ seen) ∨ x ∈ stack := by
    rw [List.mem_append, List.mem_reverse, mem_unseen]
  have hold {x : α} (hx : x ∈ seen) : x ∈ seen.insertMany (Graph.unseen seen children) :=
    mem_insertMany_unseen.2 (.inl hx)
  have hother {x : α} (hx : x ≠ node) : (rest.erase node)[x]? = rest[x]? := by
    have hne : compare node x ≠ .eq := fun heq => hx (Std.LawfulEqOrd.eq_of_compare heq).symm
    rw [Std.ExtTreeMap.getElem?_erase, if_neg hne]
  have hunseen {x : α} (hx : x ∉ seen) : (rest.erase node)[x]? = graph[x]? := by
    rw [hother (ne_of_mem_of_not_mem hnode hx).symm, h.unseen x hx]
  refine ⟨?nodup, ?stack_seen, ?reached, ?pending, ?unseen, ?visited⟩
  case nodup =>
    have hfound := (nodup_unseen seen children).imp fun hne => Ne.symm hne
    refine List.nodup_append.2 ⟨List.pairwise_reverse.2 hfound, hnodup, ?_⟩
    rintro x hx _ hx' rfl
    rw [List.mem_reverse, mem_unseen] at hx
    exact hx.2 (h.stack_seen x (List.mem_cons_of_mem _ hx'))
  case stack_seen =>
    intro x hx
    rcases hstack.1 hx with hx | hx
    · exact mem_insertMany_unseen_of_mem hx.1
    · exact hold (h.stack_seen x (List.mem_cons_of_mem _ hx))
  case reached =>
    intro x hx
    rcases mem_insertMany_unseen.1 hx with hx | hx
    · exact h.reached x hx
    · exact .step (h.reached node hnode) hgraph hx.1
  case pending =>
    intro x hx
    rcases hstack.1 hx with hx | hx
    · exact hunseen hx.2
    · rw [hother (ne_of_mem_of_not_mem hx hnotin), h.pending x (List.mem_cons_of_mem _ hx)]
  case unseen => exact fun x hx => hunseen fun hseen => hx (hold hseen)
  case visited =>
    intro x hx hleft
    rw [hstack, not_or] at hleft
    have hseen : x ∈ seen := (mem_insertMany_unseen.1 hx).resolve_right hleft.1
    by_cases hxn : x = node
    · subst hxn
      exact ⟨children, hgraph, fun y hy => mem_insertMany_unseen_of_mem hy⟩
    · obtain ⟨ys, hys, hall⟩ := h.visited x hseen (by simp [hxn, hleft.2])
      exact ⟨ys, hys, fun y hy => hold (hall y hy)⟩

/-- What a search finds: the nodes that can be reached, all of which have an entry, or one
without entry that can be reached. -/
inductive Found (graph : Graph α) (root : α) : Except α (Std.ExtTreeSet α) → Prop where
  | all {seen : Std.ExtTreeSet α} (exact : ∀ x, x ∈ seen ↔ graph.Reaches root x)
    (entries : ∀ x ∈ seen, x ∈ graph) : Found graph root (.ok seen)
  | missing {x : α} (reached : graph.Reaches root x) (missing : x ∉ graph) :
    Found graph root (.error x)

theorem Frontier.found {stack : List α} (h : Frontier graph rest root seen stack)
    (hroot : root ∈ seen) : Found graph root (explore rest seen stack) := by
  -- The frontier is the invariant of the search; once the stack is empty, `seen` is closed.
  fun_induction explore rest seen stack with
  | case1 rest seen =>
    have hvisited (x : α) (hx : x ∈ seen) := h.visited x hx List.not_mem_nil
    refine .all (fun x => ⟨h.reached x, fun hx => ?_⟩) fun x hx => ?_
    · induction hx with
      | root => exact hroot
      | step _ hentry hy ih =>
        obtain ⟨children, hchildren, hall⟩ := hvisited _ ih
        rw [hentry] at hchildren
        cases hchildren
        exact hall _ hy
    · obtain ⟨children, hchildren, -⟩ := hvisited x hx
      simp [Std.ExtTreeMap.mem_iff_isSome_getElem?, hchildren]
  | case2 rest seen node stack hnode found ih =>
    refine ih (h.visit (Std.ExtTreeMap.getElem?_eq_some_getElem hnode)) ?_
    exact Std.ExtTreeSet.mem_insertMany_list.2 (.inl hroot)
  | case3 rest seen node stack hnode =>
    refine .missing (h.reached node (h.stack_seen node List.mem_cons_self)) fun hgraph => hnode ?_
    rw [Std.ExtTreeMap.mem_iff_isSome_getElem?, h.pending node List.mem_cons_self]
    exact Std.ExtTreeMap.mem_iff_isSome_getElem?.1 hgraph

omit [DecidableEq α] in
/-- A search begins with its root on the stack. -/
theorem frontier_start (graph : Graph α) (root : α) : Frontier graph graph root {root} [root] := by
  have hmem {x : α} : x ∈ ({root} : Std.ExtTreeSet α) ↔ x = root := by
    change x ∈ (∅ : Std.ExtTreeSet α).insert root ↔ x = root
    simp only [Std.ExtTreeSet.mem_insert, Std.ExtTreeSet.not_mem_empty, or_false,
      Std.LawfulEqOrd.compare_eq_iff_eq]
    exact eq_comm
  refine ⟨?_, ?_, ?_, ?_, ?_, ?_⟩
  · exact List.nodup_cons.2 ⟨List.not_mem_nil, .nil⟩
  · exact fun x hx => hmem.2 (List.mem_singleton.1 hx)
  · exact fun x hx => hmem.1 hx ▸ .root
  · exact fun _ _ => rfl
  · exact fun _ _ => rfl
  · exact fun x hx hne => absurd (List.mem_singleton.2 (hmem.1 hx)) hne

theorem found_reachableFrom (graph : Graph α) (root : α) :
    Found graph root (graph.reachableFrom root) :=
  (frontier_start graph root).found
    ((frontier_start graph root).stack_seen root List.mem_cons_self)

/-- A search in a graph in which all nodes that can be reached have an entry finds exactly
these. -/
theorem reachableFrom_eq_ok (h : ∀ x, graph.Reaches root x → x ∈ graph) :
    ∃ seen, graph.reachableFrom root = .ok seen ∧ ∀ x, x ∈ seen ↔ graph.Reaches root x := by
  cases hresult : graph.reachableFrom root with
  | ok seen =>
    cases hresult ▸ found_reachableFrom graph root with
    | all hexact _ => exact ⟨seen, rfl, hexact⟩
  | error x =>
    cases hresult ▸ found_reachableFrom graph root with
    | missing hx hmissing => exact absurd (h x hx) hmissing

end ContextFree.Graph
