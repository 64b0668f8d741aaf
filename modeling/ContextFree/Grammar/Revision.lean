import ContextFree.Grammar.Draft

/-! # Revising a grammar

A transformation is a computation on one grammar that is built from edits; when it fails, the
edits made before stay in effect. An edit of many heads reaches those that the grammar was put
together with in ascending order, and after them those that were added later, in the order of
their arrival.
-/

namespace ContextFree

/-- A grammar in the course of its edits. -/
structure Revision where
  grammar : Grammar
  /-- The heads that were added since the grammar was put together, in the order of their
  arrival. -/
  added : List Symbol := []

namespace Revision

/-- The revision after an edit that led to the grammar `g`. -/
def update (r : Revision) (g : Grammar) : Revision where
  grammar := g
  added := r.added.filter g.productions.contains ++
    g.heads.filter fun X => !r.grammar.productions.contains X

/-- The heads with their right sides, in the order in which they are reached. -/
def entries (r : Revision) : List (Symbol × RightSides) :=
  (r.grammar.productions.toList.filter fun (X, _) => !r.added.contains X) ++
    r.added.filterMap fun X => (r.grammar.productions[X]?).map fun rights => (X, rights)

/-- All heads are reached, each with its own right sides, and nothing else is. -/
theorem mem_entries {r : Revision} {X : Symbol} {rights : RightSides} :
    (X, rights) ∈ r.entries ↔ r.grammar.productions[X]? = some rights := by
  rw [entries, List.mem_append, List.mem_filter, List.mem_filterMap,
    Std.ExtTreeMap.mem_toList_iff_getElem?_eq_some]
  constructor
  · rintro (⟨h, _⟩ | ⟨Y, _, h⟩)
    · exact h
    · obtain ⟨_, h, pair⟩ := Option.map_eq_some_iff.1 h
      cases pair
      exact h
  · intro h
    by_cases added : X ∈ r.added
    · exact .inr ⟨X, added, by rw [h]; rfl⟩
    · exact .inl ⟨h, by simpa using added⟩

/-- The parts of the grammar, listed in the order in which its heads are reached. -/
def toDraft (r : Revision) : Draft where
  nonterminals := r.grammar.heads.map .tagged
  terminals := r.grammar.terminals.toList.map fun a => .tagged (.terminal a)
  start := .tagged (.nonterminal r.grammar.start)
  productions := r.entries.map fun (X, rights) =>
    (.tagged X, rights.toList.map fun right => right.map .tagged)

/-- The grammar put together again from its parts: it fails where a head is no nonterminal,
and where a right side mentions a symbol that was removed. -/
def copy (r : Revision) : Except Fault Revision := do
  return { grammar := ← r.toDraft.grammar }

end Revision

/-- A computation that transforms one grammar. -/
abbrev Transform := EStateM Fault Revision

namespace Transform

/-- An edit as a transformation. -/
def edit (f : Grammar → Except Fault Grammar) : Transform Unit := fun r =>
  match f r.grammar with
  | .ok g => .ok () (r.update g)
  | .error fault => .error fault r

/-- The value of a computation that does not touch the grammar. -/
def ofExcept {α : Type} : Except Fault α → Transform α
  | .ok value => pure value
  | .error fault => throw fault

/-- The grammar as it is. -/
def current : Transform Grammar :=
  return (← get).grammar

/-- Runs a transformation: what it gives, and what it leaves in either case. -/
def perform {α : Type} (t : Transform α) (r : Revision) : Except Fault α × Revision :=
  match t.run r with
  | .ok value r' => (.ok value, r')
  | .error fault r' => (.error fault, r')

/-- Replaces the right sides of a head. -/
def assign (X : Symbol) (rights : RightSides) : Transform Unit :=
  edit fun g => g.setRights (.tagged X)
    (rights.toList.map fun right => right.map RawSymbol.tagged)

/-- Replaces the right sides of several heads, one after the other. -/
def assignAll : List (Symbol × RightSides) → Transform Unit
  | [] => return
  | (X, rights) :: plan => do
    assign X rights
    assignAll plan

/-- Replaces the right sides of every head by others that depend on them. -/
def assignEach (f : Symbol → RightSides → RightSides) : Transform Unit := do
  assignAll ((← get).entries.map fun (X, rights) => (X, f X rights))

/-- Removes heads. -/
def remove (symbols : SymbolSet) : Transform Unit :=
  edit fun g => g.removeHeads symbols

end Transform

end ContextFree
