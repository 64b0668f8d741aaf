import ContextFree.Analysis
import ContextFree.Proofs.Derivation
import ContextFree.Proofs.Fixpoint
import ContextFree.Proofs.Search

/-! # The analyses are exact

In a well-formed grammar the nullable and the productive heads are those that derive the
empty string and some string. The two searches succeed, because every nonterminal that a right
side mentions has an entry, and they find what can be reached by rules.
-/

namespace ContextFree

theorem Symbol.eq_nonterminal {X : Symbol} (h : X.isTerminal = false) :
    X = .nonterminal X.name := by
  cases X with
  | nonterminal A => rfl
  | terminal a => cases h

theorem RightSide.unit?_eq_some_iff {right : RightSide} {Y : Symbol} :
    RightSide.unit? right = some Y ↔ ∃ B, Y = .nonterminal B ∧ right = [.nonterminal B] := by
  unfold RightSide.unit?
  split
  · simp [eq_comm]
  · next hne =>
    simp only [reduceCtorEq, false_iff]
    rintro ⟨B, -, rfl⟩
    exact hne B rfl

theorem RightSide.isUnit_iff {right : RightSide} :
    right.isUnit = true ↔ ∃ B, right = [.nonterminal B] := by
  rw [RightSide.isUnit, Option.isSome_iff_exists]
  constructor
  · rintro ⟨Y, hY⟩
    obtain ⟨B, -, rfl⟩ := RightSide.unit?_eq_some_iff.1 hY
    exact ⟨B, rfl⟩
  · rintro ⟨B, rfl⟩
    exact ⟨.nonterminal B, rfl⟩

theorem RightSide.mem_nonterminals {right : RightSide} {X : Symbol} :
    X ∈ RightSide.nonterminals right ↔ X ∈ right ∧ X.isTerminal = false := by
  simp [RightSide.nonterminals]

namespace Grammar

variable {g : Grammar} {form : RightSide} {A : Name} {X Y : Symbol}

theorem WellFormed.exists_nonterminal (h : g.WellFormed) (hX : X ∈ g.productions) :
    ∃ A, X = .nonterminal A := by
  cases X with
  | nonterminal A => exact ⟨A, rfl⟩
  | terminal a => cases h.heads_nonterminal _ hX

/-- A nonterminal that a right side of a well-formed grammar mentions is a head. -/
theorem WellFormed.mem_productions (h : g.WellFormed) {right : RightSide}
    (hright : right ∈ g.rightsOf X) (hA : .nonterminal A ∈ right) :
    .nonterminal A ∈ g.productions :=
  Std.ExtTreeMap.contains_iff_mem.1 (h.closed X right hright _ hA)

/-- A well-formed grammar has the terminals that it declares. -/
theorem WellFormed.has_terminal (h : g.WellFormed) {a : Name} :
    g.has (.terminal a) = true ↔ a ∈ g.terminals := by
  have hhead : g.productions.contains (.terminal a) = false := by
    rw [← Bool.not_eq_true, Std.ExtTreeMap.contains_iff_mem]
    intro ha
    cases h.heads_nonterminal _ ha
  rw [has, hhead, Bool.false_or, Std.ExtTreeSet.contains_iff_mem]

theorem yields_nil_of_forall (h : ∀ X ∈ form, g.Yields [X] []) : g.Yields form [] := by
  induction form with
  | nil => exact .nil
  | cons X form ih =>
    exact (h X List.mem_cons_self).append (ih fun Y hY => h Y (List.mem_cons_of_mem _ hY))

theorem exists_yields_of_forall (h : ∀ A, .nonterminal A ∈ form → ∃ w, g.Derives A w) :
    ∃ w, g.Yields form w := by
  induction form with
  | nil => exact ⟨[], .nil⟩
  | cons X form ih =>
    obtain ⟨w, hw⟩ := ih fun A hA => h A (List.mem_cons_of_mem _ hA)
    cases X with
    | terminal a => exact ⟨_, hw.terminal⟩
    | nonterminal A =>
      obtain ⟨v, hv⟩ := h A List.mem_cons_self
      exact ⟨v ++ w, Yields.append hv hw⟩

section Clauses

variable {known : SymbolSet}

theorem holds_vanishingClauses : g.vanishingClauses.holds X known = true ↔
    ∃ right ∈ g.rightsOf X, ∀ Y ∈ right, Y ∈ known := by
  simp only [Clauses.holds_iff, vanishingClauses, Std.ExtTreeMap.getElem?_map,
    Option.map_eq_some_iff, mem_rightsOf]
  constructor
  · rintro ⟨_, ⟨rights, hentry, rfl⟩, right, hright, hall⟩
    exact ⟨right, ⟨rights, hentry, Std.ExtTreeSet.mem_toList.1 hright⟩, hall⟩
  · rintro ⟨right, ⟨rights, hentry, hright⟩, hall⟩
    exact ⟨_, ⟨rights, hentry, rfl⟩, right, Std.ExtTreeSet.mem_toList.2 hright, hall⟩

theorem holds_productiveClauses : g.productiveClauses.holds X known = true ↔
    ∃ right ∈ g.rightsOf X, ∀ B, .nonterminal B ∈ right → .nonterminal B ∈ known := by
  have hbody (right : RightSide) : (∀ Y ∈ RightSide.nonterminals right, Y ∈ known) ↔
      ∀ B, .nonterminal B ∈ right → .nonterminal B ∈ known := by
    refine ⟨fun h B hB => h _ (RightSide.mem_nonterminals.2 ⟨hB, rfl⟩), fun h Y hY => ?_⟩
    obtain ⟨hY, hkind⟩ := RightSide.mem_nonterminals.1 hY
    rw [Symbol.eq_nonterminal hkind] at hY ⊢
    exact h _ hY
  simp only [Clauses.holds_iff, productiveClauses, Std.ExtTreeMap.getElem?_map,
    Option.map_eq_some_iff, mem_rightsOf]
  constructor
  · rintro ⟨_, ⟨rights, hentry, rfl⟩, body, hmem, hall⟩
    obtain ⟨right, hright, rfl⟩ := List.mem_map.1 hmem
    exact ⟨right, ⟨rights, hentry, Std.ExtTreeSet.mem_toList.1 hright⟩, (hbody right).1 hall⟩
  · rintro ⟨right, ⟨rights, hentry, hright⟩, hall⟩
    exact ⟨_, ⟨rights, hentry, rfl⟩, _,
      List.mem_map.2 ⟨right, Std.ExtTreeSet.mem_toList.2 hright, rfl⟩, (hbody right).2 hall⟩

end Clauses

theorem mem_nullable_of_forall {right : RightSide} (hright : right ∈ g.rightsOf X)
    (h : ∀ Y ∈ right, Y ∈ g.nullable) : X ∈ g.nullable :=
  Fixpoint.least_closed (mem_heads.2 (mem_productions_of_mem_rightsOf hright))
    (holds_vanishingClauses.2 ⟨right, hright, h⟩)

/-- The nullable heads are those symbols that yield the empty string. -/
theorem mem_nullable (h : g.WellFormed) : X ∈ g.nullable ↔ g.Yields [X] [] := by
  constructor
  · refine Fixpoint.least_induction (P := fun X => g.Yields [X] [])
      (fun X hX known hknown hq => ?_) X
    obtain ⟨A, rfl⟩ := h.exists_nonterminal (mem_heads.1 hX)
    obtain ⟨right, hright, hall⟩ := holds_vanishingClauses.1 hq
    exact derives_iff.2 ⟨right, hright, yields_nil_of_forall fun Y hY => hknown Y (hall Y hY)⟩
  · intro hX
    exact hX.forall_of_nil (fun _ _ => mem_nullable_of_forall) X List.mem_cons_self

theorem mem_productive_of_forall {right : RightSide} (hright : right ∈ g.rightsOf X)
    (h : ∀ B, .nonterminal B ∈ right → .nonterminal B ∈ g.productive) : X ∈ g.productive :=
  Fixpoint.least_closed (mem_heads.2 (mem_productions_of_mem_rightsOf hright))
    (holds_productiveClauses.2 ⟨right, hright, h⟩)

/-- The productive nonterminals are those that derive some string. -/
theorem mem_productive (h : g.WellFormed) :
    .nonterminal A ∈ g.productive ↔ ∃ w, g.Derives A w := by
  constructor
  · refine Fixpoint.least_induction (P := fun X => ∃ w, g.Yields [X] w)
      (fun X hX known hknown hq => ?_) (.nonterminal A)
    obtain ⟨A, rfl⟩ := h.exists_nonterminal (mem_heads.1 hX)
    obtain ⟨right, hright, hall⟩ := holds_productiveClauses.1 hq
    obtain ⟨w, hw⟩ := exists_yields_of_forall fun B hB => hknown _ (hall B hB)
    exact ⟨w, derives_iff.2 ⟨right, hright, hw⟩⟩
  · rintro ⟨w, hw⟩
    exact hw.forall_nonterminal (fun _ _ => mem_productive_of_forall) A List.mem_cons_self

/-- A head mentions the nonterminals of its right sides. -/
theorem exists_mentions_iff : (∃ children, g.mentions[X]? = some children ∧ Y ∈ children) ↔
    ∃ right ∈ g.rightsOf X, Y ∈ right ∧ Y.isTerminal = false := by
  simp only [mentions, Std.ExtTreeMap.getElem?_map, Option.map_eq_some_iff, mem_rightsOf]
  constructor
  · rintro ⟨_, ⟨rights, hentry, rfl⟩, hY⟩
    obtain ⟨right, hright, hY⟩ := List.mem_flatMap.1 hY
    exact ⟨right, ⟨rights, hentry, Std.ExtTreeSet.mem_toList.1 hright⟩,
      RightSide.mem_nonterminals.1 hY⟩
  · rintro ⟨right, ⟨rights, hentry, hright⟩, hY⟩
    exact ⟨_, ⟨rights, hentry, rfl⟩, List.mem_flatMap.2
      ⟨right, Std.ExtTreeSet.mem_toList.2 hright, RightSide.mem_nonterminals.2 hY⟩⟩

theorem exists_unitSteps_iff : (∃ children, g.unitSteps[X]? = some children ∧ Y ∈ children) ↔
    ∃ B, Y = .nonterminal B ∧ [.nonterminal B] ∈ g.rightsOf X := by
  simp only [unitSteps, Std.ExtTreeMap.getElem?_map, Option.map_eq_some_iff, mem_rightsOf]
  constructor
  · rintro ⟨_, ⟨rights, hentry, rfl⟩, hY⟩
    obtain ⟨right, hright, hunit⟩ := List.mem_filterMap.1 hY
    obtain ⟨B, rfl, rfl⟩ := RightSide.unit?_eq_some_iff.1 hunit
    exact ⟨B, rfl, rights, hentry, Std.ExtTreeSet.mem_toList.1 hright⟩
  · rintro ⟨B, rfl, rights, hentry, hright⟩
    exact ⟨_, ⟨rights, hentry, rfl⟩, List.mem_filterMap.2
      ⟨_, Std.ExtTreeSet.mem_toList.2 hright, RightSide.unit?_eq_some_iff.2 ⟨B, rfl, rfl⟩⟩⟩

/-- A search in a graph that leads from heads to heads only succeeds. -/
theorem search_eq_ok {graph : Graph Symbol} (hX : X ∈ graph)
    (hclosed : ∀ (Y : Symbol) (children : List Symbol), graph[Y]? = some children →
      ∀ Z ∈ children, Z ∈ graph) :
    ∃ seen, search graph (.tagged X) = .ok seen ∧ ∀ Y, Y ∈ seen ↔ graph.Reaches X Y := by
  have hentry (Y : Symbol) (hY : graph.Reaches X Y) : Y ∈ graph := by
    cases hY with
    | root => exact hX
    | step _ hchildren hmem => exact hclosed _ _ hchildren _ hmem
  obtain ⟨seen, hseen, hexact⟩ := Graph.reachableFrom_eq_ok hentry
  refine ⟨seen, ?_, hexact⟩
  change (graph.reachableFrom X).mapError _ = _
  rw [hseen]
  rfl

/-- The search for what the start symbol reaches succeeds. -/
theorem reachable_eq_ok (h : g.WellFormed) :
    ∃ seen, g.reachable = .ok seen ∧
      ∀ Y, Y ∈ seen ↔ g.mentions.Reaches (.nonterminal g.start) Y := by
  refine search_eq_ok (Std.ExtTreeMap.mem_map.2 h.start_mem) fun X children hX Y hY => ?_
  obtain ⟨right, hright, hmem, hkind⟩ := exists_mentions_iff.1 ⟨children, hX, hY⟩
  cases Y with
  | nonterminal B => exact Std.ExtTreeMap.mem_map.2 (h.mem_productions hright hmem)
  | terminal a => cases hkind

/-- The symbols that a head derives by unit rules. -/
def unitClosureOf (g : Grammar) (X : Symbol) : SymbolSet :=
  match search g.unitSteps (.tagged X) with
  | .ok seen => seen
  | .error _ => ∅

theorem search_unitSteps (h : g.WellFormed) (hX : X ∈ g.productions) :
    search g.unitSteps (.tagged X) = .ok (g.unitClosureOf X) ∧
      ∀ Y, Y ∈ g.unitClosureOf X ↔ g.unitSteps.Reaches X Y := by
  have hclosed (Y : Symbol) (children : List Symbol) (hY : g.unitSteps[Y]? = some children)
      (Z : Symbol) (hZ : Z ∈ children) : Z ∈ g.unitSteps := by
    obtain ⟨B, rfl, hright⟩ := exists_unitSteps_iff.1 ⟨children, hY, hZ⟩
    exact Std.ExtTreeMap.mem_map.2 (h.mem_productions hright List.mem_cons_self)
  have hmem : X ∈ g.unitSteps := Std.ExtTreeMap.mem_map.2 hX
  obtain ⟨seen, hseen, hexact⟩ := search_eq_ok hmem hclosed
  rw [unitClosureOf, hseen]
  exact ⟨rfl, hexact⟩

end Grammar

end ContextFree
