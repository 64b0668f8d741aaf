import ContextFree.UnitRules
import ContextFree.Proofs.Shape

/-! # Eliminating unit rules keeps the derivations without epsilon rules

A derivation that begins with a chain of unit rules goes on with another rule, which the head of
the chain takes over. The epsilon rule of the start symbol is taken over by no other head, so
only derivations that do without it are kept in general.
-/

namespace ContextFree

namespace Grammar

variable {g : Grammar} {form : RightSide} {w : Word} {A : Name} {X Y : Symbol}

/-- The grammar that is left when unit rules are eliminated. -/
def withoutUnits (g : Grammar) : Grammar :=
  { g with productions := g.productions.map fun X _ => g.inherited X (g.unitClosureOf X) }

@[simp] theorem start_withoutUnits : g.withoutUnits.start = g.start :=
  rfl

@[simp] theorem terminals_withoutUnits : g.withoutUnits.terminals = g.terminals :=
  rfl

theorem mem_inherited {closure : SymbolSet} {right : RightSide} :
    right ∈ g.inherited X closure ↔ ∃ Y ∈ closure, right ∈ g.rightsOf Y ∧
      right.isUnit = false ∧ (right = [] → X = .nonterminal g.start) := by
  simp only [inherited, Std.ExtTreeSet.mem_ofList, List.contains_iff_mem, List.mem_flatMap,
    List.mem_filter, Std.ExtTreeSet.mem_toList, inherits, Bool.and_eq_true, Bool.or_eq_true,
    Bool.not_eq_true', List.isEmpty_eq_false_iff, decide_eq_true_eq, Decidable.imp_iff_not_or,
    ne_eq]

/-- A head has the right sides other than units of the nonterminals that it derives by unit
rules; the empty right side only comes to the start symbol. -/
theorem mem_rightsOf_withoutUnits (h : g.WellFormed) {right : RightSide} :
    right ∈ g.withoutUnits.rightsOf X ↔ X ∈ g.productions ∧
      ∃ Y, g.unitSteps.Reaches X Y ∧ right ∈ g.rightsOf Y ∧ right.isUnit = false ∧
        (right = [] → X = .nonterminal g.start) := by
  rw [withoutUnits, mem_rightsOf_map]
  constructor
  · rintro ⟨rights, hentry, hright⟩
    have hX : X ∈ g.productions := by simp [Std.ExtTreeMap.mem_iff_isSome_getElem?, hentry]
    obtain ⟨Y, hY, hrest⟩ := mem_inherited.1 hright
    exact ⟨hX, Y, ((search_unitSteps h hX).2 Y).1 hY, hrest⟩
  · rintro ⟨hX, Y, hY, hrest⟩
    exact ⟨_, Std.ExtTreeMap.getElem?_eq_some_getElem hX,
      mem_inherited.2 ⟨Y, ((search_unitSteps h hX).2 Y).2 hY, hrest⟩⟩

theorem WellFormed.inherited_known (h : g.WellFormed) {closure : SymbolSet} :
    ∀ right ∈ g.inherited X closure, ∀ Y ∈ right, g.has Y = true := by
  intro right hright Y hY
  obtain ⟨Z, -, hZ, -⟩ := mem_inherited.1 hright
  exact h.closed Z right hZ Y hY

theorem WellFormed.withoutUnits (h : g.WellFormed) : g.withoutUnits.WellFormed :=
  h.map fun _ _ _ => h.inherited_known

theorem epsilonAtStart_withoutUnits (h : g.WellFormed) : g.withoutUnits.EpsilonAtStart := by
  intro X hX
  obtain ⟨-, Y, -, -, -, hstart⟩ := (mem_rightsOf_withoutUnits h).1 hX
  exact hstart rfl

theorem unitFree_withoutUnits (h : g.WellFormed) : g.withoutUnits.UnitFree := by
  intro X B hX
  obtain ⟨-, Y, -, -, hunit, -⟩ := (mem_rightsOf_withoutUnits h).1 hX
  rw [RightSide.isUnit_iff.2 ⟨B, rfl⟩] at hunit
  cases hunit

/-- If only the start symbol has the empty right side, it keeps it, and no head gets it. -/
theorem nil_mem_rightsOf_withoutUnits (h : g.WellFormed) (hepsilon : g.EpsilonAtStart) :
    [] ∈ g.withoutUnits.rightsOf X ↔ [] ∈ g.rightsOf X := by
  rw [mem_rightsOf_withoutUnits h]
  constructor
  · rintro ⟨-, Y, -, hY, -, hstart⟩
    rwa [hstart rfl, ← hepsilon Y hY]
  · intro hX
    exact ⟨mem_productions_of_mem_rightsOf hX, X, .root, hX, rfl, fun _ => hepsilon X hX⟩

/-- A nonterminal derives whatever one does to which a chain of unit rules leads. -/
theorem derives_of_reaches (hY : g.unitSteps.Reaches (.nonterminal A) Y) :
    ∃ B, Y = .nonterminal B ∧ ∀ w, g.Derives B w → g.Derives A w := by
  induction hY with
  | root => exact ⟨A, rfl, fun _ hw => hw⟩
  | step _ hentry hmem ih =>
    obtain ⟨C, rfl, hC⟩ := ih
    obtain ⟨B, rfl, hright⟩ := exists_unitSteps_iff.1 ⟨_, hentry, hmem⟩
    exact ⟨B, rfl, fun w hw => hC w (derives_iff.2 ⟨_, hright, hw⟩)⟩

theorem reaches_of_unit {B : Name} (hright : [.nonterminal B] ∈ g.rightsOf X)
    (hY : g.unitSteps.Reaches (.nonterminal B) Y) : g.unitSteps.Reaches X Y := by
  induction hY with
  | root =>
    obtain ⟨children, hentry, hmem⟩ := exists_unitSteps_iff.2 ⟨B, rfl, hright⟩
    exact .step .root hentry hmem
  | step _ hentry hmem ih => exact .step ih hentry hmem

theorem Yields.of_withoutUnits (h : g.WellFormed) (hw : g.withoutUnits.Yields form w) :
    g.Yields form w := by
  refine hw.transfer fun A right v hright _ hv => ?_
  obtain ⟨-, Y, hY, hright, -⟩ := (mem_rightsOf_withoutUnits h).1 hright
  obtain ⟨B, rfl, hB⟩ := derives_of_reaches hY
  exact hB v (derives_iff.2 ⟨right, hright, hv⟩)

theorem Yields.withoutUnits_positive (h : g.WellFormed) (hw : g.positive.Yields form w) :
    g.withoutUnits.positive.Yields form w := by
  refine hw.transfer fun A right v hright _ hv => ?_
  obtain ⟨hright, hne⟩ := mem_rightsOf_positive.1 hright
  have hA : .nonterminal A ∈ g.productions := mem_productions_of_mem_rightsOf hright
  by_cases hunit : right.isUnit = true
  · obtain ⟨B, rfl⟩ := RightSide.isUnit_iff.1 hunit
    -- The rule with which the derivation goes on was taken over by `B`, and `A` takes it over too.
    obtain ⟨next, hnext, hv⟩ := derives_iff.1 hv
    obtain ⟨hnext, hne⟩ := mem_rightsOf_positive.1 hnext
    obtain ⟨-, Y, hY, hrest, hplain, -⟩ := (mem_rightsOf_withoutUnits h).1 hnext
    refine derives_iff.2 ⟨next, mem_rightsOf_positive.2 ⟨?_, hne⟩, hv⟩
    exact (mem_rightsOf_withoutUnits h).2
      ⟨hA, Y, reaches_of_unit hright hY, hrest, hplain, fun hnil => absurd hnil hne⟩
  · refine derives_iff.2 ⟨right, mem_rightsOf_positive.2 ⟨?_, hne⟩, hv⟩
    exact (mem_rightsOf_withoutUnits h).2
      ⟨hA, _, .root, hright, Bool.not_eq_true _ ▸ hunit, fun hnil => absurd hnil hne⟩

theorem unitClosures_eq_ok (h : g.WellFormed) :
    g.unitClosures = .ok (g.heads.map fun X => (X, g.unitClosureOf X)) := by
  refine mapM_eq_ok fun X hX => ?_
  rw [(search_unitSteps h (mem_heads.1 hX)).1]
  rfl

/-- Every head takes over right sides from its unit closure. -/
theorem mem_map_inherited {Xs : List Symbol} {rights : RightSides}
    (hXs : ∀ Y, Y ∈ Xs ↔ Y ∈ g.heads) :
    (X, rights) ∈ (Xs.map fun Y => (Y, g.unitClosureOf Y)).map
        (fun (Y, closure) => (Y, g.inherited Y closure)) ↔
      ∃ old, g.productions[X]? = some old ∧ g.inherited X (g.unitClosureOf X) = rights := by
  simp only [List.map_map, List.mem_map, Function.comp_apply, Prod.mk.injEq, hXs, mem_heads]
  constructor
  · rintro ⟨Y, hY, rfl, rfl⟩
    exact ⟨_, Std.ExtTreeMap.getElem?_eq_some_getElem hY, rfl⟩
  · rintro ⟨old, hold, rfl⟩
    exact ⟨X, by simp [Std.ExtTreeMap.mem_iff_isSome_getElem?, hold], rfl, rfl⟩

end Grammar

theorem Transform.turns_removeUnaryRules {g : Grammar} (h : g.WellFormed) :
    removeUnaryRules.Turns g (g.heads.map fun X => (X, g.unitClosureOf X)) g.withoutUnits := by
  refine turns_current.bind ?_
  rw [Grammar.unitClosures_eq_ok h]
  exact turns_ofExcept.bind ((turns_assignAll_map (fun _ _ => Grammar.mem_map_inherited fun _ =>
    Iff.rfl) fun _ _ _ => h.inherited_known).bind Turns.pure)

end ContextFree
