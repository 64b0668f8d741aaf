import ContextFree.Omission
import ContextFree.Proofs.Shape

/-! # Eliminating epsilon rules keeps the language

A derivation that derives the empty string from some symbols of a right side is one of the
variant that leaves these symbols out. So every non-empty string is derived without epsilon
rules afterwards, and the start symbol keeps the empty right side exactly if it is nullable.
-/

namespace ContextFree

namespace RightSide

variable {nullable : SymbolSet} {variant right : RightSide} {X : Symbol}

/-- The first symbol is kept, or it is nullable and left out. -/
theorem mem_omissions_cons : variant ∈ omissions nullable (X :: right) ↔
    (∃ rest ∈ omissions nullable right, variant = X :: rest) ∨
      X ∈ nullable ∧ variant ∈ omissions nullable right := by
  rw [omissions]
  by_cases hX : X ∈ nullable
  · rw [if_pos (Std.ExtTreeSet.contains_iff_mem.2 hX), List.mem_append, List.mem_map]
    simp only [hX, true_and, eq_comm]
  · rw [if_neg (by simpa using hX), List.mem_map]
    simp only [hX, false_and, or_false, eq_comm]

theorem mem_of_mem_omissions (h : variant ∈ omissions nullable right) {Y : Symbol}
    (hY : Y ∈ variant) : Y ∈ right := by
  induction right generalizing variant with
  | nil =>
    obtain rfl := List.mem_singleton.1 h
    cases hY
  | cons X right ih =>
    rcases mem_omissions_cons.1 h with ⟨rest, hrest, rfl⟩ | ⟨-, hrest⟩
    · rcases List.mem_cons.1 hY with rfl | hY
      · exact List.mem_cons_self
      · exact List.mem_cons_of_mem _ (ih hrest hY)
    · exact List.mem_cons_of_mem _ (ih hrest hY)

theorem mem_omissions_self : right ∈ omissions nullable right := by
  induction right with
  | nil => exact List.mem_singleton.2 rfl
  | cons X right ih => exact mem_omissions_cons.2 (.inl ⟨right, ih, rfl⟩)

/-- The symbols that the empty variant leaves out are nullable. -/
theorem mem_nullable_of_nil_mem_omissions (h : [] ∈ omissions nullable right) {Y : Symbol}
    (hY : Y ∈ right) : Y ∈ nullable := by
  induction right with
  | nil => cases hY
  | cons X right ih =>
    obtain ⟨hX, hright⟩ : X ∈ nullable ∧ [] ∈ omissions nullable right := by
      simpa using mem_omissions_cons.1 h
    rcases List.mem_cons.1 hY with rfl | hY
    · exact hX
    · exact ih hright hY

end RightSide

namespace Grammar

variable {g : Grammar} {form : RightSide} {w : Word} {X : Symbol}

/-- The grammar that is left when epsilon rules are eliminated. -/
def withoutEpsilon (g : Grammar) : Grammar :=
  { g with productions := g.productions.map (g.rightsWithoutEpsilon g.nullable) }

@[simp] theorem start_withoutEpsilon : g.withoutEpsilon.start = g.start :=
  rfl

@[simp] theorem terminals_withoutEpsilon : g.withoutEpsilon.terminals = g.terminals :=
  rfl

/-- Heads have the non-empty variants of their right sides; a nullable start symbol has the empty
right side, too. -/
theorem mem_rightsOf_withoutEpsilon {right : RightSide} :
    right ∈ g.withoutEpsilon.rightsOf X ↔
      (right ≠ [] ∧ ∃ old ∈ g.rightsOf X, right ∈ RightSide.omissions g.nullable old) ∨
        right = [] ∧ X = .nonterminal g.start ∧ X ∈ g.nullable := by
  have hmem (rights : RightSides) : right ∈ g.rightsWithoutEpsilon g.nullable X rights ↔
      (right ≠ [] ∧ ∃ old ∈ rights, right ∈ RightSide.omissions g.nullable old) ∨
        right = [] ∧ X = .nonterminal g.start ∧ X ∈ g.nullable := by
    rw [rightsWithoutEpsilon]
    by_cases hX : X = .nonterminal g.start ∧ X ∈ g.nullable
    · rw [if_pos (by simpa using hX)]
      simp only [hX.1, hX.1 ▸ hX.2, and_self, and_true]
      simp [Std.ExtTreeSet.mem_ofList, or_comm, and_comm]
    · rw [if_neg (by simpa using hX)]
      simp [Std.ExtTreeSet.mem_ofList, hX, and_comm]
  rw [withoutEpsilon, mem_rightsOf_map]
  simp only [hmem, mem_rightsOf]
  constructor
  · rintro ⟨rights, hentry, ⟨hne, old, hold, hvariant⟩ | hstart⟩
    · exact .inl ⟨hne, old, ⟨rights, hentry, hold⟩, hvariant⟩
    · exact .inr hstart
  · rintro (⟨hne, old, ⟨rights, hentry, hold⟩, hvariant⟩ | hstart)
    · exact ⟨rights, hentry, .inl ⟨hne, old, hold, hvariant⟩⟩
    · have hX : X ∈ g.productions := mem_heads.1 (Fixpoint.least_subset hstart.2.2)
      exact ⟨_, Std.ExtTreeMap.getElem?_eq_some_getElem hX, .inr hstart⟩

theorem WellFormed.rightsWithoutEpsilon_known (h : g.WellFormed) {rights : RightSides}
    (hentry : g.productions[X]? = some rights) :
    ∀ right ∈ g.rightsWithoutEpsilon g.nullable X rights, ∀ Y ∈ right, g.has Y = true := by
  intro right hright Y hY
  have hright' : right ∈ g.withoutEpsilon.rightsOf X := by
    rw [withoutEpsilon, mem_rightsOf_map]
    exact ⟨rights, hentry, hright⟩
  rcases mem_rightsOf_withoutEpsilon.1 hright' with ⟨-, old, hold, hvariant⟩ | ⟨rfl, -⟩
  · exact h.closed X old hold Y (RightSide.mem_of_mem_omissions hvariant hY)
  · cases hY

theorem WellFormed.withoutEpsilon (h : g.WellFormed) : g.withoutEpsilon.WellFormed :=
  h.map fun _ _ hentry => h.rightsWithoutEpsilon_known hentry

theorem epsilonAtStart_withoutEpsilon : g.withoutEpsilon.EpsilonAtStart := by
  intro X hX
  rcases mem_rightsOf_withoutEpsilon.1 hX with ⟨hne, -⟩ | ⟨-, hstart, -⟩
  · exact absurd rfl hne
  · exact hstart

/-- The start symbol keeps the empty right side exactly if it derives the empty string. -/
theorem nil_mem_rightsOf_withoutEpsilon (h : g.WellFormed) :
    [] ∈ g.withoutEpsilon.rightsOf (.nonterminal g.start) ↔ g.Generates [] := by
  rw [mem_rightsOf_withoutEpsilon, mem_nullable h]
  simp [Generates, Derives]

/-- What a variant yields, the right side yields, since the symbols left out are nullable. -/
theorem Yields.of_omission (h : g.WellFormed) {variant right : RightSide}
    (hvariant : variant ∈ RightSide.omissions g.nullable right) (hw : g.Yields variant w) :
    g.Yields right w := by
  induction right generalizing variant w with
  | nil =>
    obtain rfl := List.mem_singleton.1 hvariant
    exact hw
  | cons X right ih =>
    rcases RightSide.mem_omissions_cons.1 hvariant with ⟨rest, hrest, rfl⟩ | ⟨hX, hrest⟩
    · obtain ⟨u, v, rfl, hu, hv⟩ := yields_cons_iff.1 hw
      exact hu.append (ih hrest hv)
    · exact ((mem_nullable h).1 hX).append (ih hrest hw)

theorem Yields.of_withoutEpsilon (h : g.WellFormed) (hw : g.withoutEpsilon.Yields form w) :
    g.Yields form w := by
  refine hw.transfer fun A right v hright _ hv => ?_
  rcases mem_rightsOf_withoutEpsilon.1 hright with ⟨-, old, hold, hvariant⟩ | ⟨rfl, -, hA⟩
  · exact derives_iff.2 ⟨old, hold, hv.of_omission h hvariant⟩
  · cases hv
    exact (mem_nullable h).1 hA

/-- What a form yields, one of its variants yields without epsilon rules. -/
theorem Yields.exists_omission (hw : g.Yields form w) :
    ∃ variant ∈ RightSide.omissions g.nullable form,
      g.withoutEpsilon.positive.Yields variant w := by
  induction hw with
  | nil => exact ⟨[], List.mem_singleton.2 rfl, .nil⟩
  | terminal _ ih =>
    obtain ⟨variant, hvariant, hw⟩ := ih
    exact ⟨_, RightSide.mem_omissions_cons.2 (.inl ⟨variant, hvariant, rfl⟩), hw.terminal⟩
  | @nonterminal A right form v w hright _ _ ihv ihw =>
    obtain ⟨variant, hvariant, hv⟩ := ihv
    obtain ⟨rest, hrest, hw⟩ := ihw
    -- The nonterminal is left out exactly when nothing is left of its right side.
    by_cases hnil : variant = []
    · subst hnil
      cases hv
      have hA : .nonterminal A ∈ g.nullable := mem_nullable_of_forall hright fun Y hY =>
        RightSide.mem_nullable_of_nil_mem_omissions hvariant hY
      exact ⟨rest, RightSide.mem_omissions_cons.2 (.inr ⟨hA, hrest⟩), by simpa using hw⟩
    · have hright' : variant ∈ g.withoutEpsilon.positive.rightsOf (.nonterminal A) :=
        mem_rightsOf_positive.2
          ⟨mem_rightsOf_withoutEpsilon.2 (.inl ⟨hnil, right, hright, hvariant⟩), hnil⟩
      exact ⟨_, RightSide.mem_omissions_cons.2 (.inl ⟨rest, hrest, rfl⟩),
        .nonterminal hright' hv hw⟩

/-- A non-empty string is derived without epsilon rules afterwards. -/
theorem Derives.withoutEpsilon_positive {A : Name} (hw : g.Derives A w) (hne : w ≠ []) :
    g.withoutEpsilon.positive.Derives A w := by
  obtain ⟨variant, hvariant, hv⟩ := hw.exists_omission
  rcases RightSide.mem_omissions_cons.1 hvariant with ⟨rest, hrest, rfl⟩ | ⟨-, hrest⟩
  · obtain rfl := List.mem_singleton.1 hrest
    exact hv
  · obtain rfl := List.mem_singleton.1 hrest
    cases hv
    exact absurd rfl hne

end Grammar

theorem Transform.turns_removeEpsilonRules {g : Grammar} (h : g.WellFormed) :
    removeEpsilonRules.Turns g g.nullable g.withoutEpsilon :=
  turns_current.bind ((turns_assignEach fun _ _ hentry =>
    h.rightsWithoutEpsilon_known hentry).bind Turns.pure)

end ContextFree
