import ContextFree.Proofs.Usefulness
import Mathlib.Logic.Relation

/-! # What the four analyses find

The fixpoints hold the nonterminals that derive the empty string and those that derive some
string. The searches hold the nonterminals that occur in what the start symbol derives and those
to which unit rules lead. Terminals are found by none of them.
-/

namespace ContextFree

namespace Grammar

variable {g : Grammar} {A : Name} {X : Symbol}

/-- One nonterminal may be replaced by the other one alone. -/
def UnitRule (g : Grammar) (A B : Name) : Prop :=
  [.nonterminal B] ∈ g.rightsOf (.nonterminal A)

theorem mem_nullable_iff_exists (h : g.WellFormed) :
    X ∈ g.nullable ↔ ∃ A, X = .nonterminal A ∧ g.Derives A [] := by
  rw [mem_nullable h]
  cases X with
  | nonterminal A => simp [Derives]
  | terminal a =>
    constructor
    · intro hnil
      cases hnil
    · simp

theorem mem_productive_iff_exists (h : g.WellFormed) :
    X ∈ g.productive ↔ ∃ A, X = .nonterminal A ∧ ∃ w, g.Derives A w := by
  constructor
  · intro hX
    have hhead : X ∈ g.productions := mem_heads.1 (Fixpoint.least_subset hX)
    obtain ⟨A, rfl⟩ := h.exists_nonterminal hhead
    exact ⟨A, rfl, (mem_productive h).1 hX⟩
  · rintro ⟨A, rfl, hA⟩
    exact (mem_productive h).2 hA

theorem mentions_reaches_iff_exists : g.mentions.Reaches (.nonterminal A) X ↔
    ∃ B, X = .nonterminal B ∧ ∃ form, g.Reaches [.nonterminal A] form ∧ .nonterminal B ∈ form := by
  constructor
  · intro hX
    have hkind : X.isTerminal = false := by
      induction hX using reaches_induction with
      | root => rfl
      | step => rfl
    rw [Symbol.eq_nonterminal hkind] at hX
    exact ⟨X.name, Symbol.eq_nonterminal hkind, mentions_reaches_iff.1 hX⟩
  · rintro ⟨B, rfl, hB⟩
    exact mentions_reaches_iff.2 hB

/-- A chain of unit steps is a chain of unit rules. -/
theorem unitSteps_reaches_iff : g.unitSteps.Reaches (.nonterminal A) X ↔
    ∃ B, X = .nonterminal B ∧ Relation.ReflTransGen g.UnitRule A B := by
  constructor
  · intro hX
    induction hX with
    | root => exact ⟨A, rfl, .refl⟩
    | step _ hentry hmem ih =>
      obtain ⟨B, rfl, hB⟩ := ih
      obtain ⟨C, rfl, hright⟩ := exists_unitSteps_iff.1 ⟨_, hentry, hmem⟩
      exact ⟨C, rfl, hB.tail hright⟩
  · rintro ⟨B, rfl, hB⟩
    induction hB with
    | refl => exact .root
    | tail _ hright ih =>
      obtain ⟨children, hentry, hmem⟩ := exists_unitSteps_iff.2 ⟨_, rfl, hright⟩
      exact ih.step hentry hmem

/-- The nullable symbols are the nonterminals that derive the empty string, and the productive ones
those that derive some string. The search from the start symbol succeeds and finds the nonterminals
that occur in a form which the start symbol reaches; the search from any other head along unit
rules succeeds and finds the nonterminals that it derives by such rules alone, itself included. -/
theorem analyses_exact (h : g.WellFormed) :
    (∀ X, X ∈ g.nullable ↔ ∃ A, X = .nonterminal A ∧ g.Derives A []) ∧
    (∀ X, X ∈ g.productive ↔ ∃ A, X = .nonterminal A ∧ ∃ w, g.Derives A w) ∧
    (∃ reached, g.reachable = .ok reached ∧ ∀ X, X ∈ reached ↔ ∃ A, X = .nonterminal A ∧
      ∃ form, g.Reaches [.nonterminal g.start] form ∧ .nonterminal A ∈ form) ∧
    ∀ A, .nonterminal A ∈ g.productions → ∃ closure,
      g.unitClosure (.tagged (.nonterminal A)) = .ok closure ∧
        ∀ X, X ∈ closure ↔ ∃ B, X = .nonterminal B ∧ Relation.ReflTransGen g.UnitRule A B := by
  refine ⟨fun X => mem_nullable_iff_exists h, fun X => mem_productive_iff_exists h, ?_,
    fun A hA => ?_⟩
  · obtain ⟨reached, hreached, hmem⟩ := reachable_eq_ok h
    exact ⟨reached, hreached, fun X => (hmem X).trans mentions_reaches_iff_exists⟩
  · obtain ⟨hclosure, hmem⟩ := search_unitSteps h hA
    exact ⟨_, hclosure, fun X => (hmem X).trans unitSteps_reaches_iff⟩

end Grammar

namespace Parts

/-- The parts of the grammar `S → AB | Db, A → B | ε, B → A | b, C → c, D → bD`: `A` and `B` derive
each other by unit rules, and `D` derives no string. -/
def maze (start : Name) : Parts where
  nonterminals := ["S", "A", "B", "C", "D"]
  terminals := ["b", "c"]
  start := start
  productions := [
    ("S", [[.nonterminal "A", .nonterminal "B"], [.nonterminal "D", .terminal "b"]]),
    ("A", [[.nonterminal "B"], []]), ("B", [[.nonterminal "A"], [.terminal "b"]]),
    ("C", [[.terminal "c"]]), ("D", [[.terminal "b", .nonterminal "D"]])]

theorem fit_maze {start : Name} (hstart : start ∈ ["S", "A", "B", "C", "D"]) : (maze start).Fit :=
  fit_of_listed hstart (by simp [maze]) (by simp [maze])

end Parts

namespace Grammar

open Parts

/-- In the maze the empty string takes two ways through unit rules, a nonterminal is found that
derives nothing, and one that derives a string is not found. -/
theorem analyses_exact_maze : (maze "S").grammar.WellFormed ∧
    (maze "S").grammar.Derives "S" [] ∧ (∀ w, ¬(maze "S").grammar.Derives "D" w) ∧
    (∃ form, (maze "S").grammar.Reaches [.nonterminal "S"] form ∧ .nonterminal "D" ∈ form) ∧
    (∀ form, (maze "S").grammar.Reaches [.nonterminal "S"] form → .nonterminal "C" ∉ form) ∧
    Relation.ReflTransGen (maze "S").grammar.UnitRule "A" "B" := by
  have hwell : (maze "S").grammar.WellFormed := (fit_maze (by decide)).wellFormed
  have hA : .nonterminal "A" ∈ (maze "S").grammar.productions := by decide +kernel
  obtain ⟨hnullable, hproductive, ⟨reached, hreached, hmem⟩, hclosures⟩ := analyses_exact hwell
  obtain ⟨closure, hclosure, hunit⟩ := hclosures "A" hA
  have hfound : reached = (maze "S").grammar.reachableSet := by
    rw [(reachable_eq hwell).1] at hreached
    cases hreached
    rfl
  have hchain : closure = (maze "S").grammar.unitClosureOf (.nonterminal "A") := by
    rw [unitClosure, (search_unitSteps hwell hA).1] at hclosure
    cases hclosure
    rfl
  subst hfound
  subst hchain
  have hstart : (maze "S").grammar.start = "S" := start_grammar
  rw [hstart] at hmem
  refine ⟨hwell, ?_, ?_, ?_, ?_, ?_⟩
  · simpa using (hnullable (.nonterminal "S")).1 (by decide +kernel)
  · have hD : .nonterminal "D" ∉ (maze "S").grammar.productive := by decide +kernel
    simpa [hproductive] using hD
  · simpa using (hmem (.nonterminal "D")).1 (by decide +kernel)
  · have hC : .nonterminal "C" ∉ (maze "S").grammar.reachableSet := by decide +kernel
    simpa [hmem] using hC
  · simpa using (hunit (.nonterminal "B")).1 (by decide +kernel)

end Grammar

end ContextFree
