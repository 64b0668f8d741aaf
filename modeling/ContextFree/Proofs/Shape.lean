import ContextFree.NormalForm
import ContextFree.Proofs.Analysis
import ContextFree.Proofs.Edits

/-! # Shapes of right sides

The stages of the conversion establish one property of the right sides after the other. All of
them speak of which right sides a head has, so they pass to grammars with fewer right sides.
-/

namespace ContextFree.Grammar

variable {g g' : Grammar}

/-- Only the start symbol has the empty right side. -/
def EpsilonAtStart (g : Grammar) : Prop :=
  ∀ X, [] ∈ g.rightsOf X → X = .nonterminal g.start

/-- No right side is one nonterminal. -/
def UnitFree (g : Grammar) : Prop :=
  ∀ X B, [.nonterminal B] ∉ g.rightsOf X

/-- No right side of two or more symbols contains a terminal. -/
def TerminalsIsolated (g : Grammar) : Prop :=
  ∀ X, ∀ right ∈ g.rightsOf X, 2 ≤ right.length → ∀ a, .terminal a ∉ right

/-- Every right side is one terminal, two nonterminals, or the empty one of the start symbol. -/
def InNormalForm (g : Grammar) : Prop :=
  ∀ X, ∀ right ∈ g.rightsOf X, (∃ a, right = [.terminal a]) ∨
    (∃ B C, right = [.nonterminal B, .nonterminal C]) ∨ right = [] ∧ X = .nonterminal g.start

theorem InNormalForm.epsilonAtStart (h : g.InNormalForm) : g.EpsilonAtStart := by
  intro X hX
  rcases h X [] hX with ⟨a, heq⟩ | ⟨B, C, heq⟩ | ⟨-, hstart⟩
  · cases heq
  · cases heq
  · exact hstart

section Fewer

variable (hsub : ∀ X, ∀ right ∈ g'.rightsOf X, right ∈ g.rightsOf X)
include hsub

theorem EpsilonAtStart.of_subset (h : g.EpsilonAtStart) (hstart : g'.start = g.start) :
    g'.EpsilonAtStart := fun X hX => hstart ▸ h X (hsub X [] hX)

theorem UnitFree.of_subset (h : g.UnitFree) : g'.UnitFree := fun X B hX => h X B (hsub X _ hX)

end Fewer

/-- Short right sides of a grammar with isolated terminals are in normal form. -/
theorem inNormalForm_of_short (hepsilon : g.EpsilonAtStart) (hunit : g.UnitFree)
    (hisolated : g.TerminalsIsolated) (hshort : ∀ X, ∀ right ∈ g.rightsOf X, right.length ≤ 2) :
    g.InNormalForm := by
  intro X right hright
  match right, hright with
  | [], hright => exact .inr (.inr ⟨rfl, hepsilon X hright⟩)
  | [.terminal a], _ => exact .inl ⟨a, rfl⟩
  | [.nonterminal B], hright => exact absurd hright (hunit X B)
  | [.nonterminal B, .nonterminal C], _ => exact .inr (.inl ⟨B, C, rfl⟩)
  | [.terminal a, Y], hright => exact absurd (by simp) (hisolated X _ hright (by simp) a)
  | [.nonterminal B, .terminal a], hright =>
    exact absurd (by simp) (hisolated X _ hright (by simp) a)
  | Y :: Z :: V :: right, hright =>
    have hlength := hshort X _ hright
    simp only [List.length_cons] at hlength
    omega

/-- The listing of rules finds no fault in a grammar in normal form. -/
theorem nonNormalRule?_eq_none (h : g.WellFormed) (hnormal : g.InNormalForm) :
    g.nonNormalRule? = .ok none := by
  have hnone : g.rules.find? (fun r => !r.isNormal g.start) = none := by
    rw [List.find?_eq_none]
    intro r hr
    rcases hnormal _ _ (mem_rules.1 hr) with ⟨a, hright⟩ | ⟨B, C, hright⟩ | ⟨hright, hstart⟩
    · simp [Rule.isNormal, hright]
    · simp [Rule.isNormal, hright]
    · simpa [Rule.isNormal, hright] using hstart
  simp [nonNormalRule?, listRules_eq h.heads_nonterminal, hnone, bind, Except.bind, pure,
    Except.pure]

theorem has_map {f : Symbol → RightSides → RightSides} {Y : Symbol} :
    has { g with productions := g.productions.map f } Y = g.has Y :=
  has_congr rfl fun _ => Std.ExtTreeMap.mem_map

/-- A grammar stays well-formed when its right sides are rewritten to others of its symbols. -/
theorem WellFormed.map (h : g.WellFormed) {f : Symbol → RightSides → RightSides}
    (hknown : ∀ X rights, g.productions[X]? = some rights →
      ∀ right ∈ f X rights, ∀ Y ∈ right, g.has Y = true) :
    WellFormed { g with productions := g.productions.map f } where
  start_mem := Std.ExtTreeMap.mem_map.2 h.start_mem
  heads_nonterminal X hX := h.heads_nonterminal X (Std.ExtTreeMap.mem_map.1 hX)
  disjoint A hA := h.disjoint A (Std.ExtTreeMap.mem_map.1 hA)
  closed X right hright Y hY := by
    obtain ⟨rights, hentry, hright⟩ := mem_rightsOf_map.1 hright
    rw [has_map]
    exact hknown X rights hentry right hright Y hY

end ContextFree.Grammar
