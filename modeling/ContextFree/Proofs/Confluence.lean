import ContextFree.Proofs.Exactness
import ContextFree.Proofs.Stability

/-! # Removals in any order

What a nonterminal derives is decided by the nonterminals that it reaches. So the removal of
unreachable heads neither makes another head unproductive nor keeps it from being so, and it may be
left out wherever unproductive heads are removed later on. It is needed after that, since the rules
that are dropped may have been the only ones to mention a head.
-/

namespace ContextFree

namespace Grammar

variable {g : Grammar} {X : Symbol} {right : RightSide}

theorem reaches_of_withoutUnproductive {root : Symbol}
    (hX : g.withoutUnproductive.mentions.Reaches root X) : g.mentions.Reaches root X :=
  reaches_of_kept (fun _ _ _ hright => (mem_rightsOf_withoutUnproductive.1 hright).1) hX

section Removals

variable (h : g.WellFormed)
include h

theorem WellFormed.mem_productions_of_reaches
    (hX : g.mentions.Reaches (.nonterminal g.start) X) : X ∈ g.productions := by
  induction hX using reaches_induction with
  | root => exact h.start_mem
  | step Y right B _ hright hB => exact h.mem_productions hright hB

theorem mem_productions_withoutUnreachable :
    X ∈ g.withoutUnreachable.productions ↔ g.mentions.Reaches (.nonterminal g.start) X := by
  constructor
  · exact reaches_of_mem_withoutUnreachable h
  · intro hX
    refine mem_productions_without.2 ⟨h.mem_productions_of_reaches hX, fun hremoved => ?_⟩
    exact ((mem_unreachable h).1 hremoved).2 hX

/-- The right sides that are left are those whose nonterminals all derive words: their heads do so,
too. -/
theorem mem_rightsOf_withoutUnproductive_iff : right ∈ g.withoutUnproductive.rightsOf X ↔
    right ∈ g.rightsOf X ∧ ∀ B, .nonterminal B ∈ right → ∃ w, g.Derives B w := by
  simp only [mem_rightsOf_withoutUnproductive, ← mem_productive h]
  constructor
  · exact fun ⟨hright, _, hall⟩ => ⟨hright, hall⟩
  · rintro ⟨hright, hall⟩
    refine ⟨hright, fun hremoved => ?_, hall⟩
    obtain ⟨A, rfl⟩ := h.exists_nonterminal (mem_productions_of_mem_rightsOf hright)
    obtain ⟨w, hw⟩ := exists_yields_of_forall fun B hB => (mem_productive h).1 (hall B hB)
    have hA : .nonterminal A ∈ g.productive :=
      (mem_productive h).2 ⟨w, derives_iff.2 ⟨right, hright, hw⟩⟩
    exact (mem_unproductive.1 hremoved).2.1 hA

/-- A reached head has the same productive right sides whether or not the others were removed
before. -/
theorem mem_rightsOf_removals : right ∈ g.withoutUnreachable.withoutUnproductive.rightsOf X ↔
    right ∈ g.withoutUnproductive.rightsOf X ∧ g.mentions.Reaches (.nonterminal g.start) X := by
  rw [mem_rightsOf_withoutUnproductive_iff h.withoutUnreachable,
    mem_rightsOf_withoutUnproductive_iff h, mem_rightsOf_withoutUnreachable h]
  -- What is reached derives the same words with and without the unreachable nonterminals.
  constructor
  · rintro ⟨⟨hright, hX⟩, hall⟩
    refine ⟨⟨hright, fun B hB => ?_⟩, hX⟩
    obtain ⟨w, hw⟩ := hall B hB
    exact ⟨w, hw.of_withoutUnreachable h⟩
  · rintro ⟨⟨hright, hall⟩, hX⟩
    refine ⟨⟨hright, hX⟩, fun B hB => ?_⟩
    obtain ⟨w, hw⟩ := hall B hB
    exact ⟨w, hw.withoutUnreachable h (reaches_of_mem hX hright hB)⟩

/-- The dropped rules take the same symbols out of reach whether or not the unreachable heads were
removed before. -/
theorem reaches_removals :
    g.withoutUnreachable.withoutUnproductive.mentions.Reaches (.nonterminal g.start) X ↔
      g.withoutUnproductive.mentions.Reaches (.nonterminal g.start) X := by
  constructor
  · refine reaches_of_kept fun Y _ right hright => ?_
    exact ((mem_rightsOf_removals h).1 hright).1
  · refine reaches_of_kept fun Y hY right hright => ?_
    exact (mem_rightsOf_removals h).2 ⟨hright, reaches_of_withoutUnproductive hY⟩

/-- The unreachable heads need not be removed before the unproductive ones. -/
theorem removals_withoutUnreachable :
    g.withoutUnreachable.withoutUnproductive.withoutUnreachable =
      g.withoutUnproductive.withoutUnreachable := by
  have hwell := h.withoutUnproductive
  have hwell' := h.withoutUnreachable.withoutUnproductive
  refine ext_of_rightsOf (by simp) (by simp) (fun X => ?_) fun X right => ?_
  · rw [mem_productions_withoutUnreachable hwell, mem_productions_withoutUnreachable hwell']
    exact reaches_removals h
  · rw [mem_rightsOf_withoutUnreachable hwell, mem_rightsOf_withoutUnreachable hwell',
      mem_rightsOf_removals h]
    constructor
    · rintro ⟨⟨hright, -⟩, hX⟩
      exact ⟨hright, (reaches_removals h).1 hX⟩
    · rintro ⟨hright, hX⟩
      exact ⟨⟨hright, reaches_of_withoutUnproductive hX⟩, (reaches_removals h).2 hX⟩

theorem withoutUnproductive_withoutUnproductive :
    g.withoutUnproductive.withoutUnproductive = g.withoutUnproductive :=
  (allProductive_withoutUnproductive h).withoutUnproductive_eq h.withoutUnproductive

theorem AllProductive.withoutUnreachable (hall : g.AllProductive) :
    g.withoutUnreachable.AllProductive where
  of_head A hA := by
    rcases hall.of_head A (mem_productions_without.1 hA).1 with heq | ⟨w, hw⟩
    · exact .inl heq
    · exact .inr ⟨w, hw.withoutUnreachable h (reaches_of_mem_withoutUnreachable h hA)⟩
  of_mem X right hright B hB := by
    obtain ⟨hright, hX⟩ := (mem_rightsOf_withoutUnreachable h).1 hright
    obtain ⟨w, hw⟩ := hall.of_mem X right hright B hB
    exact ⟨w, hw.withoutUnreachable h (reaches_of_mem hX hright hB)⟩

end Removals

end Grammar

/-- A removal of useless heads. -/
inductive Removal where
  | unreachable
  | unproductive
  deriving DecidableEq

namespace Removal

open Grammar

/-- Removes the heads. Gives those that were removed. -/
def run : Removal → Transform SymbolSet
  | unreachable => Transform.removeUnreachable
  | unproductive => Transform.removeUnproductive

/-- Carries out removals one after the other. -/
def runAll (order : List Removal) : Transform (List SymbolSet) :=
  order.mapM run

/-- The heads that are removed. -/
def removed (g : Grammar) : Removal → SymbolSet
  | unreachable => g.unreachable
  | unproductive => g.unproductive

/-- The grammar that is left. -/
def prune (g : Grammar) : Removal → Grammar
  | unreachable => g.withoutUnreachable
  | unproductive => g.withoutUnproductive

variable {g : Grammar} {order : List Removal}

theorem wellFormed_prune (h : g.WellFormed) (step : Removal) : (prune g step).WellFormed := by
  cases step with
  | unreachable => exact h.withoutUnreachable
  | unproductive => exact h.withoutUnproductive

theorem turns_run (h : g.WellFormed) (step : Removal) :
    step.run.Turns g (removed g step) (prune g step) := by
  cases step with
  | unreachable => exact Transform.turns_removeUnreachable h
  | unproductive => exact Transform.turns_removeUnproductive h

theorem turns_runAll (h : g.WellFormed) (order : List Removal) :
    ∃ removed, (runAll order).Turns g removed (order.foldl prune g) := by
  induction order generalizing g with
  | nil => exact ⟨[], Transform.Turns.pure⟩
  | cons step order ih =>
    obtain ⟨removed, hrest⟩ := ih (wellFormed_prune h step)
    exact ⟨_, (turns_run h step).mapM_cons hrest⟩

/-- No removal adds to what removing the unproductive and then the unreachable heads takes away. -/
theorem removals_prune (h : g.WellFormed) (step : Removal) :
    (prune g step).withoutUnproductive.withoutUnreachable =
      g.withoutUnproductive.withoutUnreachable := by
  cases step with
  | unreachable => exact removals_withoutUnreachable h
  | unproductive => rw [prune, withoutUnproductive_withoutUnproductive h]

theorem foldl_prune_eq_self (h : g.WellFormed) (hproductive : g.AllProductive)
    (hreached : g.AllReached) : order.foldl prune g = g := by
  induction order with
  | nil => rfl
  | cons step order ih =>
    cases step with
    | unreachable => rwa [List.foldl_cons, prune, hreached.withoutUnreachable_eq h]
    | unproductive => rwa [List.foldl_cons, prune, hproductive.withoutUnproductive_eq h]

/-- Once nothing is unproductive, it remains to remove the unreachable heads. -/
theorem foldl_prune_of_allProductive (h : g.WellFormed) (hproductive : g.AllProductive)
    (hmem : unreachable ∈ order) : order.foldl prune g = g.withoutUnreachable := by
  induction order with
  | nil => cases hmem
  | cons step order ih =>
    cases step with
    | unreachable =>
      exact foldl_prune_eq_self h.withoutUnreachable (hproductive.withoutUnreachable h)
        (allReached_withoutUnreachable h)
    | unproductive =>
      rw [List.foldl_cons, prune, hproductive.withoutUnproductive_eq h]
      exact ih ((List.mem_cons.1 hmem).resolve_left (nomatch ·))

/-- All that counts is that unreachable heads are removed after unproductive ones. -/
theorem foldl_prune_eq (h : g.WellFormed) (horder : [unproductive, unreachable].Sublist order) :
    order.foldl prune g = g.withoutUnproductive.withoutUnreachable := by
  induction order generalizing g with
  | nil => cases horder
  | cons step order ih =>
    rw [List.foldl_cons]
    -- A step taken before makes no difference to the two removals; once the unproductive
    -- nonterminals are gone, only the unreachable ones are left to remove.
    cases horder with
    | cons _ hrest => rw [ih (wellFormed_prune h step) hrest, removals_prune h]
    | cons_cons _ hrest =>
      exact foldl_prune_of_allProductive h.withoutUnproductive
        (allProductive_withoutUnproductive h) (List.singleton_sublist.1 hrest)

/-- Removals in two orders lead to the same grammar if in both of them unreachable heads are removed
after unproductive ones, whatever else is done before, between and after: so does the order of the
conversion, in which unreachable heads are removed first, and the one that leaves that out. The
trimming stage leaves the same grammar with and without the stage before it. -/
theorem removals_confluent {r : Revision} (h : r.grammar.WellFormed) :
    (∀ order order' : List Removal, [unproductive, unreachable].Sublist order →
      [unproductive, unreachable].Sublist order' →
      ∃ removed r₁ removed' r₂, (runAll order).run r = .ok removed r₁ ∧
        (runAll order').run r = .ok removed' r₂ ∧ r₁.grammar = r₂.grammar) ∧
    (∃ removed r₁ removed' r₂,
      (runAll [unreachable, unproductive, unreachable]).run r = .ok removed r₁ ∧
        (runAll [unproductive, unreachable]).run r = .ok removed' r₂ ∧ r₁.grammar = r₂.grammar) ∧
    ∃ details r₁ details₁ r₂ details₂ r₃,
      (Normalization.Stage.run .reachability).run r = .ok details r₁ ∧
        (Normalization.Stage.run .productivity).run r₁ = .ok details₁ r₂ ∧
        (Normalization.Stage.run .productivity).run r = .ok details₂ r₃ ∧
        r₂.grammar = r₃.grammar := by
  have horders (order order' : List Removal) (horder : [unproductive, unreachable].Sublist order)
      (horder' : [unproductive, unreachable].Sublist order') :
      ∃ removed r₁ removed' r₂, (runAll order).run r = .ok removed r₁ ∧
        (runAll order').run r = .ok removed' r₂ ∧ r₁.grammar = r₂.grammar := by
    obtain ⟨removed, hturns⟩ := turns_runAll h order
    obtain ⟨removed', hturns'⟩ := turns_runAll h order'
    obtain ⟨added, hrun⟩ := hturns r.added
    obtain ⟨added', hrun'⟩ := hturns' r.added
    have heq : order.foldl prune r.grammar = order'.foldl prune r.grammar := by
      rw [foldl_prune_eq h horder, foldl_prune_eq h horder']
    exact ⟨_, _, _, _, hrun, hrun', heq⟩
  refine ⟨horders, horders _ _ (by decide) (by decide), ?_⟩
  obtain ⟨added, hreach⟩ := Normalization.turns_reachability h r.added
  obtain ⟨added', htrim⟩ := Normalization.turns_productivity h.withoutUnreachable added
  obtain ⟨added'', halone⟩ := Normalization.turns_productivity h r.added
  exact ⟨_, _, _, _, _, _, hreach, htrim, halone, removals_withoutUnreachable h⟩

open Parts

/-- The maze that starts from `D`, which derives nothing, ends up the same with and without a
removal of unreachable heads at first, and so does the one that starts from `S` when heads are
removed more often than necessary. -/
theorem removals_confluent_maze : (maze "D").grammar.WellFormed ∧
    (∀ w, ¬(maze "D").grammar.Generates w) ∧
    (∃ removed r₁ removed' r₂,
      (runAll [unreachable, unproductive, unreachable]).run { grammar := (maze "D").grammar } =
          .ok removed r₁ ∧
        (runAll [unproductive, unreachable]).run { grammar := (maze "D").grammar } =
          .ok removed' r₂ ∧ r₁.grammar = r₂.grammar) ∧
    (maze "S").grammar.WellFormed ∧
    ∃ removed r₁ removed' r₂,
      (runAll [unproductive, unproductive, unreachable, unproductive]).run
          { grammar := (maze "S").grammar } = .ok removed r₁ ∧
        (runAll [unreachable, unproductive, unreachable]).run { grammar := (maze "S").grammar } =
          .ok removed' r₂ ∧ r₁.grammar = r₂.grammar := by
  have hD : (maze "D").grammar.WellFormed := (fit_maze (by decide)).wellFormed
  have hS : (maze "S").grammar.WellFormed := (fit_maze (by decide)).wellFormed
  have hnone : ∀ w, ¬(maze "D").grammar.Generates w := by
    rw [← not_exists]
    intro hw
    have hstart := (mem_productive hD).2 hw
    revert hstart
    decide +kernel
  exact ⟨hD, hnone, (removals_confluent (r := { grammar := (maze "D").grammar }) hD).2.1, hS,
    (removals_confluent (r := { grammar := (maze "S").grammar }) hS).1 _ _ (by decide) (by decide)⟩

end Removal

end ContextFree
