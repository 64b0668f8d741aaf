import ContextFree.Proofs.Exactness

/-! # What the removal of useless heads takes away

Each of the two removals takes out the heads that its analysis does not find, apart from the start
symbol. The removal of unreachable heads leaves all rules of the others as they are; the removal of
unproductive ones takes the rules that mention a nonterminal without a string. No nonterminal that
is left loses or gains a word.
-/

namespace ContextFree

namespace Grammar

variable {g : Grammar} {X : Symbol}

/-- The second grammar is what is left of the first one when the removed heads and the lost right
sides are taken out, and the words of the nonterminals that are left are the same. -/
structure PrunesTo (g g' : Grammar) (removed : SymbolSet) (lost : RightSide → Prop) : Prop where
  start_eq : g'.start = g.start
  terminals_eq : g'.terminals = g.terminals
  head_iff : ∀ X, X ∈ g'.productions ↔ X ∈ g.productions ∧ X ∉ removed
  right_iff : ∀ X ∈ g'.productions, ∀ right,
    right ∈ g'.rightsOf X ↔ right ∈ g.rightsOf X ∧ ¬lost right
  derives_iff : ∀ A, .nonterminal A ∈ g'.productions → ∀ w, g'.Derives A w ↔ g.Derives A w

section Unreachable

variable (h : g.WellFormed)
include h

theorem mem_unreachable_iff : X ∈ g.unreachable ↔ ∃ A, X = .nonterminal A ∧
    .nonterminal A ∈ g.productions ∧
      ∀ form, g.Reaches [.nonterminal g.start] form → .nonterminal A ∉ form := by
  rw [mem_unreachable h]
  constructor
  · rintro ⟨hX, hnot⟩
    obtain ⟨A, rfl⟩ := h.exists_nonterminal hX
    exact ⟨A, rfl, hX, by simpa [mentions_reaches_iff] using hnot⟩
  · rintro ⟨A, rfl, hA, hnot⟩
    exact ⟨hA, by simpa [mentions_reaches_iff] using hnot⟩

/-- A head that is left is reached, and whatever it derives uses heads that are reached. -/
theorem prunesTo_withoutUnreachable :
    g.PrunesTo g.withoutUnreachable g.unreachable fun _ => False where
  start_eq := rfl
  terminals_eq := rfl
  head_iff _ := mem_productions_without
  right_iff X hX right := by
    rw [mem_rightsOf_withoutUnreachable h]
    simp [reaches_of_mem_withoutUnreachable h hX]
  derives_iff A hA w := by
    have hreached := reaches_of_mem_withoutUnreachable h hA
    exact ⟨Yields.of_withoutUnreachable h, Derives.withoutUnreachable h hreached⟩

end Unreachable

section Unproductive

variable (h : g.WellFormed)
include h

theorem mem_unproductive_iff : X ∈ g.unproductive ↔ ∃ A, X = .nonterminal A ∧
    .nonterminal A ∈ g.productions ∧ A ≠ g.start ∧ ∀ w, ¬g.Derives A w := by
  rw [mem_unproductive]
  constructor
  · rintro ⟨hX, hnone, hstart⟩
    obtain ⟨A, rfl⟩ := h.exists_nonterminal hX
    rw [mem_productive h, not_exists] at hnone
    exact ⟨A, rfl, hX, by simpa using hstart, hnone⟩
  · rintro ⟨A, rfl, hA, hstart, hnone⟩
    refine ⟨hA, ?_, by simpa using hstart⟩
    rw [mem_productive h, not_exists]
    exact hnone

/-- A rule that takes part in deriving a word mentions productive nonterminals only, the start
symbol included. -/
theorem prunesTo_withoutUnproductive : g.PrunesTo g.withoutUnproductive g.unproductive
    fun right => ∃ B, .nonterminal B ∈ right ∧ ∀ w, ¬g.Derives B w where
  start_eq := rfl
  terminals_eq := rfl
  head_iff X := Std.ExtTreeMap.mem_map.trans mem_productions_without
  right_iff X hX right := by
    have hkept : X ∉ g.unproductive := (mem_productions_without.1 (Std.ExtTreeMap.mem_map.1 hX)).2
    rw [mem_rightsOf_withoutUnproductive]
    simp [hkept, mem_productive h]
  derives_iff A _ w := ⟨Yields.of_withoutUnproductive, Yields.withoutUnproductive h⟩

end Unproductive

end Grammar

namespace Transform

open Grammar

/-- The first removal gives the nonterminals that occur in no form which the start symbol reaches,
and it takes no rule from the others. The second one gives the nonterminals other than the start
symbol that derive no string, and it takes the rules that mention a nonterminal without a string,
which may be the start symbol. What is left derives what it derived before. -/
theorem removals_exact {r : Revision} (h : r.grammar.WellFormed) :
    (∃ removed r', removeUnreachable.run r = .ok removed r' ∧
      (∀ X, X ∈ removed ↔ ∃ A, X = .nonterminal A ∧ .nonterminal A ∈ r.grammar.productions ∧
        ∀ form, r.grammar.Reaches [.nonterminal r.grammar.start] form → .nonterminal A ∉ form) ∧
      r.grammar.PrunesTo r'.grammar removed fun _ => False) ∧
    ∃ removed r', removeUnproductive.run r = .ok removed r' ∧
      (∀ X, X ∈ removed ↔ ∃ A, X = .nonterminal A ∧ .nonterminal A ∈ r.grammar.productions ∧
        A ≠ r.grammar.start ∧ ∀ w, ¬r.grammar.Derives A w) ∧
      r.grammar.PrunesTo r'.grammar removed
        fun right => ∃ B, .nonterminal B ∈ right ∧ ∀ w, ¬r.grammar.Derives B w := by
  constructor
  · obtain ⟨added, hrun⟩ := turns_removeUnreachable h r.added
    exact ⟨_, _, hrun, fun X => mem_unreachable_iff h, prunesTo_withoutUnreachable h⟩
  · obtain ⟨added, hrun⟩ := turns_removeUnproductive h r.added
    exact ⟨_, _, hrun, fun X => mem_unproductive_iff h, prunesTo_withoutUnproductive h⟩

open Parts

/-- The maze loses `C`, which nothing mentions, and keeps all words of `S`. When it starts from `D`,
which derives nothing, it keeps `D` without its rule and loses the rule of `S` that mentions it. -/
theorem removals_exact_maze : (maze "S").grammar.WellFormed ∧ (maze "D").grammar.WellFormed ∧
    (∃ removed r', removeUnreachable.run { grammar := (maze "S").grammar } = .ok removed r' ∧
      .nonterminal "C" ∈ removed ∧
      ∀ w, r'.grammar.Derives "S" w ↔ (maze "S").grammar.Derives "S" w) ∧
    ∃ removed r', removeUnproductive.run { grammar := (maze "D").grammar } = .ok removed r' ∧
      .nonterminal "D" ∉ removed ∧ [.terminal "b", .nonterminal "D"] ∉
        r'.grammar.rightsOf (.nonterminal "D") ∧
      [.nonterminal "A", .nonterminal "B"] ∈ r'.grammar.rightsOf (.nonterminal "S") ∧
      [.nonterminal "D", .terminal "b"] ∉ r'.grammar.rightsOf (.nonterminal "S") := by
  have hS : (maze "S").grammar.WellFormed := (fit_maze (by decide)).wellFormed
  have hD : (maze "D").grammar.WellFormed := (fit_maze (by decide)).wellFormed
  obtain ⟨⟨removed, r', hrun, hremoved, hleft⟩, -⟩ :=
    removals_exact (r := { grammar := (maze "S").grammar }) hS
  obtain ⟨-, removed', r'', hrun', hremoved', hleft'⟩ :=
    removals_exact (r := { grammar := (maze "D").grammar }) hD
  have hC : ¬∃ form, (maze "S").grammar.Reaches [.nonterminal (maze "S").grammar.start] form ∧
      .nonterminal "C" ∈ form := by
    rw [← mentions_reaches_iff, ← (reachable_eq hS).2]
    decide +kernel
  have hstart : .nonterminal "S" ∉ removed := by
    rw [hremoved]
    rintro ⟨A, heq, -, hnone⟩
    cases heq
    exact hnone _ .refl (by decide +kernel)
  have hnone : ∀ w, ¬(maze "D").grammar.Derives "D" w := by
    rw [← not_exists, ← mem_productive hD]
    decide +kernel
  have hsome : ∀ A ∈ ["S", "A", "B"], ∃ w, (maze "D").grammar.Derives A w := by
    intro A hA
    rw [← mem_productive hD]
    revert A
    decide +kernel
  have hkept : .nonterminal "S" ∈ r''.grammar.productions := by
    refine (hleft'.head_iff _).2 ⟨by decide +kernel, ?_⟩
    rw [hremoved']
    rintro ⟨A, heq, -, -, hempty⟩
    cases heq
    obtain ⟨w, hw⟩ := hsome "S" (by decide)
    exact hempty w hw
  refine ⟨hS, hD, ⟨removed, r', hrun, ?_, ?_⟩, removed', r'', hrun', ?_, ?_, ?_, ?_⟩
  · exact (hremoved _).2 ⟨"C", rfl, by decide +kernel, by simpa using hC⟩
  · exact hleft.derives_iff "S" ((hleft.head_iff _).2 ⟨by decide +kernel, hstart⟩)
  · rw [hremoved']
    rintro ⟨A, heq, -, hne, -⟩
    cases heq
    exact hne (by decide +kernel)
  · intro hright
    have hhead := mem_productions_of_mem_rightsOf hright
    exact ((hleft'.right_iff _ hhead _).1 hright).2 ⟨"D", by simp, hnone⟩
  · refine (hleft'.right_iff _ hkept _).2 ⟨by decide +kernel, ?_⟩
    rintro ⟨B, hB, hempty⟩
    obtain ⟨w, hw⟩ := hsome B (by simp at hB; rcases hB with rfl | rfl <;> decide)
    exact hempty w hw
  · intro hright
    exact ((hleft'.right_iff _ hkept _).1 hright).2 ⟨"D", by simp, hnone⟩

end Transform

end ContextFree
