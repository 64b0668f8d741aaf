import ContextFree.Isolation
import ContextFree.Proofs.Abbreviation

/-! # Isolating terminals

The minted nonterminals abbreviate the terminals that they stand for, and no terminal is
left in a right side of two or more symbols.
-/

namespace ContextFree

namespace RightSide

variable {wrappers : Wrappers} {right : RightSide}

theorem length_isolate : (isolate wrappers right).length = right.length := by
  rw [isolate]
  split <;> simp

theorem isolate_eq_self (h : right.length < 2) : isolate wrappers right = right :=
  if_neg (by omega)

theorem expand_map_wrap {f : Name → RightSide}
    (hwrapped : ∀ a T, wrappers[a]? = some T → f T = [.terminal a])
    (hold : ∀ A, .nonterminal A ∈ right → f A = [.nonterminal A]) :
    expand f (right.map (Symbol.wrap wrappers)) = right := by
  induction right with
  | nil => rfl
  | cons X right ih =>
    have hrest := ih fun A hA => hold A (List.mem_cons_of_mem _ hA)
    cases X with
    | nonterminal A =>
      rw [List.map_cons, Symbol.wrap, expand, hrest, hold A List.mem_cons_self,
        List.singleton_append]
    | terminal a =>
      rw [List.map_cons, Symbol.wrap]
      cases hT : wrappers[a]? with
      | none => rw [Option.elim_none, expand, hrest]
      | some T => rw [Option.elim_some, expand, hrest, hwrapped a T hT, List.singleton_append]

theorem expand_isolate {f : Name → RightSide}
    (hwrapped : ∀ a T, wrappers[a]? = some T → f T = [.terminal a])
    (hold : ∀ A, .nonterminal A ∈ right → f A = [.nonterminal A]) :
    expand f (isolate wrappers right) = right := by
  rw [isolate]
  split
  · exact expand_map_wrap hwrapped hold
  · exact expand_eq_self hold

theorem terminal_mem_isolate {a : Name} (hlength : 2 ≤ right.length)
    (ha : .terminal a ∈ isolate wrappers right) : .terminal a ∈ right ∧ wrappers[a]? = none := by
  rw [isolate, if_pos hlength] at ha
  obtain ⟨X, hX, hwrap⟩ := List.mem_map.1 ha
  cases X with
  | nonterminal A => cases hwrap
  | terminal b =>
    rw [Symbol.wrap] at hwrap
    cases hT : wrappers[b]? with
    | none =>
      rw [hT, Option.elim_none] at hwrap
      cases hwrap
      exact ⟨hX, hT⟩
    | some T =>
      rw [hT, Option.elim_some] at hwrap
      cases hwrap

theorem mem_isolate {Y : Symbol} (hY : Y ∈ isolate wrappers right) :
    Y ∈ right ∨ ∃ (a T : Name), wrappers[a]? = some T ∧ Y = .nonterminal T := by
  rw [isolate] at hY
  split at hY
  · obtain ⟨X, hX, rfl⟩ := List.mem_map.1 hY
    cases X with
    | nonterminal A => exact .inl hX
    | terminal a =>
      rw [Symbol.wrap]
      cases hT : wrappers[a]? with
      | none => exact .inl hX
      | some T => exact .inr ⟨a, T, hT, rfl⟩
  · exact .inl hY

/-- The right sides of a head after isolation. -/
def isolateAll (wrappers : Wrappers) (rights : RightSides) : RightSides :=
  .ofList (rights.toList.map (isolate wrappers))

theorem mem_isolateAll {rights : RightSides} :
    right ∈ isolateAll wrappers rights ↔ ∃ old ∈ rights, isolate wrappers old = right := by
  simp [isolateAll, Std.ExtTreeSet.mem_ofList]

end RightSide

namespace Grammar

variable {g : Grammar} {wrappers : Wrappers} {glossary : Glossary} {s : NameSupply}

theorem nodup_mixedTerminals : g.mixedTerminals.toList.Nodup :=
  nodup_toList _

theorem mem_mixedTerminals {a : Name} : a ∈ g.mixedTerminals ↔
    ∃ X, ∃ right ∈ g.rightsOf X, 2 ≤ right.length ∧ .terminal a ∈ right := by
  simp only [mixedTerminals, NameSet.of, Std.ExtTreeSet.mem_ofList, List.contains_iff_mem,
    List.mem_map, List.mem_flatMap, List.mem_filter, decide_eq_true_eq, RightSide.terminals,
    mem_allRights]
  constructor
  · rintro ⟨Y, ⟨right, ⟨⟨X, hright⟩, hlength⟩, hY, hterminal⟩, rfl⟩
    cases Y with
    | nonterminal A => cases hterminal
    | terminal a => exact ⟨X, right, hright, hlength, hY⟩
  · rintro ⟨X, right, hright, hlength, ha⟩
    exact ⟨.terminal a, ⟨right, ⟨⟨X, hright⟩, hlength⟩, ha, rfl⟩, rfl⟩

/-- The glossary lists the nonterminals that stand for the terminals `names`, which belong to
the grammar, under names that the supply has for them. -/
structure Wraps (g : Grammar) (s : NameSupply) (names : List Name) (wrappers : Wrappers)
    (glossary : Glossary) : Prop where
  known : ∀ a ∈ names, a ∈ g.terminals
  fresh : g.Fresh (glossary.map Prod.fst)
  form_eq : ∀ T form, (T, form) ∈ glossary →
    ∃ a ∈ names, form = [.terminal a] ∧ ∃ i, T = s.wrapperSeries a i
  mem : ∀ (a T : Name), wrappers[a]? = some T → (T, [.terminal a]) ∈ glossary
  of_mem : names.Nodup → ∀ a T, (T, [.terminal a]) ∈ glossary → wrappers[a]? = some T
  covers : ∀ a ∈ names, wrappers[a]? ≠ none

/-- The grammar with isolated terminals. -/
def isolated (g : Grammar) (wrappers : Wrappers) (glossary : Glossary) : Grammar :=
  { g.extend glossary.entries with
    productions := (g.extend glossary.entries).productions.map fun _ rights =>
      RightSide.isolateAll wrappers rights }

@[simp] theorem start_isolated : (g.isolated wrappers glossary).start = g.start :=
  rfl

@[simp] theorem terminals_isolated : (g.isolated wrappers glossary).terminals = g.terminals :=
  rfl

theorem mem_productions_isolated {X : Symbol} : X ∈ (g.isolated wrappers glossary).productions ↔
    X ∈ g.productions ∨ ∃ T ∈ glossary.map Prod.fst, X = .nonterminal T := by
  rw [← Glossary.map_fst_entries, ← mem_productions_extend]
  exact Std.ExtTreeMap.mem_map

namespace Wraps

variable {names : List Name} (hw : g.Wraps s names wrappers glossary)
include hw

theorem wellFormed_extend (h : g.WellFormed) : (g.extend glossary.entries).WellFormed := by
  refine h.extend (by simpa using hw.fresh) fun T rights hT right hright Y hY => ?_
  obtain ⟨form, hform, rfl⟩ := Glossary.mem_entries.1 hT
  obtain ⟨a, ha, rfl, -⟩ := hw.form_eq T form hform
  rw [mem_singleton.1 hright, List.mem_singleton] at hY
  exact has_extend.2 (.inl (by simp [hY, has, hw.known a ha]))

theorem isolateAll_known (h : g.WellFormed) {X : Symbol} {rights : RightSides}
    (hX : (g.extend glossary.entries).productions[X]? = some rights) :
    ∀ right ∈ RightSide.isolateAll wrappers rights, ∀ Y ∈ right,
      (g.extend glossary.entries).has Y = true := by
  intro right hright Y hY
  obtain ⟨old, hold, rfl⟩ := RightSide.mem_isolateAll.1 hright
  rcases RightSide.mem_isolate hY with hY | ⟨a, T, hT, rfl⟩
  · exact (hw.wellFormed_extend h).closed X old (mem_rightsOf.2 ⟨rights, hX, hold⟩) Y hY
  · refine has_extend.2 (.inr ⟨T, ?_, rfl⟩)
    rw [Glossary.map_fst_entries]
    exact List.mem_map.2 ⟨_, hw.mem a T hT, rfl⟩

theorem wellFormed_isolated (h : g.WellFormed) : (g.isolated wrappers glossary).WellFormed :=
  (hw.wellFormed_extend h).map fun _ _ hX => hw.isolateAll_known h hX

/-- The old right sides are isolated, and each minted nonterminal has its terminal. -/
theorem mem_rightsOf_isolated {X : Symbol} {right : RightSide} :
    right ∈ (g.isolated wrappers glossary).rightsOf X ↔
      (∃ old ∈ g.rightsOf X, RightSide.isolate wrappers old = right) ∨
        ∃ T, X = .nonterminal T ∧ (T, right) ∈ glossary := by
  have hself (T : Name) (form : RightSide) (hT : (T, form) ∈ glossary) :
      RightSide.isolate wrappers form = form := by
    obtain ⟨a, -, rfl, -⟩ := hw.form_eq T form hT
    exact RightSide.isolate_eq_self (by simp)
  have hold : right ∈ (g.isolated wrappers glossary).rightsOf X ↔
      ∃ old ∈ (g.extend glossary.entries).rightsOf X, RightSide.isolate wrappers old = right := by
    rw [isolated, mem_rightsOf_map]
    simp only [RightSide.mem_isolateAll, mem_rightsOf]
    constructor
    · rintro ⟨rights, hentry, old, hmem, rfl⟩
      exact ⟨old, ⟨rights, hentry, hmem⟩, rfl⟩
    · rintro ⟨old, ⟨rights, hentry, hmem⟩, rfl⟩
      exact ⟨rights, hentry, old, hmem, rfl⟩
  rw [hold]
  constructor
  · rintro ⟨old, hmem, rfl⟩
    rcases (Glossary.mem_rightsOf_extend hw.fresh).1 hmem with hmem | ⟨T, rfl, hT⟩
    · exact .inl ⟨old, hmem, rfl⟩
    · exact .inr ⟨T, rfl, (hself T old hT).symm ▸ hT⟩
  · rintro (⟨old, hmem, rfl⟩ | ⟨T, rfl, hT⟩)
    · exact ⟨old, (Glossary.mem_rightsOf_extend hw.fresh).2 (.inl hmem), rfl⟩
    · exact ⟨right, (Glossary.mem_rightsOf_extend hw.fresh).2 (.inr ⟨T, rfl, hT⟩), hself T right hT⟩

theorem expand_isolate (h : g.WellFormed) {X : Symbol} {right : RightSide}
    (hright : right ∈ g.rightsOf X) :
    RightSide.expand glossary.meaning (RightSide.isolate wrappers right) = right := by
  refine RightSide.expand_isolate (fun a T hT => ?_) fun A hA => ?_
  · exact Glossary.meaning_eq hw.fresh.nodup (hw.mem a T hT)
  · exact Glossary.meaning_eq_self fun hmem =>
      hw.fresh.notMem_productions hmem (h.mem_productions hright hA)

/-- The minted nonterminals abbreviate the terminals that they stand for. -/
theorem abbreviates_isolated (h : g.WellFormed) :
    (g.isolated wrappers glossary).Abbreviates g glossary := by
  refine ⟨rfl, hw.fresh, ?_, ?_, ?_, ?_⟩
  · intro T form hT
    obtain ⟨a, -, rfl, -⟩ := hw.form_eq T form hT
    exact List.cons_ne_nil _ _
  · intro X right hright
    exact ⟨_, hw.mem_rightsOf_isolated.2 (.inl ⟨right, hright, rfl⟩), hw.expand_isolate h hright⟩
  · intro T form hT
    obtain ⟨a, -, rfl, -⟩ := hw.form_eq T form hT
    exact ⟨[.terminal a], hw.mem_rightsOf_isolated.2 (.inr ⟨T, rfl, hT⟩), by simp, rfl⟩
  · intro X right hright
    rcases hw.mem_rightsOf_isolated.1 hright with ⟨old, hold, rfl⟩ | ⟨T, rfl, hT⟩
    · exact .inl ((hw.expand_isolate h hold).symm ▸ hold)
    · obtain ⟨a, -, rfl, -⟩ := hw.form_eq T right hT
      exact .inr ⟨T, rfl, hT⟩

theorem epsilonAtStart_isolated (hepsilon : g.EpsilonAtStart) :
    (g.isolated wrappers glossary).EpsilonAtStart := by
  intro X hX
  rcases hw.mem_rightsOf_isolated.1 hX with ⟨old, hold, heq⟩ | ⟨T, rfl, hT⟩
  · have hlength := congrArg List.length heq
    rw [RightSide.length_isolate, List.length_nil, List.length_eq_zero_iff] at hlength
    exact hepsilon X (hlength ▸ hold)
  · obtain ⟨a, -, hform, -⟩ := hw.form_eq T [] hT
    cases hform

theorem unitFree_isolated (hunit : g.UnitFree) : (g.isolated wrappers glossary).UnitFree := by
  intro X B hX
  rcases hw.mem_rightsOf_isolated.1 hX with ⟨old, hold, heq⟩ | ⟨T, rfl, hT⟩
  · have hlength := congrArg List.length heq
    rw [RightSide.length_isolate, List.length_singleton] at hlength
    rw [RightSide.isolate_eq_self (by omega)] at heq
    exact hunit X B (heq ▸ hold)
  · obtain ⟨a, -, hform, -⟩ := hw.form_eq T _ hT
    cases hform

end Wraps

/-- No terminal is left in a longer right side when all those that occur there have a
nonterminal that stands for them. -/
theorem Wraps.terminalsIsolated (hw : g.Wraps s g.mixedTerminals.toList wrappers glossary) :
    (g.isolated wrappers glossary).TerminalsIsolated := by
  intro X right hright hlength a ha
  rcases hw.mem_rightsOf_isolated.1 hright with ⟨old, hold, rfl⟩ | ⟨T, rfl, hT⟩
  · rw [RightSide.length_isolate] at hlength
    obtain ⟨ha, hnone⟩ := RightSide.terminal_mem_isolate hlength ha
    exact hw.covers a
      (Std.ExtTreeSet.mem_toList.2 (mem_mixedTerminals.2 ⟨X, old, hold, hlength, ha⟩)) hnone
  · obtain ⟨b, -, rfl, -⟩ := hw.form_eq T right hT
    simp at hlength

theorem Wraps.nil : g.Wraps s [] ∅ [] where
  known := by simp
  fresh := ⟨List.nodup_nil, by simp⟩
  form_eq := by simp
  mem := by simp
  of_mem := by simp
  covers := by simp

/-- One more terminal can be given a nonterminal whose name is still free. -/
theorem Wraps.cons {a T : Name} {names : List Name} (ha : a ∈ g.terminals)
    (hfree : g.uses T = false) (hseries : ∃ i, T = s.wrapperSeries a i)
    (hw : (g.extend [(T, {[.terminal a]})]).Wraps s names wrappers glossary) :
    g.Wraps s (a :: names) (wrappers.insert a T) ((T, [.terminal a]) :: glossary) where
  known := List.forall_mem_cons.2 ⟨ha, hw.known⟩
  fresh := (fresh_singleton.2 hfree).append hw.fresh
  form_eq := by
    intro T' form hmem
    rcases List.mem_cons.1 hmem with heq | hmem
    · cases heq
      exact ⟨a, List.mem_cons_self, rfl, hseries⟩
    · obtain ⟨b, hb, hform, hseries⟩ := hw.form_eq T' form hmem
      exact ⟨b, List.mem_cons_of_mem _ hb, hform, hseries⟩
  mem := by
    intro b T' hb
    rw [Std.ExtTreeMap.getElem?_insert] at hb
    split at hb
    next heq =>
      cases hb
      rw [Std.LawfulEqOrd.eq_of_compare heq]
      exact List.mem_cons_self
    next => exact List.mem_cons_of_mem _ (hw.mem b T' hb)
  of_mem := by
    intro hnodup b T' hmem
    obtain ⟨hfirst, hnodup⟩ := List.nodup_cons.1 hnodup
    rw [Std.ExtTreeMap.getElem?_insert]
    rcases List.mem_cons.1 hmem with heq | hmem
    · cases heq
      rw [if_pos Std.ReflOrd.compare_self]
    · obtain ⟨c, hc, heq, -⟩ := hw.form_eq T' _ hmem
      cases heq
      -- No terminal is listed twice, so the wrapper of `a` takes the place of no other one.
      have hne : compare a b ≠ .eq := fun hcompare =>
        hfirst (Std.LawfulEqOrd.eq_of_compare hcompare ▸ hc)
      rw [if_neg hne, hw.of_mem hnodup b T' hmem]
  covers := by
    intro b hb
    rw [Std.ExtTreeMap.getElem?_insert]
    split
    next => simp
    next hne =>
      rcases List.mem_cons.1 hb with rfl | hb
      · exact absurd Std.ReflOrd.compare_self hne
      · exact hw.covers b hb

end Grammar

namespace Minting

open Grammar

variable {g : Grammar} {s : NameSupply}

theorem turns_wrap {a T : Name} (ha : a ∈ g.terminals) (hT : s.wrapperName g a = T) :
    (wrapper a).Turns g s T (g.extend [(T, ∅)]) s ∧
      (Transform.assign (.nonterminal T) {[.terminal a]}).Turns (g.extend [(T, ∅)]) ()
        (g.extend [(T, {[.terminal a]})]) := by
  refine ⟨hT ▸ turns_wrapper, Transform.turns_assign_extend fun right hright Y hY => ?_⟩
  rw [mem_singleton.1 hright, List.mem_singleton] at hY
  exact has_extend.2 (.inl (by simp [hY, has, ha]))

/-- Nonterminals that stand for terminals of the grammar can always be minted. -/
theorem turns_wrapAll {names : List Name} (hknown : ∀ a ∈ names, a ∈ g.terminals) :
    ∃ wrappers glossary, g.Wraps s names wrappers glossary ∧
      (wrapAll names).Turns g s wrappers (g.extend glossary.entries) s := by
  -- The nonterminals minted so far belong to the grammar in which the next name has to be free.
  induction names generalizing g with
  | nil => exact ⟨∅, [], .nil, Turns.pure⟩
  | cons a names ih =>
    have ha : a ∈ g.terminals := hknown a List.mem_cons_self
    generalize hT : s.wrapperName g a = T
    have hfree : g.uses T = false := hT ▸ NameSupply.uses_wrapperName a
    obtain ⟨wrappers, glossary, hw, hrest⟩ :=
      ih (g := g.extend [(T, {[.terminal a]})]) fun b hb => hknown b (List.mem_cons_of_mem _ hb)
    refine ⟨wrappers.insert a T, (T, [.terminal a]) :: glossary, .cons ha hfree ⟨_, hT.symm⟩ hw, ?_⟩
    obtain ⟨hmint, hassign⟩ := turns_wrap ha hT
    rw [Glossary.entries, List.map_cons, extend_cons]
    exact hmint.bind ((turns_transform hassign).bind (hrest.bind Turns.pure))

theorem turns_wrapAll_mixedTerminals (h : g.WellFormed) : ∃ wrappers glossary,
    g.Wraps s g.mixedTerminals.toList wrappers glossary ∧
      (wrapAll g.mixedTerminals.toList).Turns g s wrappers (g.extend glossary.entries) s := by
  refine turns_wrapAll fun a ha => ?_
  obtain ⟨X, right, hright, -, ha⟩ := mem_mixedTerminals.1 (Std.ExtTreeSet.mem_toList.1 ha)
  exact h.has_terminal.1 (h.closed X right hright _ ha)

theorem turns_isolateTerminals_of_wraps (h : g.WellFormed) {wrappers : Wrappers}
    {glossary : Glossary} (hw : g.Wraps s g.mixedTerminals.toList wrappers glossary)
    (hwrap : (wrapAll g.mixedTerminals.toList).Turns g s wrappers (g.extend glossary.entries) s) :
    isolateTerminals.Turns g s wrappers (g.isolated wrappers glossary) s :=
  Turns.get_bind fun _ => hwrap.bind ((turns_transform
    (Transform.turns_assignEach fun _ _ hX => hw.isolateAll_known h hX)).bind Turns.pure)

theorem turns_isolateTerminals (h : g.WellFormed) : ∃ wrappers glossary,
    g.Wraps s g.mixedTerminals.toList wrappers glossary ∧
      isolateTerminals.Turns g s wrappers (g.isolated wrappers glossary) s := by
  obtain ⟨wrappers, glossary, hw, hwrap⟩ := turns_wrapAll_mixedTerminals h
  exact ⟨wrappers, glossary, hw, turns_isolateTerminals_of_wraps h hw hwrap⟩

end Minting

end ContextFree
