import ContextFree.Proofs.FreshNames

/-! # Nonterminals that abbreviate forms

The last stage mints nonterminals, each with one right side. Every one of them abbreviates a
form over the symbols that were there before: unfolding the abbreviations turns right sides of
the new grammar into right sides of the old one. So nothing changes for the old nonterminals,
with and without epsilon rules.
-/

namespace ContextFree

/-- New names, each with the form that it abbreviates. -/
abbrev Glossary := List (Name × RightSide)

namespace Glossary

variable {glossary : Glossary} {A : Name} {form : RightSide}

/-- The form that a name stands for: a name that abbreviates nothing stands for itself. -/
def meaning (glossary : Glossary) (A : Name) : RightSide :=
  (glossary.lookup A).getD [.nonterminal A]

theorem meaning_eq (hnodup : (glossary.map Prod.fst).Nodup) (h : (A, form) ∈ glossary) :
    glossary.meaning A = form := by
  have hsome : (glossary.lookup A).isSome := List.lookup_isSome_iff.2 ⟨_, h, by simp⟩
  obtain ⟨form', hform'⟩ := Option.isSome_iff_exists.1 hsome
  obtain ⟨before, after, rfl, -⟩ := List.lookup_eq_some_iff.1 hform'
  rw [meaning, hform', Option.getD_some]
  exact Grammar.eq_of_mem_of_nodup hnodup (by simp) h

theorem meaning_eq_self (h : A ∉ glossary.map Prod.fst) :
    glossary.meaning A = [.nonterminal A] := by
  have hnone : glossary.lookup A = none := by
    rw [List.lookup_eq_none_iff]
    rintro ⟨B, form⟩ hB
    simpa using fun heq => h (List.mem_map.2 ⟨_, hB, heq.symm⟩)
  rw [meaning, hnone, Option.getD_none]

/-- A name stands for itself or for the form it is listed with. -/
theorem meaning_cases (glossary : Glossary) (A : Name) :
    glossary.meaning A = [.nonterminal A] ∨ (A, glossary.meaning A) ∈ glossary := by
  rw [meaning]
  cases hform : glossary.lookup A with
  | none => exact .inl rfl
  | some form =>
    obtain ⟨before, after, rfl, -⟩ := List.lookup_eq_some_iff.1 hform
    exact .inr (by simp)

/-- The names of a glossary, each with the form that it is listed with as its only right side. -/
def entries (glossary : Glossary) : List (Name × RightSides) :=
  glossary.map fun (A, form) => (A, {form})

@[simp] theorem map_fst_entries : glossary.entries.map Prod.fst = glossary.map Prod.fst := by
  simp [entries]

theorem mem_entries {rights : RightSides} :
    (A, rights) ∈ glossary.entries ↔ ∃ form, (A, form) ∈ glossary ∧ rights = {form} := by
  rw [entries, List.mem_map]
  constructor
  · rintro ⟨⟨B, form⟩, hB, heq⟩
    cases heq
    exact ⟨form, hB, rfl⟩
  · rintro ⟨form, hA, rfl⟩
    exact ⟨(A, form), hA, rfl⟩

theorem mem_rightsOf_extend {g : Grammar} (h : g.Fresh (glossary.map Prod.fst)) {X : Symbol}
    {right : RightSide} : right ∈ (g.extend glossary.entries).rightsOf X ↔
      right ∈ g.rightsOf X ∨ ∃ A, X = .nonterminal A ∧ (A, right) ∈ glossary := by
  rw [Grammar.mem_rightsOf_extend (by rwa [map_fst_entries])]
  refine or_congr_right ⟨?_, ?_⟩
  · rintro ⟨A, rights, rfl, hA, hright⟩
    obtain ⟨form, hform, rfl⟩ := mem_entries.1 hA
    exact ⟨A, rfl, mem_singleton.1 hright ▸ hform⟩
  · rintro ⟨A, rfl, hA⟩
    exact ⟨A, {right}, rfl, mem_entries.2 ⟨right, hA, rfl⟩, mem_singleton.2 rfl⟩

end Glossary

namespace RightSide

variable {f : Name → RightSide} {right : RightSide}

theorem expand_eq_nil (hf : ∀ A, f A ≠ []) : expand f right = [] ↔ right = [] := by
  cases right with
  | nil => simp [expand]
  | cons X right => cases X <;> simp [expand, hf]

/-- A nonterminal of a form stands for less than the form, unless it is all of it. -/
theorem length_lt_length_expand (hf : ∀ A, f A ≠ []) {A : Name} (hA : .nonterminal A ∈ right)
    (hunit : right ≠ [.nonterminal A]) : (f A).length < (expand f right).length := by
  obtain ⟨before, after, rfl⟩ := List.append_of_mem hA
  have hrest : before ≠ [] ∨ after ≠ [] := by
    by_cases hbefore : before = []
    · subst hbefore
      exact .inr fun hafter => hunit (by rw [hafter]; rfl)
    · exact .inl hbefore
  rw [expand_append, expand, List.length_append, List.length_append]
  rcases hrest with hbefore | hafter
  · have hpos := List.length_pos_iff.2 (mt (expand_eq_nil hf).1 hbefore)
    omega
  · have hpos := List.length_pos_iff.2 (mt (expand_eq_nil hf).1 hafter)
    omega

end RightSide

namespace Grammar

variable {g g' : Grammar} {glossary : Glossary} {A : Name} {w : Word}

/-- A form yields what its unfolding yields if its nonterminals derive what they stand for. -/
theorem Yields.of_expand {f : Name → RightSide} {right : RightSide}
    (hnames : ∀ B, .nonterminal B ∈ right → ∀ v, g.Yields (f B) v → g.Derives B v)
    (h : g.Yields (RightSide.expand f right) w) : g.Yields right w := by
  induction right generalizing w with
  | nil => exact h
  | cons X right ih =>
    have hright {v : Word} := ih (w := v) fun B hB => hnames B (List.mem_cons_of_mem _ hB)
    cases X with
    | terminal a =>
      rw [RightSide.expand] at h
      cases h with
      | terminal h => exact .terminal (hright h)
    | nonterminal B =>
      rw [RightSide.expand] at h
      -- The word is cut where what `B` stands for ends.
      obtain ⟨u, v, rfl, hu, hv⟩ := h.split
      exact (hnames B List.mem_cons_self u hu).append (hright hv)

/-- The grammar `g'` has the nonterminals of `g` and those of the glossary, and unfolding them
turns its right sides into those of `g`. A nonterminal of the glossary is not defined as
another one. -/
structure Abbreviates (g' g : Grammar) (glossary : Glossary) : Prop where
  start_eq : g'.start = g.start
  fresh : g.Fresh (glossary.map Prod.fst)
  ne_nil : ∀ A form, (A, form) ∈ glossary → form ≠ []
  fold : ∀ X, ∀ right ∈ g.rightsOf X,
    ∃ right' ∈ g'.rightsOf X, RightSide.expand glossary.meaning right' = right
  define : ∀ A form, (A, form) ∈ glossary → ∃ right ∈ g'.rightsOf (.nonterminal A),
    (∀ B, right ≠ [.nonterminal B]) ∧ RightSide.expand glossary.meaning right = form
  unfold : ∀ X, ∀ right ∈ g'.rightsOf X, RightSide.expand glossary.meaning right ∈ g.rightsOf X ∨
    ∃ A, X = .nonterminal A ∧ (A, RightSide.expand glossary.meaning right) ∈ glossary

namespace Abbreviates

variable (h : g'.Abbreviates g glossary)
include h

theorem meaning_ne_nil (A : Name) : glossary.meaning A ≠ [] := by
  rcases glossary.meaning_cases A with hself | hmem
  · rw [hself]
    exact List.cons_ne_nil _ _
  · exact h.ne_nil A _ hmem

theorem meaning_eq_self {right : RightSide} (hA : right ∈ g.rightsOf (.nonterminal A)) :
    glossary.meaning A = [.nonterminal A] :=
  Glossary.meaning_eq_self fun hmem =>
    h.fresh.notMem_productions hmem (mem_productions_of_mem_rightsOf hA)

/-- A derivation is one of the old grammar after unfolding. -/
theorem yields_expand {form : RightSide} (hform : g'.Yields form w) :
    g.Yields (RightSide.expand glossary.meaning form) w := by
  refine hform.expand fun A right v hright _ hv => ?_
  rcases h.unfold _ right hright with hold | ⟨B, hB, hmem⟩
  · rw [h.meaning_eq_self hold]
    exact derives_iff.2 ⟨_, hold, hv⟩
  · cases hB
    rwa [Glossary.meaning_eq h.fresh.nodup hmem]

/-- A new nonterminal derives what the form that it abbreviates yields: its right side is made
up of nonterminals that abbreviate shorter forms. -/
theorem derives_of_meaning (hw : g'.Yields (glossary.meaning A) w) : g'.Derives A w := by
  -- The induction is on the length of what `A` stands for: it has a right side in `g'`, and the
  -- nonterminals in that one stand for shorter forms.
  induction hn : (glossary.meaning A).length using Nat.strongRecOn generalizing A w with
  | ind n ih =>
    rcases glossary.meaning_cases A with hself | hmem
    · rwa [hself] at hw
    · obtain ⟨right, hright, hunit, hexpand⟩ := h.define A _ hmem
      rw [← hexpand] at hw
      refine derives_iff.2 ⟨right, hright, hw.of_expand fun B hB v hv => ?_⟩
      have hlt := RightSide.length_lt_length_expand h.meaning_ne_nil hB (hunit B)
      rw [hexpand, hn] at hlt
      exact ih _ hlt hv rfl

theorem yields_of_old {form : RightSide} (hform : g.Yields form w) : g'.Yields form w := by
  refine hform.transfer fun A right v hright _ hv => ?_
  obtain ⟨right', hright', rfl⟩ := h.fold _ right hright
  exact derives_iff.2 ⟨right', hright', hv.of_expand fun _ _ _ => h.derives_of_meaning⟩

theorem derives_iff_old (hA : A ∉ glossary.map Prod.fst) : g'.Derives A w ↔ g.Derives A w := by
  constructor
  · intro hw
    have key := h.yields_expand hw
    rwa [RightSide.expand, RightSide.expand, List.append_nil, Glossary.meaning_eq_self hA] at key
  · exact h.yields_of_old

theorem nil_mem_rightsOf (hA : A ∉ glossary.map Prod.fst) :
    [] ∈ g'.rightsOf (.nonterminal A) ↔ [] ∈ g.rightsOf (.nonterminal A) := by
  constructor
  · intro hnil
    rcases h.unfold _ _ hnil with hold | ⟨B, hB, hmem⟩
    · exact hold
    · cases hB
      exact absurd (List.mem_map.2 ⟨_, hmem, rfl⟩) hA
  · intro hnil
    obtain ⟨right, hright, hexpand⟩ := h.fold _ _ hnil
    rwa [(RightSide.expand_eq_nil h.meaning_ne_nil).1 hexpand] at hright

/-- The abbreviations are the same when epsilon rules are taken out of both grammars. -/
theorem positive : g'.positive.Abbreviates g.positive glossary where
  start_eq := h.start_eq
  fresh := ⟨h.fresh.nodup, fun A hA => by
    rw [uses_eq_false]
    exact ⟨fun hmem => h.fresh.notMem_productions hA (Std.ExtTreeMap.mem_map.1 hmem),
      h.fresh.notMem_terminals hA⟩⟩
  ne_nil := h.ne_nil
  fold X right hright := by
    obtain ⟨hright, hne⟩ := mem_rightsOf_positive.1 hright
    obtain ⟨right', hright', rfl⟩ := h.fold X right hright
    exact ⟨right', mem_rightsOf_positive.2
      ⟨hright', mt (RightSide.expand_eq_nil h.meaning_ne_nil).2 hne⟩, rfl⟩
  define A form hA := by
    obtain ⟨right, hright, hunit, rfl⟩ := h.define A form hA
    exact ⟨right, mem_rightsOf_positive.2
      ⟨hright, mt (RightSide.expand_eq_nil h.meaning_ne_nil).2 (h.ne_nil A _ hA)⟩, hunit, rfl⟩
  unfold X right hright := by
    obtain ⟨hright, hne⟩ := mem_rightsOf_positive.1 hright
    refine (h.unfold X right hright).imp_left fun hold => ?_
    exact mem_rightsOf_positive.2 ⟨hold, mt (RightSide.expand_eq_nil h.meaning_ne_nil).1 hne⟩

end Abbreviates

end Grammar

end ContextFree
