import ContextFree.Chains
import ContextFree.Proofs.Isolation

/-! # Splitting long right sides

A link abbreviates what follows it in the right side that was split. What remains of a right
side and the right sides of the links have at most two symbols.
-/

namespace ContextFree

namespace RightSide

/-- There is one name for each link that a right side needs. -/
inductive Fits : RightSide → List Name → Prop where
  | short {right : RightSide} : right.length ≤ 2 → Fits right []
  | long {X Y Z : Symbol} {N : Name} {right : RightSide} {names : List Name} :
    Fits (Y :: Z :: right) names → Fits (X :: Y :: Z :: right) (N :: names)

theorem fits_of_length {right : RightSide} {names : List Name}
    (h : names.length = linkCount right) : Fits right names := by
  induction names generalizing right with
  | nil =>
    rw [linkCount, List.length_nil] at h
    exact .short (by omega)
  | cons N names ih =>
    match right, h with
    | X :: Y :: Z :: right, h => exact .long (ih (by simpa [linkCount] using h))

/-- The forms that the links of a chain abbreviate. -/
def suffixes : RightSide → List Name → Glossary
  | _ :: Y :: Z :: right, N :: names => (N, Y :: Z :: right) :: suffixes (Y :: Z :: right) names
  | _, _ => []

theorem split_eq_self {right : RightSide} {names : List Name} (h : right.length ≤ 2) :
    split right names = (right, []) := by
  match right, h with
  | [], _ => rfl
  | [X], _ => rfl
  | [X, Y], _ => rfl

theorem suffixes_eq_nil {right : RightSide} {names : List Name} (h : right.length ≤ 2) :
    suffixes right names = [] := by
  match right, h with
  | [], _ => rfl
  | [X], _ => rfl
  | [X, Y], _ => rfl

variable {right : RightSide} {names : List Name} (h : Fits right names)
include h

theorem map_fst_split : (split right names).2.map Prod.fst = names := by
  induction h with
  | short hlength => rw [split_eq_self hlength, List.map_nil]
  | long _ ih => rw [split, List.map_cons, ih]

theorem map_fst_suffixes : (suffixes right names).map Prod.fst = names := by
  induction h with
  | short hlength => rw [suffixes_eq_nil hlength, List.map_nil]
  | long _ ih => rw [suffixes, List.map_cons, ih]

/-- A link abbreviates two or more symbols of the right side that was split. -/
theorem of_mem_suffixes {N : Name} {form : RightSide} (hN : (N, form) ∈ suffixes right names) :
    2 ≤ form.length ∧ ∀ Y ∈ form, Y ∈ right := by
  induction h with
  | short hlength => simp [suffixes_eq_nil hlength] at hN
  | long _ ih =>
    rcases List.mem_cons.1 hN with heq | hN
    · cases heq
      exact ⟨by simp, fun Y => List.mem_cons_of_mem _⟩
    · obtain ⟨htwo, hmem⟩ := ih hN
      exact ⟨htwo, fun Y hY => List.mem_cons_of_mem _ (hmem Y hY)⟩

/-- A right side is kept, or it had more than two symbols and two remain. -/
theorem split_fst_cases :
    (split right names).1 = right ∨ 2 < right.length ∧ (split right names).1.length = 2 := by
  cases h with
  | short hlength => exact .inl (by rw [split_eq_self hlength])
  | long h => exact .inr (by simp [split])

theorem length_split_fst : (split right names).1.length ≤ 2 := by
  cases h with
  | short hlength => rwa [split_eq_self hlength]
  | long h => simp [split]

theorem mem_split_fst {Y : Symbol} (hY : Y ∈ (split right names).1) :
    Y ∈ right ∨ ∃ N ∈ names, Y = .nonterminal N := by
  cases h with
  | short hlength => exact .inl (by rwa [split_eq_self hlength] at hY)
  | @long X _ _ N right names h =>
    rw [split] at hY
    rcases List.mem_cons.1 hY with rfl | hY
    · exact .inl List.mem_cons_self
    · exact .inr ⟨N, List.mem_cons_self, List.mem_singleton.1 hY⟩

/-- The right side of a link has two symbols, which are those of the right side that was split
and links. -/
theorem mem_split_snd {N : Name} {pair : RightSide} (hN : (N, pair) ∈ (split right names).2) :
    2 < right.length ∧ pair.length = 2 ∧
      ∀ Y ∈ pair, Y ∈ right ∨ ∃ M ∈ names, Y = .nonterminal M := by
  induction h with
  | short hlength =>
    rw [split_eq_self hlength] at hN
    cases hN
  | @long X Y Z N' right names h ih =>
    refine ⟨by simp, ?_⟩
    have hmore {V : Symbol} : (V ∈ Y :: Z :: right ∨ ∃ M ∈ names, V = .nonterminal M) →
        V ∈ X :: Y :: Z :: right ∨ ∃ M ∈ N' :: names, V = .nonterminal M := by
      rintro (hV | ⟨M, hM, rfl⟩)
      · exact .inl (List.mem_cons_of_mem _ hV)
      · exact .inr ⟨M, List.mem_cons_of_mem _ hM, rfl⟩
    rw [split] at hN
    rcases List.mem_cons.1 hN with heq | hN
    · cases heq
      refine ⟨?_, fun V hV => hmore (mem_split_fst h hV)⟩
      -- The pair of the first link is what remains of the rest, short enough or cut once more.
      rcases split_fst_cases h with hkept | ⟨-, htwo⟩
      · cases h with
        | short hlength =>
          rw [hkept]
          simp at hlength ⊢
          omega
        | long h => simp [split]
      · exact htwo
    · obtain ⟨-, htwo, hmem⟩ := ih hN
      exact ⟨htwo, fun V hV => hmore (hmem V hV)⟩

section Unfolding

variable {f : Name → RightSide} (hsuffix : ∀ N form, (N, form) ∈ suffixes right names → f N = form)
  (hold : ∀ A, .nonterminal A ∈ right → f A = [.nonterminal A])
include hsuffix hold

theorem expand_split_fst : expand f (split right names).1 = right := by
  cases h with
  | short hlength =>
    rw [split_eq_self hlength]
    exact expand_eq_self hold
  | @long X Y Z N right names h =>
    have hN : f N = Y :: Z :: right := hsuffix N _ List.mem_cons_self
    rw [split]
    cases X with
    | terminal a => simp [expand, hN]
    | nonterminal A => simp [expand, hN, hold A List.mem_cons_self]

/-- Unfolding the right side of a link gives the form that the link abbreviates. -/
theorem expand_split_snd {N : Name} {pair : RightSide} (hN : (N, pair) ∈ (split right names).2) :
    (N, expand f pair) ∈ suffixes right names := by
  induction h with
  | short hlength =>
    rw [split_eq_self hlength] at hN
    cases hN
  | long h ih =>
    have hsuffix' := fun N form hN => hsuffix N form (List.mem_cons_of_mem _ hN)
    have hold' := fun A hA => hold A (List.mem_cons_of_mem _ hA)
    rw [split] at hN
    rcases List.mem_cons.1 hN with heq | hN
    · cases heq
      rw [expand_split_fst h hsuffix' hold']
      exact List.mem_cons_self
    · exact List.mem_cons_of_mem _ (ih hsuffix' hold' hN)

end Unfolding

end RightSide

/-- A right side with the names of the links that it is split by. -/
structure Cut where
  right : RightSide
  names : List Name
  fits : right.Fits names

namespace Cut

/-- What remains of the right side. -/
def pair (c : Cut) : RightSide :=
  (c.right.split c.names).1

/-- The links with their right sides. -/
def links (c : Cut) : Links :=
  (c.right.split c.names).2

end Cut

/-- The right sides of each head, with the names of their links. -/
abbrev Cuts := List (Symbol × List Cut)

namespace Cuts

/-- The links of all chains, in the order in which they are minted. -/
def names (cuts : Cuts) : List Name :=
  cuts.flatMap fun (_, cs) => cs.flatMap Cut.names

/-- The links of all chains with their right sides. -/
def links (cuts : Cuts) : Links :=
  cuts.flatMap fun (_, cs) => cs.flatMap Cut.links

/-- The links of all chains with the forms that they abbreviate. -/
def glossary (cuts : Cuts) : Glossary :=
  cuts.flatMap fun (_, cs) => cs.flatMap fun c => c.right.suffixes c.names

/-- The new right sides of all heads, each of them preceded by the links of its chains. -/
def plan (cuts : Cuts) : List (Symbol × RightSides) :=
  cuts.flatMap fun (X, cs) =>
    (cs.flatMap Cut.links).map (fun (N, pair) => (.nonterminal N, {pair})) ++
      [(X, .ofList (cs.map Cut.pair))]

variable {cuts : Cuts}

theorem map_fst_links : cuts.links.map Prod.fst = cuts.names := by
  simp only [links, names, List.map_flatMap, Cut.links, RightSide.map_fst_split (Cut.fits _)]

theorem mem_names {N : Name} {pair : RightSide} (hN : (N, pair) ∈ cuts.links) : N ∈ cuts.names :=
  map_fst_links ▸ List.mem_map.2 ⟨_, hN, rfl⟩

theorem map_fst_glossary : cuts.glossary.map Prod.fst = cuts.names := by
  simp only [glossary, names, List.map_flatMap, RightSide.map_fst_suffixes (Cut.fits _)]

theorem mem_links {N : Name} {pair : RightSide} :
    (N, pair) ∈ cuts.links ↔ ∃ X cs, (X, cs) ∈ cuts ∧ ∃ c ∈ cs, (N, pair) ∈ c.links := by
  simp [links, List.mem_flatMap]

theorem mem_glossary {N : Name} {form : RightSide} : (N, form) ∈ cuts.glossary ↔
    ∃ X cs, (X, cs) ∈ cuts ∧ ∃ c ∈ cs, (N, form) ∈ c.right.suffixes c.names := by
  simp [glossary, List.mem_flatMap]

theorem mem_plan {X : Symbol} {rights : RightSides} : (X, rights) ∈ cuts.plan ↔
    (∃ cs, (X, cs) ∈ cuts ∧ rights = .ofList (cs.map Cut.pair)) ∨
      ∃ N pair, X = .nonterminal N ∧ (N, pair) ∈ cuts.links ∧ rights = {pair} := by
  simp only [plan, List.mem_flatMap, mem_links]
  constructor
  · rintro ⟨⟨Y, cs⟩, hY, hmem⟩
    rcases List.mem_append.1 hmem with hmem | hmem
    · obtain ⟨⟨N, pair⟩, hN, heq⟩ := List.mem_map.1 hmem
      obtain ⟨c, hc, hN⟩ := List.mem_flatMap.1 hN
      cases heq
      exact .inr ⟨N, pair, rfl, ⟨Y, cs, hY, c, hc, hN⟩, rfl⟩
    · cases List.mem_singleton.1 hmem
      exact .inl ⟨cs, hY, rfl⟩
  · rintro (⟨cs, hX, rfl⟩ | ⟨N, pair, rfl, ⟨Y, cs, hY, c, hc, hN⟩, rfl⟩)
    · exact ⟨(X, cs), hX, List.mem_append_right _ (List.mem_singleton.2 rfl)⟩
    · refine ⟨(Y, cs), hY, List.mem_append_left _ (List.mem_map.2 ⟨(N, pair), ?_, rfl⟩)⟩
      exact List.mem_flatMap.2 ⟨c, hc, hN⟩

end Cuts

namespace Grammar

variable {g : Grammar} {s : NameSupply} {cuts : Cuts}

/-- The cuts list every right side of every head once, with links under fresh names that the
supply has for them. -/
structure IsCutBy (g : Grammar) (s : NameSupply) (cuts : Cuts) : Prop where
  entries : cuts.map (fun cut => (cut.1, cut.2.map Cut.right)) =
    g.productions.toList.map fun entry => (entry.1, entry.2.toList)
  fresh : g.Fresh cuts.names
  series : ∀ A ∈ cuts.names, ∃ i, A = s.chainSeries i

/-- The grammar with split right sides. -/
def shortened (g : Grammar) (cuts : Cuts) : Grammar :=
  { g.reserve cuts.names with
    productions := (g.reserve cuts.names).productions.insertMany cuts.plan }

@[simp] theorem start_shortened : (g.shortened cuts).start = g.start :=
  rfl

@[simp] theorem terminals_shortened : (g.shortened cuts).terminals = g.terminals :=
  rfl

namespace IsCutBy

variable (h : g.IsCutBy s cuts)
include h

theorem map_fst_eq_heads : cuts.map Prod.fst = g.heads := by
  have hheads := congrArg (List.map Prod.fst) h.entries
  rw [List.map_map, List.map_map] at hheads
  rw [heads, ← Std.ExtTreeMap.map_fst_toList_eq_keys]
  exact hheads

theorem nodup_heads : (cuts.map Prod.fst).Nodup :=
  h.map_fst_eq_heads ▸ Std.ExtTreeMap.nodup_keys

theorem mem_productions_iff {X : Symbol} : X ∈ g.productions ↔ ∃ cs, (X, cs) ∈ cuts := by
  rw [← mem_heads, ← h.map_fst_eq_heads]
  simp

theorem mem_rightsOf_iff {X : Symbol} {right : RightSide} :
    right ∈ g.rightsOf X ↔ ∃ cs, (X, cs) ∈ cuts ∧ ∃ c ∈ cs, c.right = right := by
  rw [mem_rightsOf]
  constructor
  · rintro ⟨rights, hentry, hright⟩
    have hmem : (X, rights.toList) ∈ cuts.map fun cut => (cut.1, cut.2.map Cut.right) := by
      rw [h.entries]
      exact List.mem_map.2 ⟨(X, rights),
        Std.ExtTreeMap.mem_toList_iff_getElem?_eq_some.2 hentry, rfl⟩
    obtain ⟨⟨Y, cs⟩, hcs, heq⟩ := List.mem_map.1 hmem
    obtain ⟨rfl, hrights⟩ := Prod.mk.inj heq
    rw [← Std.ExtTreeSet.mem_toList, ← hrights] at hright
    exact ⟨cs, hcs, List.mem_map.1 hright⟩
  · rintro ⟨cs, hcs, c, hc, rfl⟩
    have hmem : (X, cs.map Cut.right) ∈
        g.productions.toList.map fun entry => (entry.1, entry.2.toList) := by
      rw [← h.entries]
      exact List.mem_map.2 ⟨(X, cs), hcs, rfl⟩
    obtain ⟨⟨Y, rights⟩, hrights, heq⟩ := List.mem_map.1 hmem
    obtain ⟨rfl, hcs'⟩ := Prod.mk.inj heq
    refine ⟨rights, Std.ExtTreeMap.mem_toList_iff_getElem?_eq_some.1 hrights, ?_⟩
    rw [← Std.ExtTreeSet.mem_toList, hcs']
    exact List.mem_map.2 ⟨c, hc, rfl⟩

/-- The plan has one entry for each head and for each link. -/
theorem plan_unique {X : Symbol} {rights rights' : RightSides} (hX : (X, rights) ∈ cuts.plan)
    (hX' : (X, rights') ∈ cuts.plan) : rights = rights' := by
  have hdisjoint {N : Name} {pair : RightSide} {cs : List Cut} (hN : (N, pair) ∈ cuts.links) :
      (.nonterminal N, cs) ∉ cuts := fun hcs =>
    h.fresh.notMem_productions (Cuts.mem_names hN) (h.mem_productions_iff.2 ⟨cs, hcs⟩)
  -- An entry of the plan belongs to a head or to a link, and no link bears the name of a head.
  rcases Cuts.mem_plan.1 hX with ⟨cs, hcs, rfl⟩ | ⟨N, pair, rfl, hN, rfl⟩
  · rcases Cuts.mem_plan.1 hX' with ⟨cs', hcs', rfl⟩ | ⟨N, pair, rfl, hN, rfl⟩
    · rw [eq_of_mem_of_nodup h.nodup_heads hcs hcs']
    · exact absurd hcs (hdisjoint hN)
  · rcases Cuts.mem_plan.1 hX' with ⟨cs', hcs', rfl⟩ | ⟨N', pair', heq, hN', rfl⟩
    · exact absurd hcs' (hdisjoint hN)
    · cases heq
      have hnodup := h.fresh.nodup
      rw [← Cuts.map_fst_links] at hnodup
      rw [eq_of_mem_of_nodup hnodup hN hN']

theorem mem_productions_of_mem_plan {X : Symbol} {rights : RightSides}
    (hX : (X, rights) ∈ cuts.plan) : X ∈ (g.reserve cuts.names).productions := by
  rw [mem_productions_reserve]
  rcases Cuts.mem_plan.1 hX with ⟨cs, hcs, -⟩ | ⟨N, pair, rfl, hN, -⟩
  · exact .inl (h.mem_productions_iff.2 ⟨cs, hcs⟩)
  · exact .inr ⟨N, Cuts.mem_names hN, rfl⟩

theorem exists_mem_plan {X : Symbol} (hX : X ∈ (g.reserve cuts.names).productions) :
    ∃ rights, (X, rights) ∈ cuts.plan := by
  rcases mem_productions_reserve.1 hX with hX | ⟨N, hN, rfl⟩
  · obtain ⟨cs, hcs⟩ := h.mem_productions_iff.1 hX
    exact ⟨_, Cuts.mem_plan.2 (.inl ⟨cs, hcs, rfl⟩)⟩
  · rw [← Cuts.map_fst_links] at hN
    obtain ⟨⟨_, pair⟩, hpair, rfl⟩ := List.mem_map.1 hN
    exact ⟨_, Cuts.mem_plan.2 (.inr ⟨_, pair, rfl, hpair, rfl⟩)⟩

theorem getElem?_shortened {X : Symbol} {rights : RightSides} :
    (g.shortened cuts).productions[X]? = some rights ↔ (X, rights) ∈ cuts.plan := by
  constructor
  · intro hentry
    by_cases hplanned : ∃ rights', (X, rights') ∈ cuts.plan
    · obtain ⟨rights', hX⟩ := hplanned
      have hentry' : (g.shortened cuts).productions[X]? = some rights' :=
        getElem?_insertMany_of_mem hX fun _ hX' => h.plan_unique hX' hX
      rw [hentry] at hentry'
      cases hentry'
      exact hX
    -- The plan passes over no head, so no entry of the reserved grammar is left.
    · have hold : (g.shortened cuts).productions[X]? = (g.reserve cuts.names).productions[X]? :=
        getElem?_insertMany_of_forall_ne fun rights' hX => hplanned ⟨rights', hX⟩
      rw [hold] at hentry
      exact absurd (h.exists_mem_plan (by simp [Std.ExtTreeMap.mem_iff_isSome_getElem?, hentry]))
        hplanned
  · exact fun hX => getElem?_insertMany_of_mem hX fun _ hX' => h.plan_unique hX' hX

/-- What remains of the right sides is left to their heads, and each link has its pair. -/
theorem mem_rightsOf_shortened {X : Symbol} {right : RightSide} :
    right ∈ (g.shortened cuts).rightsOf X ↔
      (∃ cs, (X, cs) ∈ cuts ∧ ∃ c ∈ cs, c.pair = right) ∨
        ∃ N, X = .nonterminal N ∧ (N, right) ∈ cuts.links := by
  simp only [mem_rightsOf, h.getElem?_shortened, Cuts.mem_plan]
  constructor
  · rintro ⟨rights, ⟨cs, hcs, rfl⟩ | ⟨N, pair, rfl, hN, rfl⟩, hright⟩
    · exact .inl ⟨cs, hcs, by simpa [Std.ExtTreeSet.mem_ofList] using hright⟩
    · exact .inr ⟨N, rfl, mem_singleton.1 hright ▸ hN⟩
  · rintro (⟨cs, hcs, c, hc, rfl⟩ | ⟨N, rfl, hN⟩)
    · refine ⟨_, .inl ⟨cs, hcs, rfl⟩, ?_⟩
      simpa [Std.ExtTreeSet.mem_ofList] using ⟨c, hc, rfl⟩
    · exact ⟨_, .inr ⟨N, right, rfl, hN, rfl⟩, mem_singleton.2 rfl⟩

theorem exists_cut {X : Symbol} {right : RightSide}
    (hright : right ∈ (g.shortened cuts).rightsOf X) :
    ∃ Y cs, (Y, cs) ∈ cuts ∧ ∃ c ∈ cs, c.right ∈ g.rightsOf Y ∧
      (X = Y ∧ c.pair = right ∨ ∃ N, X = .nonterminal N ∧ (N, right) ∈ c.links) := by
  rcases h.mem_rightsOf_shortened.1 hright with ⟨cs, hcs, c, hc, rfl⟩ | ⟨N, rfl, hN⟩
  · exact ⟨X, cs, hcs, c, hc, h.mem_rightsOf_iff.2 ⟨cs, hcs, c, hc, rfl⟩, .inl ⟨rfl, rfl⟩⟩
  · obtain ⟨Y, cs, hcs, c, hc, hN⟩ := Cuts.mem_links.1 hN
    exact ⟨Y, cs, hcs, c, hc, h.mem_rightsOf_iff.2 ⟨cs, hcs, c, hc, rfl⟩, .inr ⟨N, rfl, hN⟩⟩

theorem fresh_glossary : g.Fresh (cuts.glossary.map Prod.fst) :=
  Cuts.map_fst_glossary ▸ h.fresh

theorem meaning_eq {X : Symbol} {cs : List Cut} (hcs : (X, cs) ∈ cuts) {c : Cut} (hc : c ∈ cs)
    (N : Name) (form : RightSide) (hN : (N, form) ∈ c.right.suffixes c.names) :
    cuts.glossary.meaning N = form :=
  Glossary.meaning_eq h.fresh_glossary.nodup (Cuts.mem_glossary.2 ⟨X, cs, hcs, c, hc, hN⟩)

theorem meaning_eq_self (hg : g.WellFormed) {X : Symbol} {cs : List Cut} (hcs : (X, cs) ∈ cuts)
    {c : Cut} (hc : c ∈ cs) (A : Name) (hA : .nonterminal A ∈ c.right) :
    cuts.glossary.meaning A = [.nonterminal A] :=
  Glossary.meaning_eq_self fun hmem => h.fresh_glossary.notMem_productions hmem
    (hg.mem_productions (h.mem_rightsOf_iff.2 ⟨cs, hcs, c, hc, rfl⟩) hA)

theorem expand_pair (hg : g.WellFormed) {X : Symbol} {cs : List Cut} (hcs : (X, cs) ∈ cuts)
    {c : Cut} (hc : c ∈ cs) : RightSide.expand cuts.glossary.meaning c.pair = c.right :=
  RightSide.expand_split_fst c.fits (h.meaning_eq hcs hc) (h.meaning_eq_self hg hcs hc)

/-- The links abbreviate what follows them in the right sides that were split. -/
theorem abbreviates_shortened (hg : g.WellFormed) :
    (g.shortened cuts).Abbreviates g cuts.glossary := by
  refine ⟨rfl, h.fresh_glossary, ?_, ?_, ?_, ?_⟩
  · intro N form hN
    obtain ⟨X, cs, hcs, c, hc, hN⟩ := Cuts.mem_glossary.1 hN
    have hlength := (RightSide.of_mem_suffixes c.fits hN).1
    exact List.ne_nil_of_length_pos (by omega)
  · intro X right hright
    obtain ⟨cs, hcs, c, hc, rfl⟩ := h.mem_rightsOf_iff.1 hright
    exact ⟨c.pair, h.mem_rightsOf_shortened.2 (.inl ⟨cs, hcs, c, hc, rfl⟩),
      h.expand_pair hg hcs hc⟩
  · intro N form hN
    obtain ⟨X, cs, hcs, c, hc, hN⟩ := Cuts.mem_glossary.1 hN
    have hname : N ∈ c.links.map Prod.fst := by
      rw [Cut.links, RightSide.map_fst_split c.fits, ← RightSide.map_fst_suffixes c.fits]
      exact List.mem_map.2 ⟨_, hN, rfl⟩
    obtain ⟨⟨_, pair⟩, hpair, rfl⟩ := List.mem_map.1 hname
    refine ⟨pair, h.mem_rightsOf_shortened.2
      (.inr ⟨_, rfl, Cuts.mem_links.2 ⟨X, cs, hcs, c, hc, hpair⟩⟩), ?_, ?_⟩
    · rintro B rfl
      have htwo := (RightSide.mem_split_snd c.fits hpair).2.1
      simp at htwo
    · rw [← h.meaning_eq hcs hc _ _ hN]
      exact (h.meaning_eq hcs hc _ _
        (RightSide.expand_split_snd c.fits (h.meaning_eq hcs hc) (h.meaning_eq_self hg hcs hc)
          hpair)).symm
  · intro X right hright
    obtain ⟨Y, cs, hcs, c, hc, hold, ⟨rfl, rfl⟩ | ⟨N, rfl, hN⟩⟩ := h.exists_cut hright
    · refine .inl ?_
      rwa [h.expand_pair hg hcs hc]
    · exact .inr ⟨N, rfl, Cuts.mem_glossary.2 ⟨Y, cs, hcs, c, hc,
        RightSide.expand_split_snd c.fits (h.meaning_eq hcs hc) (h.meaning_eq_self hg hcs hc) hN⟩⟩

theorem mem_or_of_mem {X Y : Symbol} {right : RightSide}
    (hright : right ∈ (g.shortened cuts).rightsOf X) (hY : Y ∈ right) :
    (∃ Z, ∃ old ∈ g.rightsOf Z, Y ∈ old) ∨ ∃ N ∈ cuts.names, Y = .nonterminal N := by
  obtain ⟨Z, cs, hcs, c, hc, hold, hcut⟩ := h.exists_cut hright
  have hlink {N : Name} (hN : N ∈ c.names) : N ∈ cuts.names :=
    List.mem_flatMap.2 ⟨_, hcs, List.mem_flatMap.2 ⟨c, hc, hN⟩⟩
  have hmem : Y ∈ c.right ∨ ∃ N ∈ c.names, Y = .nonterminal N := by
    rcases hcut with ⟨-, rfl⟩ | ⟨N, -, hN⟩
    · exact RightSide.mem_split_fst c.fits hY
    · exact (RightSide.mem_split_snd c.fits hN).2.2 Y hY
  rcases hmem with hY | ⟨N, hN, rfl⟩
  · exact .inl ⟨Z, c.right, hold, hY⟩
  · exact .inr ⟨N, hlink hN, rfl⟩

theorem has_of_mem (hg : g.WellFormed) {X Y : Symbol} {right : RightSide}
    (hright : right ∈ (g.shortened cuts).rightsOf X) (hY : Y ∈ right) :
    (g.reserve cuts.names).has Y = true := by
  rw [has_reserve]
  rcases h.mem_or_of_mem hright hY with ⟨Z, old, hold, hY⟩ | hlink
  · exact .inl (hg.closed Z old hold Y hY)
  · exact .inr hlink

theorem plan_known (hg : g.WellFormed) : ∀ p ∈ cuts.plan, ∀ right ∈ p.2, ∀ Y ∈ right,
    (g.reserve cuts.names).has Y = true := fun _ hp _ hright _ hY =>
  h.has_of_mem hg (mem_rightsOf.2 ⟨_, h.getElem?_shortened.2 hp, hright⟩) hY

theorem mem_productions_shortened {X : Symbol} :
    X ∈ (g.shortened cuts).productions ↔ X ∈ (g.reserve cuts.names).productions := by
  constructor
  · intro hX
    obtain ⟨rights, hentry⟩ :=
      Option.isSome_iff_exists.1 (Std.ExtTreeMap.mem_iff_isSome_getElem?.1 hX)
    exact h.mem_productions_of_mem_plan (h.getElem?_shortened.1 hentry)
  · intro hX
    obtain ⟨rights, hX⟩ := h.exists_mem_plan hX
    simp [Std.ExtTreeMap.mem_iff_isSome_getElem?, h.getElem?_shortened.2 hX]

theorem wellFormed_shortened (hg : g.WellFormed) : (g.shortened cuts).WellFormed := by
  have hreserve := hg.reserve h.fresh
  have hheads {X : Symbol} := h.mem_productions_shortened (X := X)
  refine ⟨hheads.2 hreserve.start_mem, fun X hX => hreserve.heads_nonterminal X (hheads.1 hX),
    fun A hA => hreserve.disjoint A (hheads.1 hA), fun X right hright Y hY => ?_⟩
  have hsame : (g.shortened cuts).has Y = (g.reserve cuts.names).has Y :=
    has_congr rfl fun _ => hheads
  rw [hsame]
  exact h.has_of_mem hg hright hY

theorem length_le_two {X : Symbol} {right : RightSide}
    (hright : right ∈ (g.shortened cuts).rightsOf X) : right.length ≤ 2 := by
  obtain ⟨Y, cs, hcs, c, hc, hold, ⟨rfl, rfl⟩ | ⟨N, rfl, hN⟩⟩ := h.exists_cut hright
  · exact RightSide.length_split_fst c.fits
  · exact Nat.le_of_eq (RightSide.mem_split_snd c.fits hN).2.1

/-- Splitting leaves right sides of less than two symbols as they were. -/
theorem mem_rightsOf_of_length_lt {X : Symbol} {right : RightSide}
    (hright : right ∈ (g.shortened cuts).rightsOf X) (hlength : right.length < 2) :
    right ∈ g.rightsOf X := by
  obtain ⟨Y, cs, hcs, c, hc, hold, ⟨rfl, rfl⟩ | ⟨N, rfl, hN⟩⟩ := h.exists_cut hright
  · rcases RightSide.split_fst_cases c.fits with hkept | ⟨-, htwo⟩
    · rwa [Cut.pair, hkept]
    · rw [Cut.pair, htwo] at hlength
      omega
  · have htwo := (RightSide.mem_split_snd c.fits hN).2.1
    omega

theorem epsilonAtStart_shortened (hepsilon : g.EpsilonAtStart) :
    (g.shortened cuts).EpsilonAtStart := fun X hX =>
  hepsilon X (h.mem_rightsOf_of_length_lt hX (by simp))

theorem unitFree_shortened (hunit : g.UnitFree) : (g.shortened cuts).UnitFree := fun X B hX =>
  hunit X B (h.mem_rightsOf_of_length_lt hX (by simp))

theorem terminalsIsolated_shortened (hisolated : g.TerminalsIsolated) :
    (g.shortened cuts).TerminalsIsolated := by
  intro X right hright hlength a ha
  obtain ⟨Y, cs, hcs, c, hc, hold, hcut⟩ := h.exists_cut hright
  have hmem : 2 ≤ c.right.length ∧
      (.terminal a ∈ c.right ∨ ∃ N ∈ c.names, Symbol.terminal a = .nonterminal N) := by
    rcases hcut with ⟨-, rfl⟩ | ⟨N, -, hN⟩
    · refine ⟨?_, RightSide.mem_split_fst c.fits ha⟩
      rcases RightSide.split_fst_cases c.fits with hkept | ⟨hlong, -⟩
      · rwa [Cut.pair, hkept] at hlength
      · omega
    · obtain ⟨hlong, -, hsymbols⟩ := RightSide.mem_split_snd c.fits hN
      exact ⟨by omega, hsymbols _ ha⟩
  obtain ⟨hlong, ha | ⟨N, -, heq⟩⟩ := hmem
  · exact hisolated Y c.right hold hlong a ha
  · cases heq

end IsCutBy

end Grammar

namespace Minting

open Grammar

variable {g : Grammar} {s : NameSupply}

theorem turns_splitAll (rights : List RightSide) : ∃ (cs : List Cut) (counter : Nat),
    cs.map Cut.right = rights ∧ g.Fresh (cs.flatMap Cut.names) ∧
      (∀ A ∈ cs.flatMap Cut.names, ∃ i, A = s.chainSeries i) ∧
      (splitAll rights).Turns g s (cs.map Cut.pair, cs.flatMap Cut.links)
        (g.reserve (cs.flatMap Cut.names)) { s with counter := counter } := by
  induction rights generalizing g s with
  | nil =>
    refine ⟨[], s.counter, rfl, fresh_nil, by simp, ?_⟩
    simp only [List.flatMap_nil, reserve_nil]
    exact Turns.pure
  | cons right rights ih =>
    -- The names of one right side are all drawn before those of the next one.
    obtain ⟨names, counter, hlength, hfresh, hseries, hchains⟩ :=
      turns_chains (g := g) (s := s) right.linkCount
    obtain ⟨cs, counter', hrights, hfresh', hseries', hsplit⟩ :=
      ih (g := g.reserve names) (s := { s with counter := counter })
    refine ⟨⟨right, names, RightSide.fits_of_length hlength⟩ :: cs, counter', ?_, ?_, ?_, ?_⟩
    · rw [List.map_cons, hrights]
    · rw [List.flatMap_cons]
      exact hfresh.append_reserve hfresh'
    · intro A hA
      rw [List.flatMap_cons] at hA
      exact (List.mem_append.1 hA).elim (hseries A) (hseries' A)
    · rw [List.flatMap_cons, List.flatMap_cons, reserve_append]
      exact hchains.bind (hsplit.bind Turns.pure)

/-- The right sides of heads can always be split. -/
theorem turns_splitRules (entries : List (Symbol × RightSides)) : ∃ (cuts : Cuts) (counter : Nat),
    cuts.map (fun cut => (cut.1, cut.2.map Cut.right)) =
        entries.map (fun entry => (entry.1, entry.2.toList)) ∧
      g.Fresh cuts.names ∧ (∀ A ∈ cuts.names, ∃ i, A = s.chainSeries i) ∧
      (splitRules entries).Turns g s (cuts.plan, cuts.names) (g.reserve cuts.names)
        { s with counter := counter } := by
  induction entries generalizing g s with
  | nil =>
    refine ⟨[], s.counter, rfl, fresh_nil, by simp [Cuts.names], ?_⟩
    rw [Cuts.names, List.flatMap_nil, reserve_nil]
    exact Turns.pure
  | cons entry entries ih =>
    obtain ⟨X, rights⟩ := entry
    obtain ⟨cs, counter, hrights, hfresh, hseries, hall⟩ :=
      turns_splitAll (g := g) (s := s) rights.toList
    obtain ⟨cuts, counter', hentries, hfresh', hseries', hrest⟩ :=
      ih (g := g.reserve (cs.flatMap Cut.names)) (s := { s with counter := counter })
    have hnames : Cuts.names ((X, cs) :: cuts) = cs.flatMap Cut.names ++ cuts.names := rfl
    have hlinks : (cs.flatMap Cut.links).map Prod.fst = cs.flatMap Cut.names := by
      simp only [List.map_flatMap, Cut.links, RightSide.map_fst_split (Cut.fits _)]
    -- In the plan the links of a head stand before it.
    have hplan : Cuts.plan ((X, cs) :: cuts) =
        (cs.flatMap Cut.links).map (fun (N, pair) => (.nonterminal N, {pair})) ++
          (X, .ofList (cs.map Cut.pair)) :: cuts.plan := by
      simp [Cuts.plan]
    refine ⟨(X, cs) :: cuts, counter', ?_, ?_, ?_, ?_⟩
    · rw [List.map_cons, List.map_cons, hrights, hentries]
    · rw [hnames]
      exact hfresh.append_reserve hfresh'
    · intro A hA
      exact (List.mem_append.1 hA).elim (hseries A) (hseries' A)
    · rw [hnames, hplan, reserve_append]
      refine hall.bind (Turns.bind hrest ?_)
      rw [hlinks]
      exact Turns.pure

theorem turns_splitRules_toList : ∃ (cuts : Cuts) (counter : Nat), g.IsCutBy s cuts ∧
    (splitRules g.productions.toList).Turns g s (cuts.plan, cuts.names) (g.reserve cuts.names)
      { s with counter := counter } := by
  obtain ⟨cuts, counter, hentries, hfresh, hseries, hsplit⟩ :=
    turns_splitRules (g := g) (s := s) g.productions.toList
  exact ⟨cuts, counter, ⟨hentries, hfresh, hseries⟩, hsplit⟩

theorem turns_shortenRules_of_isCutBy (hg : g.WellFormed) {cuts : Cuts} {s' : NameSupply}
    (h : g.IsCutBy s cuts)
    (hsplit : (splitRules g.productions.toList).Turns g s (cuts.plan, cuts.names)
      (g.reserve cuts.names) s') :
    shortenRules.Turns g s cuts.names (g.shortened cuts) s' := by
  have hassign := Transform.turns_assignAll
    (fun p hp => h.mem_productions_of_mem_plan hp) (h.plan_known hg)
  exact Turns.get_bind fun _ => hsplit.bind ((turns_transform hassign).bind Turns.pure)

theorem turns_shortenRules (hg : g.WellFormed) : ∃ (cuts : Cuts) (counter : Nat),
    g.IsCutBy s cuts ∧
      shortenRules.Turns g s cuts.names (g.shortened cuts) { s with counter := counter } := by
  obtain ⟨cuts, counter, h, hsplit⟩ := turns_splitRules_toList (g := g) (s := s)
  exact ⟨cuts, counter, h, turns_shortenRules_of_isCutBy hg h hsplit⟩

end Minting

/-- Every grammar can be binarized: the splitting begins where the isolation of terminals ends. -/
theorem Transform.turns_binarize {g : Grammar} (h : g.WellFormed) : ∃ wrappers glossary cuts,
    g.Wraps {} g.mixedTerminals.toList wrappers glossary ∧
      (g.isolated wrappers glossary).IsCutBy {} cuts ∧
      binarize.Turns g (wrappers, cuts.names) ((g.isolated wrappers glossary).shortened cuts) := by
  obtain ⟨wrappers, glossary, hw, hisolate⟩ := Minting.turns_isolateTerminals (s := {}) h
  obtain ⟨cuts, counter, hc, hshorten⟩ :=
    Minting.turns_shortenRules (s := {}) (hw.wellFormed_isolated h)
  exact ⟨wrappers, glossary, cuts, hw, hc,
    Minting.turns_withSupply (hisolate.bind (hshorten.bind Minting.Turns.pure))⟩

end ContextFree
