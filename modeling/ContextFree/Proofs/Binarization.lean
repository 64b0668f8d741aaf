import ContextFree.Proofs.Accounts
import Mathlib.Logic.Relation

/-! # Binarization keeps words and can be undone

Minted nonterminals abbreviate forms, so the old ones derive the same words as before. Beyond that
no rule is lost or merged with another one: what was minted can be put back in any order, which ends
and leaves each old right side for one new right side only. Every link has a place of its own,
because splitting a right side gives each of its symbols and each of its links one place.
-/

namespace ContextFree

namespace RightSide

variable {f : Name → RightSide} {right : RightSide} {names : List Name}

theorem length_le_length_expand (hf : ∀ A, f A ≠ []) : right.length ≤ (expand f right).length := by
  induction right with
  | nil => exact Nat.le_refl 0
  | cons X right ih =>
    cases X with
    | terminal a => simpa [expand] using ih
    | nonterminal A =>
      have hpos := List.length_pos_iff.2 (hf A)
      rw [expand, List.length_append, List.length_cons]
      omega

/-- The pairs that a right side is split into have its symbols and the links for theirs. -/
theorem symbols_split_perm (h : Fits right names) :
    ((split right names).1 ++ ((split right names).2.map Prod.snd).flatten).Perm
      (right ++ names.map .nonterminal) := by
  induction h with
  | short hlength => rw [split_eq_self hlength, List.map_nil, List.flatten_nil, List.map_nil]
  | @long X Y Z N right names _ ih =>
    -- The link stands in the first pair now, and was the first of the names before.
    have hmove : (.nonterminal N :: (Y :: Z :: right ++ names.map .nonterminal)).Perm
        (Y :: Z :: right ++ .nonterminal N :: names.map .nonterminal) := List.perm_middle.symm
    exact (ih.append_left [X, .nonterminal N]).trans (hmove.cons X)

theorem nonterminals_append (form form' : RightSide) :
    nonterminals (form ++ form') = form.nonterminals ++ form'.nonterminals :=
  List.filter_append ..

theorem nonterminals_cons_nonterminal (A : Name) (form : RightSide) :
    nonterminals (.nonterminal A :: form) = .nonterminal A :: form.nonterminals :=
  rfl

theorem nonterminals_cons_terminal (a : Name) (form : RightSide) :
    nonterminals (.terminal a :: form) = form.nonterminals :=
  rfl

/-- The form with all links and all nonterminals that stand for terminals unfolded. -/
def restore (glossary links : Glossary) (form : RightSide) : RightSide :=
  expand glossary.meaning (expand links.meaning form)

end RightSide

/-- Splitting right sides gives each of their symbols and each link one place. -/
theorem Cut.symbols_perm (cs : List Cut) :
    ((cs.map Cut.pair).flatten ++ ((cs.flatMap Cut.links).map Prod.snd).flatten).Perm
      ((cs.map Cut.right).flatten ++ (cs.flatMap Cut.names).map .nonterminal) := by
  induction cs with
  | nil => exact .refl _
  | cons c cs ih =>
    refine List.perm_iff_count.2 fun Y => ?_
    have hfirst := (RightSide.symbols_split_perm c.fits).count_eq Y
    have hrest := ih.count_eq Y
    simp only [List.count_append] at hfirst hrest
    simp only [List.map_cons, List.flatten_cons, List.flatMap_cons, List.map_append,
      List.flatten_append, List.count_append, Cut.pair, Cut.links]
    omega

namespace Grammar

variable {g g' : Grammar} {s s' : NameSupply} {glossary : Glossary} {wrappers : Wrappers}
  {cuts : Cuts} {A : Name} {X : Symbol} {right right' : RightSide} {w : Word}

theorem allRights_eq_map_rules (h : ∀ X ∈ g.productions, X.isTerminal = false) :
    g.allRights = g.rules.map Rule.right := by
  rw [rules_eq_flatMap h, allRights, List.map_flatMap]
  refine List.flatMap_congr fun entry _ => ?_
  rw [List.map_map]
  exact (List.map_id _).symm

theorem IsCutBy.symbols_perm (hc : g.IsCutBy s cuts) (h : g.WellFormed) :
    (g.shortened cuts).allRights.flatten.Perm
      (g.allRights.flatten ++ cuts.names.map .nonterminal) := by
  have hall := Cut.symbols_perm (cuts.flatMap Prod.snd)
  rw [allRights_eq_map_rules h.heads_nonterminal, hc.rules_eq h,
    allRights_eq_map_rules (hc.wellFormed_shortened h).heads_nonterminal]
  refine ((hc.rules_perm h).map Rule.right).flatten.trans ?_
  simpa [List.map_flatMap, List.flatMap_assoc, Function.comp_def, Cuts.links, Cuts.names] using hall

theorem IsCutBy.count_link (hc : g.IsCutBy s cuts) (h : g.WellFormed) {N : Name}
    (hN : N ∈ cuts.names) : (g.shortened cuts).allRights.flatten.count (.nonterminal N) = 1 := by
  -- Old right sides consist of old symbols, so the place is one that the splitting gives.
  have hold : .nonterminal N ∉ g.allRights.flatten := by
    rw [List.mem_flatten]
    rintro ⟨right, hright, hmem⟩
    obtain ⟨X, hX⟩ := mem_allRights.1 hright
    exact hc.fresh.notMem_productions hN (h.mem_productions hX hmem)
  have hnodup : (cuts.names.map Symbol.nonterminal).Nodup :=
    hc.fresh.nodup.map fun _ _ => Symbol.nonterminal.inj
  rw [(hc.symbols_perm h).count_eq, List.count_append, List.count_eq_zero.2 hold,
    List.count_eq_one_of_mem hnodup (List.mem_map_of_mem hN)]

theorem Abbreviates.expand_mem (h : g'.Abbreviates g glossary) (hX : X ∈ g.productions)
    (hright : right ∈ g'.rightsOf X) : RightSide.expand glossary.meaning right ∈ g.rightsOf X := by
  refine (h.unfold X right hright).resolve_right ?_
  rintro ⟨A, rfl, hA⟩
  exact h.fresh.notMem_productions (List.mem_map.2 ⟨_, hA, rfl⟩) hX

theorem Wraps.exists_isolate_eq (hw : g.Wraps s g.mixedTerminals.toList wrappers glossary)
    (hX : X ∈ g.productions) (hright : right ∈ (g.isolated wrappers glossary).rightsOf X) :
    ∃ old ∈ g.rightsOf X, RightSide.isolate wrappers old = right := by
  refine (hw.mem_rightsOf_isolated.1 hright).resolve_right ?_
  rintro ⟨T, rfl, hT⟩
  exact hw.fresh.notMem_productions (List.mem_map.2 ⟨_, hT, rfl⟩) hX

/-- No two right sides of an old head are merged when terminals are isolated. -/
theorem Wraps.expand_injective (hw : g.Wraps s g.mixedTerminals.toList wrappers glossary)
    (h : g.WellFormed) (hX : X ∈ g.productions)
    (hright : right ∈ (g.isolated wrappers glossary).rightsOf X)
    (hright' : right' ∈ (g.isolated wrappers glossary).rightsOf X)
    (heq : RightSide.expand glossary.meaning right = RightSide.expand glossary.meaning right') :
    right = right' := by
  obtain ⟨old, hold, rfl⟩ := hw.exists_isolate_eq hX hright
  obtain ⟨old', hold', rfl⟩ := hw.exists_isolate_eq hX hright'
  rw [hw.expand_isolate h hold, hw.expand_isolate h hold'] at heq
  rw [heq]

theorem IsCutBy.exists_pair_eq (hc : g.IsCutBy s cuts) (hX : X ∈ g.productions)
    (hright : right ∈ (g.shortened cuts).rightsOf X) :
    ∃ cs, (X, cs) ∈ cuts ∧ ∃ c ∈ cs, c.pair = right := by
  refine (hc.mem_rightsOf_shortened.1 hright).resolve_right ?_
  rintro ⟨N, rfl, hN⟩
  exact hc.fresh.notMem_productions (Cuts.mem_names hN) hX

theorem IsCutBy.nodup_rights (hc : g.IsCutBy s cuts) {cs : List Cut} (hcs : (X, cs) ∈ cuts) :
    (cs.map Cut.right).Nodup := by
  have hmem : (X, cs.map Cut.right) ∈
      g.productions.toList.map fun entry => (entry.1, entry.2.toList) := by
    rw [← hc.entries]
    exact List.mem_map.2 ⟨(X, cs), hcs, rfl⟩
  obtain ⟨⟨Y, rights⟩, -, heq⟩ := List.mem_map.1 hmem
  rw [← (Prod.mk.inj heq).2]
  exact nodup_toList rights

theorem IsCutBy.expand_injective (hc : g.IsCutBy s cuts) (h : g.WellFormed) (hX : X ∈ g.productions)
    (hright : right ∈ (g.shortened cuts).rightsOf X)
    (hright' : right' ∈ (g.shortened cuts).rightsOf X)
    (heq : RightSide.expand cuts.glossary.meaning right =
      RightSide.expand cuts.glossary.meaning right') : right = right' := by
  obtain ⟨cs, hcs, c, hmem, rfl⟩ := hc.exists_pair_eq hX hright
  obtain ⟨cs', hcs', c', hmem', rfl⟩ := hc.exists_pair_eq hX hright'
  obtain rfl := eq_of_mem_of_nodup hc.nodup_heads hcs hcs'
  rw [hc.expand_pair h hcs hmem, hc.expand_pair h hcs hmem'] at heq
  rw [List.inj_on_of_nodup_map (hc.nodup_rights hcs) hmem hmem' heq]

theorem Wraps.mem_iff {names : List Name} (hw : g.Wraps s names wrappers glossary) {a : Name} :
    a ∈ wrappers ↔ a ∈ names := by
  rw [Std.ExtTreeMap.mem_iff_isSome_getElem?, Option.isSome_iff_ne_none]
  refine ⟨fun hsome => ?_, hw.covers a⟩
  obtain ⟨T, hT⟩ := Option.ne_none_iff_exists'.1 hsome
  obtain ⟨b, hb, heq, -⟩ := hw.form_eq T _ (hw.mem a T hT)
  cases heq
  exact hb

theorem Wraps.rightsOf_wrapper (hw : g.Wraps s g.mixedTerminals.toList wrappers glossary)
    {a T : Name} (hT : wrappers[a]? = some T) :
    (g.isolated wrappers glossary).rightsOf (.nonterminal T) = {[.terminal a]} := by
  ext right
  rw [hw.mem_rightsOf_isolated, mem_singleton]
  constructor
  · rintro (⟨old, hold, -⟩ | ⟨T', heq, hmem⟩)
    · exact absurd (mem_productions_of_mem_rightsOf hold)
        (hw.fresh.notMem_productions (List.mem_map.2 ⟨_, hw.mem a T hT, rfl⟩))
    · cases heq
      exact eq_of_mem_of_nodup hw.fresh.nodup hmem (hw.mem a T hT)
  · rintro rfl
    exact .inr ⟨T, rfl, hw.mem a T hT⟩

/-- A head with one right side, of one symbol, keeps it when right sides are split. -/
theorem IsCutBy.rightsOf_eq_of_singleton (hc : g.IsCutBy s cuts) {Y : Symbol}
    (hX : g.rightsOf X = {[Y]}) : (g.shortened cuts).rightsOf X = {[Y]} := by
  have hkept (c : Cut) (hright : c.right = [Y]) : c.pair = [Y] := by
    rw [Cut.pair, RightSide.split_eq_self (by simp [hright]), hright]
  have hmem : [Y] ∈ g.rightsOf X := hX ▸ mem_singleton.2 rfl
  ext right
  rw [mem_singleton]
  constructor
  · intro hright
    obtain ⟨cs, hcs, c, hc', rfl⟩ :=
      hc.exists_pair_eq (mem_productions_of_mem_rightsOf hmem) hright
    have hold := hc.mem_rightsOf_iff.2 ⟨cs, hcs, c, hc', rfl⟩
    exact hkept c (mem_singleton.1 (hX ▸ hold))
  · rintro rfl
    obtain ⟨cs, hcs, c, hc', hright⟩ := hc.mem_rightsOf_iff.1 hmem
    exact hc.mem_rightsOf_shortened.2 (.inl ⟨cs, hcs, c, hc', hkept c hright⟩)

theorem IsCutBy.exists_rightsOf_link (hc : g.IsCutBy s cuts) {N : Name} (hN : N ∈ cuts.names) :
    ∃ pair, (g.shortened cuts).rightsOf (.nonterminal N) = {pair} := by
  rw [← Cuts.map_fst_links] at hN
  obtain ⟨⟨N, pair⟩, hpair, rfl⟩ := List.mem_map.1 hN
  exact ⟨pair, rightsOf_eq
    (hc.getElem?_shortened.2 (Cuts.mem_plan.2 (.inr ⟨N, pair, rfl, hpair, rfl⟩)))⟩

theorem IsCutBy.length_rightsOf_link (hc : g.IsCutBy s cuts) {N : Name} (hN : N ∈ cuts.names)
    (hright : right ∈ (g.shortened cuts).rightsOf (.nonterminal N)) : right.length = 2 := by
  rcases hc.mem_rightsOf_shortened.1 hright with ⟨cs, hcs, -⟩ | ⟨M, -, hM⟩
  · exact absurd (hc.mem_productions_iff.2 ⟨cs, hcs⟩) (hc.fresh.notMem_productions hN)
  · obtain ⟨Y, cs, -, c, -, hlink⟩ := Cuts.mem_links.1 hM
    exact (RightSide.mem_split_snd c.fits hlink).2.1

/-- A step that puts one minted nonterminal of a form back: one that stands for a terminal is replaced
by the terminal, and a link by a right side that it has in `g`. -/
inductive Unfolds (g : Grammar) (wrappers : Wrappers) (links : List Name) :
    RightSide → RightSide → Prop where
  | wrapper {before after : RightSide} {a T : Name} : wrappers[a]? = some T →
    Unfolds g wrappers links (before ++ .nonterminal T :: after) (before ++ .terminal a :: after)
  | link {before after right : RightSide} {N : Name} : N ∈ links →
    right ∈ g.rightsOf (.nonterminal N) →
      Unfolds g wrappers links (before ++ .nonterminal N :: after) (before ++ right ++ after)

/-- Steps lead from the first form to the second one, from which no step is left. -/
def UnfoldsTo (g : Grammar) (wrappers : Wrappers) (links : List Name) (form final : RightSide) :
    Prop :=
  Relation.ReflTransGen (g.Unfolds wrappers links) form final ∧
    ∀ next, ¬g.Unfolds wrappers links final next

section Unfolding

variable (hw : g.Wraps s g.mixedTerminals.toList wrappers glossary)
  (hc : (g.isolated wrappers glossary).IsCutBy s' cuts) (h : g.WellFormed) {form form' : RightSide}
include hw hc h

/-- A link stands for what its right side unfolds to. -/
theorem expand_rightsOf_link {N : Name} (hN : N ∈ cuts.names)
    (hright : right ∈ ((g.isolated wrappers glossary).shortened cuts).rightsOf (.nonterminal N)) :
    RightSide.expand cuts.glossary.meaning right = cuts.glossary.meaning N := by
  rcases (hc.abbreviates_shortened (hw.wellFormed_isolated h)).unfold _ right hright with
    hold | ⟨M, heq, hM⟩
  · exact absurd (mem_productions_of_mem_rightsOf hold) (hc.fresh.notMem_productions hN)
  · cases heq
    exact (Glossary.meaning_eq hc.fresh_glossary.nodup hM).symm

omit h in
theorem meaning_wrapper {a T : Name} (hT : wrappers[a]? = some T) :
    cuts.glossary.meaning T = [.nonterminal T] := by
  refine Glossary.meaning_eq_self fun hmem => hc.fresh_glossary.notMem_productions hmem ?_
  exact mem_productions_isolated.2 (.inr ⟨T, List.mem_map.2 ⟨_, hw.mem a T hT, rfl⟩, rfl⟩)

/-- Steps do not change what a form unfolds to in the end. -/
theorem Unfolds.restore_eq
    (hstep : ((g.isolated wrappers glossary).shortened cuts).Unfolds wrappers cuts.names form form') :
    RightSide.restore glossary cuts.glossary form' =
      RightSide.restore glossary cuts.glossary form := by
  cases hstep with
  | @wrapper before after a T hT =>
    have hterminal : glossary.meaning T = [.terminal a] :=
      Glossary.meaning_eq hw.fresh.nodup (hw.mem a T hT)
    simp only [RightSide.restore, RightSide.expand_append, RightSide.expand,
      meaning_wrapper hw hc hT, hterminal, List.singleton_append]
  | link hN hright =>
    simp only [RightSide.restore, RightSide.expand_append, RightSide.expand,
      expand_rightsOf_link hw hc h hN hright, List.append_assoc]

/-- A bound on the number of steps: a link that stands for many symbols needs many. -/
def unfoldingBound (links : Glossary) (form : RightSide) : Nat :=
  2 * ((RightSide.expand links.meaning form).length - form.length) + form.nonterminals.length

/-- A step lowers the bound: the two symbols that replace a link unfold to as much as it does, and a
terminal that replaces a nonterminal is not replaced in turn. -/
theorem Unfolds.bound_lt
    (hstep : ((g.isolated wrappers glossary).shortened cuts).Unfolds wrappers cuts.names form form') :
    unfoldingBound cuts.glossary form' < unfoldingBound cuts.glossary form := by
  have hne := (hc.abbreviates_shortened (hw.wellFormed_isolated h)).meaning_ne_nil
  have hlength : form'.length ≤ (RightSide.expand cuts.glossary.meaning form').length :=
    RightSide.length_le_length_expand hne
  cases hstep with
  | wrapper hT =>
    simp only [unfoldingBound, RightSide.expand_append, RightSide.expand, meaning_wrapper hw hc hT,
      RightSide.nonterminals_append, RightSide.nonterminals_cons_nonterminal,
      RightSide.nonterminals_cons_terminal, List.length_append, List.length_cons, List.length_nil]
    omega
  | @link before after right N hN hright =>
    -- The unfolded form stays as long, while the form gains a symbol: the first summand falls by
    -- two and the second one rises by at most one.
    have htwo := hc.length_rightsOf_link hN hright
    have hfew : right.nonterminals.length ≤ right.length := List.length_filter_le ..
    simp only [unfoldingBound, RightSide.expand_append, RightSide.expand,
      expand_rightsOf_link hw hc h hN hright, RightSide.nonterminals_append,
      RightSide.nonterminals_cons_nonterminal, List.length_append, List.length_cons] at hlength ⊢
    omega

theorem wellFounded_unfolds : WellFounded fun form' form =>
    ((g.isolated wrappers glossary).shortened cuts).Unfolds wrappers cuts.names form form' :=
  Subrelation.wf (fun hstep => Unfolds.bound_lt hw hc h hstep)
    (measure (unfoldingBound cuts.glossary)).wf

omit h in
theorem restore_eq_self (hend : ∀ next,
    ¬((g.isolated wrappers glossary).shortened cuts).Unfolds wrappers cuts.names form next) :
    RightSide.restore glossary cuts.glossary form = form := by
  have hplain (A : Name) (hA : .nonterminal A ∈ form) :
      A ∉ glossary.map Prod.fst ∧ A ∉ cuts.glossary.map Prod.fst := by
    obtain ⟨before, after, rfl⟩ := List.append_of_mem hA
    refine ⟨fun hmem => ?_, fun hmem => ?_⟩
    · obtain ⟨⟨A, _⟩, hT, rfl⟩ := List.mem_map.1 hmem
      obtain ⟨a, -, rfl, -⟩ := hw.form_eq A _ hT
      exact hend _ (.wrapper (hw.of_mem nodup_mixedTerminals a A hT))
    · rw [Cuts.map_fst_glossary] at hmem
      obtain ⟨pair, hpair⟩ := hc.exists_rightsOf_link hmem
      exact hend _ (.link hmem (hpair ▸ mem_singleton.2 rfl))
  rw [RightSide.restore,
    RightSide.expand_eq_self fun A hA => Glossary.meaning_eq_self (hplain A hA).2,
    RightSide.expand_eq_self fun A hA => Glossary.meaning_eq_self (hplain A hA).1]

theorem exists_unfoldsTo (form : RightSide) : ∃ final,
    ((g.isolated wrappers glossary).shortened cuts).UnfoldsTo wrappers cuts.names form final := by
  -- The induction is on the steps that are left to make.
  induction form using (wellFounded_unfolds hw hc h).induction with
  | h form ih =>
    by_cases hend : ∃ next,
        ((g.isolated wrappers glossary).shortened cuts).Unfolds wrappers cuts.names form next
    · obtain ⟨next, hstep⟩ := hend
      obtain ⟨final, hsteps, hlast⟩ := ih next hstep
      exact ⟨final, hsteps.head hstep, hlast⟩
    · exact ⟨form, .refl, fun next hstep => hend ⟨next, hstep⟩⟩

/-- In whatever order steps are made, they lead to the same form in the end. -/
theorem unfoldsTo_iff {final : RightSide} :
    ((g.isolated wrappers glossary).shortened cuts).UnfoldsTo wrappers cuts.names form final ↔
      final = RightSide.restore glossary cuts.glossary form := by
  have hleads {final : RightSide}
      (hfinal : ((g.isolated wrappers glossary).shortened cuts).UnfoldsTo wrappers cuts.names form
        final) : final = RightSide.restore glossary cuts.glossary form := by
    obtain ⟨hsteps, hlast⟩ := hfinal
    have hsame : RightSide.restore glossary cuts.glossary final =
        RightSide.restore glossary cuts.glossary form := by
      clear hlast
      induction hsteps with
      | refl => rfl
      | tail _ hstep ih => rw [Unfolds.restore_eq hw hc h hstep, ih]
    rw [← hsame, restore_eq_self hw hc hlast]
  refine ⟨hleads, ?_⟩
  rintro rfl
  obtain ⟨final, hfinal⟩ := exists_unfoldsTo hw hc h form
  exact hleads hfinal ▸ hfinal

theorem mem_rightsOf_iff_restore (hX : X ∈ g.productions) : right ∈ g.rightsOf X ↔
    ∃ right' ∈ ((g.isolated wrappers glossary).shortened cuts).rightsOf X,
      right = RightSide.restore glossary cuts.glossary right' := by
  have hisolated := hw.wellFormed_isolated h
  have hX' : X ∈ (g.isolated wrappers glossary).productions := mem_productions_isolated.2 (.inl hX)
  constructor
  · intro hright
    obtain ⟨form, hform, rfl⟩ := (hw.abbreviates_isolated h).fold X right hright
    obtain ⟨right', hright', rfl⟩ := (hc.abbreviates_shortened hisolated).fold X form hform
    exact ⟨right', hright', rfl⟩
  · rintro ⟨right', hright', rfl⟩
    exact (hw.abbreviates_isolated h).expand_mem hX
      ((hc.abbreviates_shortened hisolated).expand_mem hX' hright')

/-- No two right sides of an old head unfold to the same one. -/
theorem restore_injective (hX : X ∈ g.productions)
    (hright : right ∈ ((g.isolated wrappers glossary).shortened cuts).rightsOf X)
    (hright' : right' ∈ ((g.isolated wrappers glossary).shortened cuts).rightsOf X)
    (heq : RightSide.restore glossary cuts.glossary right =
      RightSide.restore glossary cuts.glossary right') : right = right' := by
  have hisolated := hw.wellFormed_isolated h
  have hX' : X ∈ (g.isolated wrappers glossary).productions := mem_productions_isolated.2 (.inl hX)
  have hcut := hc.abbreviates_shortened hisolated
  exact hc.expand_injective hisolated hX' hright hright' (hw.expand_injective h hX
    (hcut.expand_mem hX' hright) (hcut.expand_mem hX' hright') heq)

end Unfolding

/-- The grammar `g'` has minted nonterminals for terminals of longer right sides of `g` and for links,
each with one right side, and nothing but putting them back leads from its other right sides to
those of `g`. -/
structure Recovers (g' g : Grammar) (wrappers : Wrappers) (links : List Name) : Prop where
  heads_iff : ∀ X, X ∈ g'.productions ↔ X ∈ g.productions ∨
    ∃ N ∈ wrappers.toList.map Prod.snd ++ links, X = .nonterminal N
  /-- A nonterminal stands for one terminal only. -/
  injective : ∀ a b T : Name, wrappers[a]? = some T → wrappers[b]? = some T → a = b
  mem_wrappers_iff : ∀ a, a ∈ wrappers ↔
    ∃ X, ∃ right ∈ g.rightsOf X, 2 ≤ right.length ∧ .terminal a ∈ right
  nodup : (wrappers.toList.map Prod.snd ++ links).Nodup
  /-- No symbol of the old grammar has the name of a minted nonterminal. -/
  unused : ∀ N ∈ wrappers.toList.map Prod.snd ++ links, g.uses N = false
  rightsOf_wrapper : ∀ a T : Name, wrappers[a]? = some T →
    g'.rightsOf (.nonterminal T) = {[.terminal a]}
  rightsOf_link : ∀ N ∈ links, ∃ pair, g'.rightsOf (.nonterminal N) = {pair}
  /-- A link stands at one place in the right sides of all heads. -/
  one_place : ∀ N ∈ links, g'.allRights.flatten.count (.nonterminal N) = 1
  /-- From no form can steps be made forever. -/
  ends : WellFounded fun form' form => g'.Unfolds wrappers links form form'
  /-- The order of the steps does not matter. -/
  unique : ∀ form, ∃! final, g'.UnfoldsTo wrappers links form final
  restores : ∀ X ∈ g.productions, ∀ right, right ∈ g.rightsOf X ↔
    ∃ right' ∈ g'.rightsOf X, g'.UnfoldsTo wrappers links right' right
  /-- No old right side comes from two of the new ones. -/
  separate : ∀ X ∈ g.productions, ∀ right ∈ g'.rightsOf X, ∀ right' ∈ g'.rightsOf X, ∀ final,
    g'.UnfoldsTo wrappers links right final → g'.UnfoldsTo wrappers links right' final →
      right = right'

theorem recovers_binarized (hw : g.Wraps s g.mixedTerminals.toList wrappers glossary)
    (hc : (g.isolated wrappers glossary).IsCutBy s' cuts) (h : g.WellFormed) :
    ((g.isolated wrappers glossary).shortened cuts).Recovers g wrappers cuts.names where
  heads_iff X := mem_productions_binarized hw hc
  injective a b T ha hb := by
    simpa using eq_of_mem_of_nodup hw.fresh.nodup (hw.mem a T ha) (hw.mem b T hb)
  mem_wrappers_iff a := by
    rw [← mem_mixedTerminals, ← Std.ExtTreeSet.mem_toList]
    exact hw.mem_iff
  nodup := (enumerates_minted hw hc).1
  unused N hN := by
    rcases List.mem_append.1 hN with hN | hN
    · exact hw.fresh.unused N (hw.mem_values.1 hN)
    · obtain ⟨hhead, hterminal⟩ := uses_eq_false.1 (hc.fresh.unused N hN)
      exact uses_eq_false.2 ⟨fun hold => hhead (mem_productions_isolated.2 (.inl hold)), hterminal⟩
  rightsOf_wrapper a T hT := hc.rightsOf_eq_of_singleton (hw.rightsOf_wrapper hT)
  rightsOf_link N hN := hc.exists_rightsOf_link hN
  one_place N hN := hc.count_link (hw.wellFormed_isolated h) hN
  ends := wellFounded_unfolds hw hc h
  unique form := ⟨_, (unfoldsTo_iff hw hc h).2 rfl, fun _ => (unfoldsTo_iff hw hc h).1⟩
  restores X hX right := by
    simp only [unfoldsTo_iff hw hc h]
    exact mem_rightsOf_iff_restore hw hc h hX
  separate X hX right hright right' hright' final hfinal hfinal' := by
    rw [unfoldsTo_iff hw hc h] at hfinal hfinal'
    exact restore_injective hw hc h hX hright hright' (hfinal.symm.trans hfinal')

/-- The nonterminals of `g` derive in `g'` the words that they derive in `g`. -/
def KeepsWords (g' g : Grammar) : Prop :=
  ∀ A, .nonterminal A ∈ g.productions → ∀ w, g'.Derives A w ↔ g.Derives A w

theorem Abbreviates.keepsWords (h : g'.Abbreviates g glossary) : g'.KeepsWords g :=
  fun _ hA _ => h.derives_iff_old fun hmem => h.fresh.notMem_productions hmem hA

theorem keepsWords_binarized (hw : g.Wraps s g.mixedTerminals.toList wrappers glossary)
    (hc : (g.isolated wrappers glossary).IsCutBy s' cuts) (h : g.WellFormed) :
    ((g.isolated wrappers glossary).shortened cuts).KeepsWords g := by
  intro A hA w
  have hsecond := (hc.abbreviates_shortened (hw.wellFormed_isolated h)).keepsWords
  rw [hsecond A (mem_productions_isolated.2 (.inl hA)) w]
  exact (hw.abbreviates_isolated h).keepsWords A hA w

end Grammar

namespace Parts

/-- The parts of the grammar `S → a X1 X2 T_a | X1, X1 → a, T_a → ε`, whose terminals are `a` and
`X2`, so that the first names for new nonterminals are taken. -/
def crowded : Parts where
  nonterminals := ["S", "X1", "T_a"]
  terminals := ["a", "X2"]
  start := "S"
  productions := [("S", [[.terminal "a", .nonterminal "X1", .terminal "X2", .nonterminal "T_a"],
    [.nonterminal "X1"]]), ("X1", [[.terminal "a"]]), ("T_a", [[]])]

theorem fit_crowded : crowded.Fit :=
  fit_of_listed (by decide) (by decide) (by decide)

theorem mem_rightsOf_crowded {X : Symbol} {right : RightSide} :
    right ∈ crowded.grammar.rightsOf X ↔
      X = .nonterminal "S" ∧
        (right = [.terminal "a", .nonterminal "X1", .terminal "X2", .nonterminal "T_a"] ∨
          right = [.nonterminal "X1"]) ∨
      X = .nonterminal "X1" ∧ right = [.terminal "a"] ∨ X = .nonterminal "T_a" ∧ right = [] := by
  rw [mem_rightsOf_grammar]
  simp [crowded, or_and_right, exists_or, and_assoc]

theorem crowded_derives : crowded.grammar.Derives "S" ["a", "a", "X2"] := by
  have hfirst : crowded.grammar.Derives "X1" ["a"] :=
    Grammar.derives_iff.2 ⟨_, mem_rightsOf_crowded.2 (.inr (.inl ⟨rfl, rfl⟩)), .terminal .nil⟩
  have hlast : crowded.grammar.Derives "T_a" [] :=
    Grammar.derives_iff.2 ⟨_, mem_rightsOf_crowded.2 (.inr (.inr ⟨rfl, rfl⟩)), .nil⟩
  have hform : crowded.grammar.Yields
      [.terminal "a", .nonterminal "X1", .terminal "X2", .nonterminal "T_a"] ["a", "a", "X2"] :=
    .terminal (hfirst.append (.terminal hlast))
  exact Grammar.derives_iff.2 ⟨_, mem_rightsOf_crowded.2 (.inl ⟨rfl, .inl rfl⟩), hform⟩

theorem mixed_crowded {a : Name} : (∃ X, ∃ right ∈ crowded.grammar.rightsOf X,
    2 ≤ right.length ∧ .terminal a ∈ right) ↔ a = "a" ∨ a = "X2" := by
  constructor
  · rintro ⟨X, right, hright, hlength, ha⟩
    rcases mem_rightsOf_crowded.1 hright with ⟨-, rfl | rfl⟩ | ⟨-, rfl⟩ | ⟨-, rfl⟩
    · simpa using ha
    · simp at hlength
    · simp at hlength
    · simp at hlength
  · intro ha
    exact ⟨_, _, mem_rightsOf_crowded.2 (.inl ⟨rfl, .inl rfl⟩), by simp, by simpa using ha⟩

end Parts

namespace Transform

open Grammar Parts

/-- Binarization keeps the words of every nonterminal, and so does each of its two steps with any
supply of names. It leaves right sides of at most two symbols, where two symbols are
nonterminals. -/
theorem binarize_keeps_words {r : Revision} (h : r.grammar.WellFormed) :
    (∃ minted r', binarize.run r = .ok minted r' ∧ r'.grammar.KeepsWords r.grammar ∧
      ∀ X, ∀ right ∈ r'.grammar.rightsOf X, right.length ≤ 2 ∧
        (right.length = 2 → ∀ a, .terminal a ∉ right)) ∧
    ∀ supply : NameSupply,
      (∃ wrappers w, Minting.isolateTerminals.run ⟨r, supply⟩ = .ok wrappers w ∧
        w.grammar.KeepsWords r.grammar) ∧
      ∃ links w, Minting.shortenRules.run ⟨r, supply⟩ = .ok links w ∧
        w.grammar.KeepsWords r.grammar := by
  refine ⟨?_, fun supply => ⟨?_, ?_⟩⟩
  · obtain ⟨wrappers, glossary, cuts, hw, hc, hturns⟩ := turns_binarize h
    obtain ⟨added, hrun⟩ := hturns r.added
    have hisolated := hc.terminalsIsolated_shortened hw.terminalsIsolated
    exact ⟨_, _, hrun, keepsWords_binarized hw hc h, fun X right hright =>
      ⟨hc.length_le_two hright, fun htwo => hisolated X right hright (Nat.le_of_eq htwo.symm)⟩⟩
  · obtain ⟨wrappers, glossary, hw, hturns⟩ := Minting.turns_isolateTerminals (s := supply) h
    obtain ⟨added, hrun⟩ := hturns r.added
    exact ⟨_, _, hrun, (hw.abbreviates_isolated h).keepsWords⟩
  · obtain ⟨cuts, counter, hc, hturns⟩ := Minting.turns_shortenRules (s := supply) h
    obtain ⟨added, hrun⟩ := hturns r.added
    exact ⟨_, _, hrun, (hc.abbreviates_shortened h).keepsWords⟩

/-- The crowded grammar keeps the word `a a X2`, also when terminals are isolated under their own
names and links are counted without a letter. -/
theorem binarize_keeps_crowded : crowded.grammar.WellFormed ∧
    (∃ minted r', binarize.run { grammar := crowded.grammar } = .ok minted r' ∧
      r'.grammar.Derives "S" ["a", "a", "X2"]) ∧
    (∃ wrappers w, Minting.isolateTerminals.run
        ⟨{ grammar := crowded.grammar }, { terminalPrefix := "" }⟩ = .ok wrappers w ∧
      w.grammar.Derives "S" ["a", "a", "X2"]) ∧
    ∃ links w, Minting.shortenRules.run
        ⟨{ grammar := crowded.grammar }, { chainPrefix := "", counter := 7 }⟩ = .ok links w ∧
      w.grammar.Derives "S" ["a", "a", "X2"] := by
  have hwell := fit_crowded.wellFormed
  have hS : .nonterminal "S" ∈ crowded.grammar.productions :=
    fit_crowded.nonterminal_mem_productions.2 (by decide)
  obtain ⟨⟨minted, r', hrun, hwords, -⟩, hsteps⟩ :=
    binarize_keeps_words (r := { grammar := crowded.grammar }) hwell
  obtain ⟨wrappers, w, hisolate, hisolated⟩ := (hsteps { terminalPrefix := "" }).1
  obtain ⟨links, w', hshorten, hshortened⟩ := (hsteps { chainPrefix := "", counter := 7 }).2
  exact ⟨hwell, ⟨minted, r', hrun, (hwords "S" hS _).2 crowded_derives⟩,
    ⟨wrappers, w, hisolate, (hisolated "S" hS _).2 crowded_derives⟩,
    links, w', hshorten, (hshortened "S" hS _).2 crowded_derives⟩

/-- Binarization can be undone: what it minted, and the old right sides, are recovered from the
grammar that it leaves. -/
theorem binarize_reversible {r : Revision} (h : r.grammar.WellFormed) :
    ∃ wrappers links r', binarize.run r = .ok (wrappers, links) r' ∧
      r'.grammar.Recovers r.grammar wrappers links := by
  obtain ⟨wrappers, glossary, cuts, hw, hc, hturns⟩ := turns_binarize h
  obtain ⟨added, hrun⟩ := hturns r.added
  exact ⟨wrappers, cuts.names, _, hrun, recovers_binarized hw hc h⟩

/-- The nonterminals that are minted for the crowded grammar stand for `a` and `X2`, and putting
them back leads from a new right side of `S` to the long one. -/
theorem binarize_reversible_crowded : crowded.grammar.WellFormed ∧
    ∃ wrappers links r',
      binarize.run { grammar := crowded.grammar } = .ok (wrappers, links) r' ∧
      (∀ a, a ∈ wrappers ↔ a = "a" ∨ a = "X2") ∧
      ∃ right ∈ r'.grammar.rightsOf (.nonterminal "S"), r'.grammar.UnfoldsTo wrappers links right
        [.terminal "a", .nonterminal "X1", .terminal "X2", .nonterminal "T_a"] := by
  have hwell := fit_crowded.wellFormed
  obtain ⟨wrappers, links, r', hrun, hrecovers⟩ :=
    binarize_reversible (r := { grammar := crowded.grammar }) hwell
  have hlong := mem_rightsOf_crowded.2 (.inl ⟨rfl, .inl rfl⟩)
  refine ⟨hwell, wrappers, links, r', hrun, fun a => ?_, ?_⟩
  · exact (hrecovers.mem_wrappers_iff a).trans mixed_crowded
  · exact (hrecovers.restores _ (mem_productions_of_mem_rightsOf hlong) _).1 hlong

end Transform

end ContextFree
