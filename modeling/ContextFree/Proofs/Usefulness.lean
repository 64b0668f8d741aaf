import ContextFree.Proofs.Normalization

/-! # Useful nonterminals

A nonterminal is useful if it occurs in a form that the start symbol reaches and derives a word.
Removing the unproductive heads first and the unreachable ones after them leaves useful heads
only, unless the language is empty. Nonterminals that abbreviate forms and stand in right sides
of useful heads are useful, too, so the last stage adds no useless ones.
-/

namespace ContextFree

theorem Graph.Reaches.trans {α : Type} [Ord α] [Std.TransOrd α] {graph : Graph α} {x y z : α}
    (h : graph.Reaches x y) (h' : graph.Reaches y z) : graph.Reaches x z := by
  induction h' with
  | root => exact h
  | step _ hentry hmem ih => exact ih.step hentry hmem

namespace RightSide

/-- The nonterminals of an unfolded form are those of the forms that its own stand for. -/
theorem nonterminal_mem_expand {f : Name → RightSide} {form : RightSide} {B : Name} :
    .nonterminal B ∈ expand f form ↔ ∃ A, .nonterminal A ∈ form ∧ .nonterminal B ∈ f A := by
  induction form with
  | nil => simp [expand]
  | cons X form ih => cases X <;> simp [expand, ih, or_and_right, exists_or]

end RightSide

namespace Grammar

variable {g g' : Grammar} {A B : Name} {w : Word} {root X : Symbol}

/-- A nonterminal is mentioned on a way from another one exactly if it occurs in a form that the
other one reaches. -/
theorem mentions_reaches_iff : g.mentions.Reaches (.nonterminal A) (.nonterminal B) ↔
    ∃ form, g.Reaches [.nonterminal A] form ∧ .nonterminal B ∈ form := by
  constructor
  · suffices key : ∀ X, g.mentions.Reaches (.nonterminal A) X →
        X.isTerminal = false ∧ ∃ form, g.Reaches [.nonterminal A] form ∧ X ∈ form from
      fun h => (key _ h).2
    intro X hX
    -- The form grows along the path: a head is replaced by the right side that mentions the next.
    induction hX using reaches_induction with
    | root => exact ⟨rfl, _, .refl, List.mem_cons_self⟩
    | step Y right C _ hright hC ih =>
      obtain ⟨hY, form, hform, hmemY⟩ := ih
      obtain ⟨before, after, rfl⟩ := List.append_of_mem hmemY
      cases Y with
      | terminal a => cases hY
      | nonterminal D => exact ⟨rfl, _, hform.step hright, by simp [hC]⟩
  · rintro ⟨form, hform, hB⟩
    induction hform generalizing B with
    | refl =>
      obtain rfl : B = A := by simpa using hB
      exact .root
    | @step before after right C _ hright ih =>
      -- `B` stood in the form before the step, or it came in with the right side of `C`.
      rcases List.mem_append.1 hB with hB | hB
      · rcases List.mem_append.1 hB with hB | hB
        · exact ih (List.mem_append_left _ hB)
        · exact reaches_of_mem (ih (B := C) (by simp)) hright hB
      · exact ih (List.mem_append_right _ (List.mem_cons_of_mem _ hB))

/-- The nonterminal occurs in a form that the start symbol reaches, and it derives a word. -/
structure Useful (g : Grammar) (A : Name) : Prop where
  occurs : ∃ form, g.Reaches [.nonterminal g.start] form ∧ .nonterminal A ∈ form
  productive : ∃ w, g.Derives A w

theorem useful_iff : g.Useful A ↔
    g.mentions.Reaches (.nonterminal g.start) (.nonterminal A) ∧ ∃ w, g.Derives A w := by
  rw [mentions_reaches_iff]
  exact ⟨fun h => ⟨h.occurs, h.productive⟩, fun h => ⟨h.1, h.2⟩⟩

/-- The start symbol is the only head, and it has no right sides. -/
structure Hollow (g : Grammar) : Prop where
  head_iff : ∀ X, X ∈ g.productions ↔ X = .nonterminal g.start
  rights_eq : g.rightsOf (.nonterminal g.start) = ∅

/-- All heads are useful, unless the start symbol is left alone. -/
def Neat (g : Grammar) : Prop :=
  g.Hollow ∨ ∀ A, .nonterminal A ∈ g.productions → g.Useful A

/-- The grammar `g'` has no useless heads, and its start symbol has no right sides exactly if the
language of `g` is empty; then it is the only head. -/
structure Purges (g' g : Grammar) : Prop where
  neat : g'.Hollow ∧ (∀ w, ¬g.Generates w) ∨ ∀ A, .nonterminal A ∈ g'.productions → g'.Useful A
  empty_iff : g'.rightsOf (.nonterminal g'.start) = ∅ ↔ ∀ w, ¬g.Generates w

theorem eq_root_of_reaches (hnone : g.rightsOf root = ∅) (hX : g.mentions.Reaches root X) :
    X = root := by
  induction hX using reaches_induction with
  | root => rfl
  | step Y right B _ hright _ ih =>
    exact absurd (ih ▸ hright) (Std.ExtTreeSet.eq_empty_iff_forall_not_mem.1 hnone right)

theorem not_generates_of_empty (h : g.rightsOf (.nonterminal g.start) = ∅) : ¬g.Generates w := by
  intro hw
  obtain ⟨right, hright, -⟩ := derives_iff.1 hw
  exact Std.ExtTreeSet.eq_empty_iff_forall_not_mem.1 h right hright

/-- A grammar without useless heads tells from its start symbol whether the language is empty. -/
theorem Neat.purges (h : g'.Neat) (hstart : .nonterminal g'.start ∈ g'.productions)
    (hsame : (∃ w, g'.Generates w) ↔ ∃ w, g.Generates w) : g'.Purges g := by
  have hempty : g'.rightsOf (.nonterminal g'.start) = ∅ ↔ ∀ w, ¬g.Generates w := by
    rw [← not_exists, ← hsame, not_exists]
    constructor
    · exact fun hnone w => not_generates_of_empty hnone
    · intro hnone
      rcases h with hhollow | huseful
      · exact hhollow.rights_eq
      · obtain ⟨w, hw⟩ := (huseful _ hstart).productive
        exact absurd hw (hnone w)
  exact ⟨h.imp_left fun hhollow => ⟨hhollow, hempty.1 hhollow.rights_eq⟩, hempty⟩

/-- Every head is reached from the start symbol. -/
def AllReached (g : Grammar) : Prop :=
  ∀ X ∈ g.productions, g.mentions.Reaches (.nonterminal g.start) X

/-- Every head but the start symbol derives a word, and so does every nonterminal that a right
side mentions. -/
structure AllProductive (g : Grammar) : Prop where
  of_head : ∀ A, .nonterminal A ∈ g.productions → A = g.start ∨ ∃ w, g.Derives A w
  of_mem : ∀ X, ∀ right ∈ g.rightsOf X, ∀ B, .nonterminal B ∈ right → ∃ w, g.Derives B w

/-- What is reached is still reached where the symbols that are reached keep their right sides. -/
theorem reaches_of_kept (hkept : ∀ X, g.mentions.Reaches root X → ∀ right ∈ g.rightsOf X,
    right ∈ g'.rightsOf X) (hX : g.mentions.Reaches root X) : g'.mentions.Reaches root X := by
  induction hX using reaches_induction with
  | root => exact .root
  | step Y right B hY hright hB ih => exact reaches_of_mem ih (hkept Y hY right hright) hB

section Trimming

variable (h : g.WellFormed)
include h

theorem reaches_withoutUnreachable (hX : g.mentions.Reaches (.nonterminal g.start) X) :
    g.withoutUnreachable.mentions.Reaches (.nonterminal g.start) X :=
  reaches_of_kept
    (fun _ hY _ hright => (mem_rightsOf_withoutUnreachable h).2 ⟨hright, hY⟩) hX

theorem allReached_withoutUnreachable : g.withoutUnreachable.AllReached := fun _ hX =>
  reaches_withoutUnreachable h (reaches_of_mem_withoutUnreachable h hX)

theorem useful_withoutUnreachable
    (hproductive : ∀ A, .nonterminal A ∈ g.productions → ∃ w, g.Derives A w)
    (hA : .nonterminal A ∈ g.withoutUnreachable.productions) : g.withoutUnreachable.Useful A := by
  obtain ⟨w, hw⟩ := hproductive A (mem_productions_without.1 hA).1
  exact useful_iff.2 ⟨allReached_withoutUnreachable h _ hA, w,
    Derives.withoutUnreachable h (reaches_of_mem_withoutUnreachable h hA) hw⟩

/-- Nothing but the start symbol is reached when it has no right sides. -/
theorem hollow_withoutUnreachable (hnone : g.rightsOf (.nonterminal g.start) = ∅) :
    g.withoutUnreachable.Hollow := by
  refine ⟨fun X => ⟨fun hX => ?_, ?_⟩, ?_⟩
  · exact eq_root_of_reaches hnone (reaches_of_mem_withoutUnreachable h hX)
  · rintro rfl
    exact h.withoutUnreachable.start_mem
  · refine Std.ExtTreeSet.eq_empty_iff_forall_not_mem.2 fun right hright => ?_
    exact Std.ExtTreeSet.eq_empty_iff_forall_not_mem.1 hnone right
      ((mem_rightsOf_withoutUnreachable h).1 hright).1

theorem exists_derives_withoutUnproductive (hA : .nonterminal A ∈ g.productive) :
    ∃ w, g.withoutUnproductive.Derives A w := by
  obtain ⟨w, hw⟩ := (mem_productive h).1 hA
  exact ⟨w, Yields.withoutUnproductive h hw⟩

theorem allProductive_withoutUnproductive : g.withoutUnproductive.AllProductive where
  of_head A hA := by
    obtain ⟨hA, hkept⟩ := mem_productions_without.1 (Std.ExtTreeMap.mem_map.1 hA)
    by_cases heq : A = g.start
    · exact .inl heq
    · refine .inr (exists_derives_withoutUnproductive h (Classical.not_not.1 fun hnot => ?_))
      exact hkept (mem_unproductive.2 ⟨hA, hnot, by simpa using heq⟩)
  of_mem X right hright B hB :=
    exists_derives_withoutUnproductive h ((mem_rightsOf_withoutUnproductive.1 hright).2.2 B hB)

/-- The heads that are left derive words, except for the start symbol of an empty language. -/
theorem derives_withoutUnproductive (hstart : ∃ w, g.Generates w)
    (hA : .nonterminal A ∈ g.withoutUnproductive.productions) :
    ∃ w, g.withoutUnproductive.Derives A w := by
  rcases (allProductive_withoutUnproductive h).of_head A hA with rfl | hA
  · exact exists_derives_withoutUnproductive h ((mem_productive h).2 hstart)
  · exact hA

theorem rightsOf_start_withoutUnproductive (hstart : ¬∃ w, g.Generates w) :
    g.withoutUnproductive.rightsOf (.nonterminal g.start) = ∅ := by
  refine Std.ExtTreeSet.eq_empty_iff_forall_not_mem.2 fun right hright => ?_
  obtain ⟨hright, -, hall⟩ := mem_rightsOf_withoutUnproductive.1 hright
  obtain ⟨w, hw⟩ := exists_yields_of_forall fun B hB => (mem_productive h).1 (hall B hB)
  exact hstart ⟨w, derives_iff.2 ⟨right, hright, hw⟩⟩

/-- The order of the two removals matters: dropping rules strands heads, but dropping heads that
are not reached makes no other head unproductive. -/
theorem neat_removals : g.withoutUnproductive.withoutUnreachable.Neat := by
  have hwell := h.withoutUnproductive
  by_cases hstart : ∃ w, g.Generates w
  · exact .inr fun A hA => useful_withoutUnreachable hwell
      (fun _ => derives_withoutUnproductive h hstart) hA
  · exact .inl (hollow_withoutUnreachable hwell (rightsOf_start_withoutUnproductive h hstart))

theorem exists_generates_removals :
    (∃ w, g.withoutUnproductive.withoutUnreachable.Generates w) ↔ ∃ w, g.Generates w := by
  have hwell := h.withoutUnproductive
  constructor
  · rintro ⟨w, hw⟩
    exact ⟨w, Yields.of_withoutUnproductive (hw.of_withoutUnreachable hwell)⟩
  · rintro ⟨w, hw⟩
    exact ⟨w, Derives.withoutUnreachable hwell .root (Yields.withoutUnproductive h hw)⟩

end Trimming

namespace Abbreviates

variable {glossary : Glossary} (h : g'.Abbreviates g glossary)
include h

/-- A new nonterminal reaches what the form that it abbreviates mentions. -/
theorem reaches_of_meaning (hA : g'.mentions.Reaches root (.nonterminal A))
    (hB : .nonterminal B ∈ glossary.meaning A) : g'.mentions.Reaches root (.nonterminal B) := by
  -- The right side of `A` mentions only nonterminals that stand for shorter forms.
  induction hn : (glossary.meaning A).length using Nat.strongRecOn generalizing A with
  | ind n ih =>
    rcases glossary.meaning_cases A with hself | hmem
    · obtain rfl : B = A := by simpa [hself] using hB
      exact hA
    · obtain ⟨right, hright, hunit, hexpand⟩ := h.define A _ hmem
      rw [← hexpand] at hB
      obtain ⟨C, hC, hB⟩ := RightSide.nonterminal_mem_expand.1 hB
      have hlt := RightSide.length_lt_length_expand h.meaning_ne_nil hC (hunit C)
      rw [hexpand, hn] at hlt
      exact ih _ hlt (reaches_of_mem hA hright hC) hB rfl

theorem reaches_of_old (hX : g.mentions.Reaches root X) : g'.mentions.Reaches root X := by
  induction hX using reaches_induction with
  | root => exact .root
  | step Y right C _ hright hC ih =>
    obtain ⟨right', hright', rfl⟩ := h.fold Y right hright
    obtain ⟨A, hA, hC⟩ := RightSide.nonterminal_mem_expand.1 hC
    exact h.reaches_of_meaning (reaches_of_mem ih hright' hA) hC

/-- New nonterminals that old heads reach are useful if old ones are, and there are none if the
start symbol stands alone. -/
theorem neat (hg : g.Neat) (hstart : .nonterminal g'.start ∈ g'.productions)
    (hheads : ∀ X ∈ g'.productions,
      X ∈ g.productions ∨ ∃ A ∈ glossary.map Prod.fst, X = .nonterminal A)
    (hlinked : ∀ A ∈ glossary.map Prod.fst,
      ∃ B, .nonterminal B ∈ g.productions ∧ g'.mentions.Reaches (.nonterminal B) (.nonterminal A))
    (hknown : ∀ A form, (A, form) ∈ glossary → ∀ B, .nonterminal B ∈ form →
      .nonterminal B ∈ g.productions) : g'.Neat := by
  rcases hg with hhollow | huseful
  -- The start symbol has no right sides in `g`, hence none in `g'`: no link leads away from it.
  · have hnone : g'.rightsOf (.nonterminal g.start) = ∅ := by
      refine Std.ExtTreeSet.eq_empty_iff_forall_not_mem.2 fun right hright => ?_
      rcases h.unfold _ right hright with hold | ⟨A, hA, hmem⟩
      · exact Std.ExtTreeSet.eq_empty_iff_forall_not_mem.1 hhollow.rights_eq _ hold
      · cases hA
        exact h.fresh.notMem_productions (List.mem_map.2 ⟨_, hmem, rfl⟩)
          ((hhollow.head_iff _).2 rfl)
    refine .inl ⟨fun X => ⟨fun hX => ?_, fun hX => hX ▸ hstart⟩, h.start_eq ▸ hnone⟩
    rcases hheads X hX with hX | ⟨A, hA, rfl⟩
    · rw [(hhollow.head_iff X).1 hX, h.start_eq]
    · obtain ⟨B, hB, hreaches⟩ := hlinked A hA
      rw [(hhollow.head_iff _).1 hB] at hreaches
      rw [eq_root_of_reaches hnone hreaches, h.start_eq]
  · refine .inr fun A hA => ?_
    -- An old head stays useful; a new one is linked to an old head and derives what it stands for.
    rcases hheads _ hA with hold | ⟨A', hnew, heq⟩
    · obtain ⟨hreached, w, hw⟩ := useful_iff.1 (huseful A hold)
      exact useful_iff.2 ⟨h.start_eq ▸ h.reaches_of_old hreached, w, h.yields_of_old hw⟩
    · cases heq
      obtain ⟨B, hB, hlink⟩ := hlinked A hnew
      have hreached := h.reaches_of_old (useful_iff.1 (huseful B hB)).1
      obtain ⟨⟨A, form⟩, hmem, rfl⟩ := List.mem_map.1 hnew
      obtain ⟨w, hw⟩ := exists_yields_of_forall fun C hC =>
        (huseful C (hknown A form hmem C hC)).productive
      rw [← Glossary.meaning_eq h.fresh.nodup hmem] at hw
      exact useful_iff.2 ⟨h.start_eq ▸ hreached.trans hlink, w,
        h.derives_of_meaning (h.yields_of_old hw)⟩

end Abbreviates

end Grammar

namespace RightSide.Fits

variable {right : RightSide} {names : List Name}

/-- The first link of a chain stands in what remains of the right side, and each of the others in
the right side of the link before it. -/
theorem forall_names {P : Name → Prop} (h : Fits right names)
    (hfirst : ∀ N, .nonterminal N ∈ (split right names).1 → N ∈ names → P N)
    (hnext : ∀ N pair, (N, pair) ∈ (split right names).2 → P N →
      ∀ M, .nonterminal M ∈ pair → M ∈ names → P M) :
    ∀ N ∈ names, P N := by
  induction h with
  | short _ => exact fun N hN => nomatch hN
  | @long X Y Z N right names h ih =>
    have hN : P N := hfirst N (by simp [split]) List.mem_cons_self
    refine List.forall_mem_cons.2 ⟨hN, ih (fun M hM hmem => ?_) fun M pair hM hP K hK hmem => ?_⟩
    · exact hnext N _ List.mem_cons_self hN M hM (List.mem_cons_of_mem _ hmem)
    · exact hnext M pair (List.mem_cons_of_mem _ hM) hP K hK (List.mem_cons_of_mem _ hmem)

end RightSide.Fits

namespace Grammar

variable {g : Grammar} {s : NameSupply}

/-- Every terminal that is replaced gives its nonterminal a place in a right side. -/
theorem Wraps.neat {wrappers : Wrappers} {glossary : Glossary}
    (hw : g.Wraps s g.mixedTerminals.toList wrappers glossary) (h : g.WellFormed) (hg : g.Neat) :
    (g.isolated wrappers glossary).Neat := by
  refine (hw.abbreviates_isolated h).neat hg (hw.wellFormed_isolated h).start_mem
    (fun X hX => ?_) (fun T hT => ?_) fun T form hT B hB => ?_
  · exact mem_productions_isolated.1 hX
  · obtain ⟨⟨T, form⟩, hmem, rfl⟩ := List.mem_map.1 hT
    obtain ⟨a, ha, rfl, -⟩ := hw.form_eq T form hmem
    have hwrapper : wrappers[a]? = some T := hw.of_mem nodup_mixedTerminals a T hmem
    obtain ⟨X, right, hright, hlength, hmem⟩ :=
      mem_mixedTerminals.1 (Std.ExtTreeSet.mem_toList.1 ha)
    obtain ⟨A, rfl⟩ := h.exists_nonterminal (mem_productions_of_mem_rightsOf hright)
    refine ⟨A, mem_productions_of_mem_rightsOf hright, reaches_of_mem .root
      (hw.mem_rightsOf_isolated.2 (.inl ⟨right, hright, rfl⟩)) ?_⟩
    rw [RightSide.isolate, if_pos hlength]
    exact List.mem_map.2 ⟨_, hmem, by rw [Symbol.wrap, hwrapper, Option.elim_some]⟩
  · obtain ⟨a, -, rfl, -⟩ := hw.form_eq T form hT
    cases List.mem_singleton.1 hB

/-- The links of a chain are reached one after the other from the head whose right side was
split. -/
theorem IsCutBy.neat {cuts : Cuts} (hc : g.IsCutBy s cuts) (h : g.WellFormed) (hg : g.Neat) :
    (g.shortened cuts).Neat := by
  refine (hc.abbreviates_shortened h).neat hg (hc.wellFormed_shortened h).start_mem
    (fun X hX => ?_) (fun N hN => ?_) fun N form hN B hB => ?_
  · rw [Cuts.map_fst_glossary]
    exact mem_productions_reserve.1 (hc.mem_productions_shortened.1 hX)
  · obtain ⟨⟨N, form⟩, hmem, rfl⟩ := List.mem_map.1 hN
    obtain ⟨X, cs, hcs, c, hmemc, hsuffix⟩ := Cuts.mem_glossary.1 hmem
    have hold := hc.mem_rightsOf_iff.2 ⟨cs, hcs, c, hmemc, rfl⟩
    obtain ⟨A, rfl⟩ := h.exists_nonterminal (mem_productions_of_mem_rightsOf hold)
    refine ⟨A, mem_productions_of_mem_rightsOf hold, ?_⟩
    have hname : N ∈ c.names := by
      rw [← RightSide.map_fst_suffixes c.fits]
      exact List.mem_map.2 ⟨_, hsuffix, rfl⟩
    refine c.fits.forall_names (P := fun M => (g.shortened cuts).mentions.Reaches
      (.nonterminal A) (.nonterminal M)) (fun M hM _ => ?_) (fun M pair hpair hreached K hK _ => ?_)
      N hname
    · exact reaches_of_mem .root
        (hc.mem_rightsOf_shortened.2 (.inl ⟨cs, hcs, c, hmemc, rfl⟩)) hM
    · exact reaches_of_mem hreached (hc.mem_rightsOf_shortened.2
        (.inr ⟨M, rfl, Cuts.mem_links.2 ⟨_, cs, hcs, c, hmemc, hpair⟩⟩)) hK
  · obtain ⟨X, cs, hcs, c, hmemc, hsuffix⟩ := Cuts.mem_glossary.1 hN
    exact h.mem_productions (hc.mem_rightsOf_iff.2 ⟨cs, hcs, c, hmemc, rfl⟩)
      ((RightSide.of_mem_suffixes c.fits hsuffix).2 _ hB)

theorem neat_trimmed (h : g.WellFormed) : g.trimmed.Neat :=
  neat_removals h.reduced

end Grammar

namespace Normalization

open Grammar

variable {g : Grammar}

theorem Course.neat_final (c : Course g) (h : g.WellFormed) : c.final.Neat :=
  c.cut.neat (c.wellFormed_isolated h) (c.wraps.neat h.trimmed (neat_trimmed h))

/-- The fourth stage alone and the whole conversion leave useful heads only, unless the language
is empty and nothing but the start symbol is left. -/
theorem normalize_purges {r : Revision} (h : r.grammar.WellFormed) :
    (∃ result r', (Stage.run .productivity).run r = .ok result r' ∧
      r'.grammar.Purges r.grammar) ∧
    ∃ passages r', normalize.run r = .ok passages r' ∧ r'.grammar.Purges r.grammar := by
  constructor
  · obtain ⟨added, hrun⟩ := turns_productivity h r.added
    have hwell := h.withoutUnproductive.withoutUnreachable
    exact ⟨_, _, hrun, (neat_removals h).purges hwell.start_mem (exists_generates_removals h)⟩
  · obtain ⟨c, hturns⟩ := turns_normalize h
    obtain ⟨added, hrun⟩ := hturns r.added
    have hlanguage : (∃ w, c.final.Generates w) ↔ ∃ w, r.grammar.Generates w :=
      exists_congr fun w => (c.represents_final h).generates_iff
    exact ⟨_, _, hrun, (c.neat_final h).purges (c.wellFormed_final h).start_mem hlanguage⟩

/-- The brackets have a non-empty language, so all nonterminals of their conversion are useful. -/
theorem normalize_brackets_useful : Parts.brackets.grammar.WellFormed ∧
    ∃ passages r', normalize.run { grammar := Parts.brackets.grammar } = .ok passages r' ∧
      ∀ A, .nonterminal A ∈ r'.grammar.productions → r'.grammar.Useful A := by
  have hwell := Parts.fit_brackets.wellFormed
  obtain ⟨-, passages, r', hrun, hpurges⟩ :=
    normalize_purges (r := { grammar := Parts.brackets.grammar }) hwell
  refine ⟨hwell, passages, r', hrun, hpurges.neat.resolve_left fun hhollow => ?_⟩
  exact hhollow.2 [] Parts.brackets_generates_nil

end Normalization

end ContextFree
