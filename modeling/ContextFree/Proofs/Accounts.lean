import ContextFree.Proofs.Iteration
import ContextFree.Proofs.Stability
import Mathlib.Data.List.Nodup

/-! # What the reports account for

The report about a stage names the nonterminals that disappeared or appeared, each of them once,
so the counts before and after the stage differ by the lengths of its lists. Sets count a member
once, so the rules only add up because no two rewritten rules coincide: unfolding what the new
nonterminals abbreviate restores each rule.
-/

namespace ContextFree

/-- The number of links that the rules of a list need. -/
def linkTotal : List Rule → Nat
  | [] => 0
  | r :: rules => RightSide.linkCount r.right + linkTotal rules

section LinkTotal

variable {rules rules' : List Rule}

theorem linkTotal_append : linkTotal (rules ++ rules') = linkTotal rules + linkTotal rules' := by
  induction rules with
  | nil => simp [linkTotal]
  | cons r rules ih =>
    rw [List.cons_append, linkTotal, ih, linkTotal]
    omega

theorem linkTotal_perm (h : rules.Perm rules') : linkTotal rules = linkTotal rules' := by
  induction h with
  | nil => rfl
  | cons r _ ih => rw [linkTotal, linkTotal, ih]
  | swap r s rules =>
    simp only [linkTotal]
    omega
  | trans _ _ ih ih' => exact ih.trans ih'

/-- Rewriting right sides to others of the same length does not change what they need. -/
theorem linkTotal_map {f : Rule → Rule} (h : ∀ r, (f r).right.length = r.right.length) :
    linkTotal (rules.map f) = linkTotal rules := by
  induction rules with
  | nil => rfl
  | cons r rules ih =>
    rw [List.map_cons, linkTotal, linkTotal, ih, RightSide.linkCount, RightSide.linkCount, h]

theorem linkTotal_eq_zero (h : ∀ r ∈ rules, r.right.length ≤ 2) : linkTotal rules = 0 := by
  induction rules with
  | nil => rfl
  | cons r rules ih =>
    have hr := h r List.mem_cons_self
    rw [linkTotal, ih fun s hs => h s (List.mem_cons_of_mem _ hs), RightSide.linkCount]
    omega

end LinkTotal

theorem RightSide.Fits.length_eq {right : RightSide} {names : List Name} (h : Fits right names) :
    names.length = linkCount right := by
  induction h with
  | short hlength =>
    rw [linkCount, List.length_nil]
    omega
  | long _ ih =>
    rw [List.length_cons, ih, linkCount, linkCount]
    simp

namespace Grammar

variable {g g' : Grammar}

/-- The number of heads is the length of any list of all of them without repetitions. -/
theorem size_productions_eq {Xs : List Symbol} (hnodup : Xs.Nodup)
    (hmem : ∀ X, X ∈ Xs ↔ X ∈ g.productions) : g.productions.size = Xs.length := by
  have hperm : g.heads.Perm Xs := (List.perm_ext_iff_of_nodup Std.ExtTreeMap.nodup_keys hnodup).2
    fun X => mem_heads.trans (hmem X).symm
  rw [← hperm.length_eq, heads, Std.ExtTreeMap.length_keys]

variable (h : ∀ X ∈ g.productions, X.isTerminal = false)
include h

theorem rules_eq_flatMap : g.rules = g.productions.toList.flatMap fun (X, rights) =>
    rights.toList.map (Rule.mk X.name) := by
  rw [rules]
  refine List.flatMap_congr ?_
  rintro ⟨X, rights⟩ hX
  have hentry := Std.ExtTreeMap.mem_toList_iff_getElem?_eq_some.1 hX
  have hhead : X ∈ g.productions := by simp [Std.ExtTreeMap.mem_iff_isSome_getElem?, hentry]
  cases X with
  | nonterminal A => rfl
  | terminal a => cases h _ hhead

theorem size_eq_length_rules : g.size = g.rules.length := by
  rw [size, allRights, rules_eq_flatMap h]
  simp [List.length_flatMap]

end Grammar

/-- The list has exactly the names with a property, each of them once. -/
def Enumerates (names : List Name) (P : Name → Prop) : Prop :=
  names.Nodup ∧ ∀ A, A ∈ names ↔ P A

namespace Grammar

variable {g g' g'' : Grammar} {names more : List Name}

/-- The name is that of a nonterminal of the first grammar, but not of the second one. -/
def Exclusive (g g' : Grammar) (A : Name) : Prop :=
  .nonterminal A ∈ g.productions ∧ .nonterminal A ∉ g'.productions

section Chain

variable (hsub : ∀ X ∈ g'.productions, X ∈ g.productions)
include hsub

/-- The names that one grammar has beyond another one account for its other heads. -/
theorem size_of_enumerates (h : ∀ X ∈ g.productions, X.isTerminal = false)
    (hnames : Enumerates names (g.Exclusive g')) :
    g.productions.size = g'.productions.size + names.length := by
  have hall : (g'.heads ++ names.map Symbol.nonterminal).Nodup := by
    refine List.nodup_append.2 ⟨Std.ExtTreeMap.nodup_keys,
      hnames.1.map fun _ _ => Symbol.nonterminal.inj, ?_⟩
    rintro X hX Y hY rfl
    obtain ⟨A, hA, rfl⟩ := List.mem_map.1 hY
    exact ((hnames.2 A).1 hA).2 (mem_heads.1 hX)
  rw [size_productions_eq hall fun X => ?_, List.length_append, List.length_map, heads,
    Std.ExtTreeMap.length_keys]
  rw [List.mem_append, mem_heads, List.mem_map]
  constructor
  · rintro (hX | ⟨A, hA, rfl⟩)
    · exact hsub X hX
    · exact ((hnames.2 A).1 hA).1
  · intro hX
    by_cases hkept : X ∈ g'.productions
    · exact .inl hkept
    · have hname := Symbol.eq_nonterminal (h X hX)
      rw [hname] at hX hkept
      exact .inr ⟨X.name, (hnames.2 _).2 ⟨hX, hkept⟩, hname.symm⟩

/-- What a grammar has beyond a smaller one is what it has beyond a third one between them, and
what that one has beyond the smaller one. -/
theorem enumerates_append (hsub' : ∀ X ∈ g''.productions, X ∈ g'.productions)
    (hnames : Enumerates names (g.Exclusive g')) (hmore : Enumerates more (g'.Exclusive g'')) :
    (∀ A ∈ names, A ∉ more) ∧ Enumerates (names ++ more) (g.Exclusive g'') := by
  have hdisjoint (A : Name) (hA : A ∈ names) : A ∉ more := fun hmem =>
    ((hnames.2 A).1 hA).2 ((hmore.2 A).1 hmem).1
  refine ⟨hdisjoint, List.nodup_append.2 ⟨hnames.1, hmore.1, ?_⟩, fun A => ?_⟩
  · rintro A hA B hB rfl
    exact hdisjoint A hA hB
  · rw [List.mem_append, hnames.2, hmore.2]
    constructor
    · rintro (⟨hA, hnot⟩ | ⟨hA, hnot⟩)
      · exact ⟨hA, fun hA' => hnot (hsub' _ hA')⟩
      · exact ⟨hsub _ hA, hnot⟩
    · rintro ⟨hA, hnot⟩
      by_cases hbetween : .nonterminal A ∈ g'.productions
      · exact .inr ⟨hbetween, hnot⟩
      · exact .inl ⟨hA, hbetween⟩

end Chain

/-- The names of removed nonterminals are those that are missing afterwards. -/
theorem enumerates_without {symbols : SymbolSet} (h : ∀ X ∈ g.productions, X.isTerminal = false)
    (hsymbols : ∀ X ∈ symbols, X ∈ g.productions) :
    Enumerates (Symbol.names symbols.toList) (g.Exclusive (g.without symbols)) := by
  have hkinds (X : Symbol) (hX : X ∈ symbols) : X.isTerminal = false := h X (hsymbols X hX)
  refine ⟨?_, fun A => ?_⟩
  · -- Nonterminals with one name are equal.
    refine List.Nodup.map_on (fun X hX Y hY heq => ?_)
      ((arrangeBy_perm Symbol.name symbols.toList).nodup_iff.2 (nodup_toList _))
    rw [Symbol.mem_byName, Std.ExtTreeSet.mem_toList] at hX hY
    rw [Symbol.eq_nonterminal (hkinds X hX), Symbol.eq_nonterminal (hkinds Y hY), heq]
  · have hname : A ∈ Symbol.names symbols.toList ↔ .nonterminal A ∈ symbols := by
      simp only [Symbol.names, List.mem_map, Symbol.mem_byName, Std.ExtTreeSet.mem_toList]
      constructor
      · rintro ⟨X, hX, rfl⟩
        rwa [← Symbol.eq_nonterminal (hkinds X hX)]
      · exact fun hA => ⟨_, hA, rfl⟩
    rw [hname, Exclusive, mem_productions_without]
    constructor
    · exact fun hA => ⟨hsymbols _ hA, fun hnot => hnot.2 hA⟩
    · rintro ⟨hA, hnot⟩
      exact Classical.not_not.1 fun hkept => hnot ⟨hA, hkept⟩

/-- Rules whose right sides unfold to those of different rules are different. -/
theorem nodup_of_unfold {L : List Rule} {f : Name → RightSide}
    (h : L.map (fun r => ⟨r.left, RightSide.expand f r.right⟩) = g.rules) : L.Nodup :=
  List.Nodup.of_map _ (h ▸ nodup_rules)

/-- A list of rules without repetitions is put together from rules for old and for new
nonterminals. -/
theorem rules_perm_append {old new : List Rule} (hold : old.Nodup) (hnew : new.Nodup)
    (hapart : ∀ r ∈ old, ∀ r' ∈ new, r.left ≠ r'.left)
    (hmem : ∀ A right, right ∈ g.rightsOf (.nonterminal A) ↔
      (⟨A, right⟩ : Rule) ∈ old ∨ (⟨A, right⟩ : Rule) ∈ new) : g.rules.Perm (old ++ new) := by
  have happend : (old ++ new).Nodup := by
    refine List.nodup_append.2 ⟨hold, hnew, ?_⟩
    rintro r hr _ hr' rfl
    exact hapart r hr r hr' rfl
  refine (List.perm_ext_iff_of_nodup nodup_rules happend).2 fun r => ?_
  rw [mem_rules, hmem, List.mem_append]

theorem nodup_map_fst_toList (wrappers : Wrappers) : (wrappers.toList.map Prod.fst).Nodup := by
  rw [Std.ExtTreeMap.map_fst_toList_eq_keys]
  exact Std.ExtTreeMap.nodup_keys

section Wrapped

variable {s : NameSupply} {wrappers : Wrappers} {glossary : Glossary}
  (hw : g.Wraps s g.mixedTerminals.toList wrappers glossary)
include hw

theorem Wraps.mem_toList {a T : Name} :
    (a, T) ∈ wrappers.toList ↔ (T, [.terminal a]) ∈ glossary := by
  rw [Std.ExtTreeMap.mem_toList_iff_getElem?_eq_some]
  exact ⟨hw.mem a T, hw.of_mem nodup_mixedTerminals a T⟩

theorem Wraps.mem_values {T : Name} :
    T ∈ wrappers.toList.map Prod.snd ↔ T ∈ glossary.map Prod.fst := by
  constructor
  · intro hT
    obtain ⟨⟨a, T⟩, hmem, rfl⟩ := List.mem_map.1 hT
    exact List.mem_map.2 ⟨_, hw.mem_toList.1 hmem, rfl⟩
  · intro hT
    obtain ⟨⟨T, form⟩, hmem, rfl⟩ := List.mem_map.1 hT
    obtain ⟨a, -, rfl, -⟩ := hw.form_eq T form hmem
    exact List.mem_map.2 ⟨_, hw.mem_toList.2 hmem, rfl⟩

theorem Wraps.enumerates : Enumerates (wrappers.toList.map Prod.snd)
    ((g.isolated wrappers glossary).Exclusive g) := by
  refine ⟨?_, fun T => ?_⟩
  · -- A nonterminal stands for one terminal only.
    refine List.Nodup.map_on ?_ (List.Nodup.of_map Prod.fst (nodup_map_fst_toList wrappers))
    rintro ⟨a, T⟩ ha ⟨b, T'⟩ hb rfl
    have heq := eq_of_mem_of_nodup hw.fresh.nodup (hw.mem_toList.1 ha) (hw.mem_toList.1 hb)
    cases heq
    rfl
  · rw [hw.mem_values, Exclusive, mem_productions_isolated]
    constructor
    · exact fun hT => ⟨.inr ⟨T, hT, rfl⟩, hw.fresh.notMem_productions hT⟩
    · rintro ⟨hT | ⟨T, hT, heq⟩, hnot⟩
      · exact absurd hT hnot
      · cases heq
        exact hT

/-- Each old rule is replaced by one of its own, and each new nonterminal has one rule. -/
theorem Wraps.rules_perm (h : g.WellFormed) : (g.isolated wrappers glossary).rules.Perm
    (g.rules.map (fun r => ⟨r.left, RightSide.isolate wrappers r.right⟩) ++
      wrappers.toList.map fun (a, T) => ⟨T, [.terminal a]⟩) := by
  have hold : (g.rules.map fun r =>
      (⟨r.left, RightSide.isolate wrappers r.right⟩ : Rule)).Nodup := by
    refine nodup_of_unfold (g := g) (f := glossary.meaning) ?_
    rw [List.map_map]
    refine (List.map_congr_left fun r hr => ?_).trans (List.map_id _)
    simp only [Function.comp_apply, hw.expand_isolate h (mem_rules.1 hr), id]
  have hnew : (wrappers.toList.map fun (a, T) => (⟨T, [.terminal a]⟩ : Rule)).Nodup := by
    refine List.Nodup.map_on ?_ (List.Nodup.of_map Prod.fst (nodup_map_fst_toList wrappers))
    rintro ⟨a, T⟩ - ⟨b, T'⟩ - heq
    simpa [and_comm] using heq
  refine rules_perm_append hold hnew ?_ fun A right => ?_
  · intro r hr r' hr' hleft
    obtain ⟨old, hold, rfl⟩ := List.mem_map.1 hr
    obtain ⟨⟨a, T⟩, hT, rfl⟩ := List.mem_map.1 hr'
    obtain rfl : old.left = T := hleft
    exact hw.fresh.notMem_productions (hw.mem_values.1 (List.mem_map.2 ⟨_, hT, rfl⟩))
      (mem_productions_of_mem_rightsOf (mem_rules.1 hold))
  · rw [hw.mem_rightsOf_isolated, List.mem_map, List.mem_map]
    refine or_congr ⟨?_, ?_⟩ ⟨?_, ?_⟩
    · rintro ⟨old, hold, rfl⟩
      exact ⟨⟨A, old⟩, mem_rules.2 hold, rfl⟩
    · rintro ⟨r, hr, heq⟩
      cases heq
      exact ⟨r.right, mem_rules.1 hr, rfl⟩
    · rintro ⟨T, heq, hT⟩
      cases heq
      obtain ⟨a, -, rfl, -⟩ := hw.form_eq A right hT
      exact ⟨(a, A), hw.mem_toList.2 hT, rfl⟩
    · rintro ⟨⟨a, T⟩, hT, heq⟩
      cases heq
      exact ⟨A, rfl, hw.mem_toList.1 hT⟩

theorem Wraps.size_isolated (h : g.WellFormed) :
    (g.isolated wrappers glossary).size = g.size + wrappers.toList.length := by
  rw [size_eq_length_rules (hw.wellFormed_isolated h).heads_nonterminal,
    (hw.rules_perm h).length_eq, List.length_append, List.length_map, List.length_map,
    size_eq_length_rules h.heads_nonterminal]

theorem Wraps.linkTotal_isolated (h : g.WellFormed) :
    linkTotal (g.isolated wrappers glossary).rules = linkTotal g.rules := by
  have hnew : linkTotal (wrappers.toList.map fun (a, T) => ⟨T, [.terminal a]⟩) = 0 := by
    refine linkTotal_eq_zero fun r hr => ?_
    obtain ⟨⟨a, T⟩, -, rfl⟩ := List.mem_map.1 hr
    simp
  rw [linkTotal_perm (hw.rules_perm h), linkTotal_append,
    linkTotal_map fun r => RightSide.length_isolate, hnew, Nat.add_zero]

end Wrapped

section CutUp

variable {s : NameSupply} {cuts : Cuts} (hc : g.IsCutBy s cuts)
include hc

theorem IsCutBy.enumerates : Enumerates cuts.names ((g.shortened cuts).Exclusive g) := by
  refine ⟨hc.fresh.nodup, fun N => ?_⟩
  rw [Exclusive, hc.mem_productions_shortened, mem_productions_reserve]
  constructor
  · exact fun hN => ⟨.inr ⟨N, hN, rfl⟩, hc.fresh.notMem_productions hN⟩
  · rintro ⟨hN | ⟨M, hM, heq⟩, hnot⟩
    · exact absurd hN hnot
    · cases heq
      exact hM

theorem IsCutBy.rules_eq (h : g.WellFormed) :
    g.rules = cuts.flatMap fun (X, cs) => cs.map fun c => ⟨X.name, c.right⟩ := by
  have hentries := congrArg (List.flatMap fun (X, rights) => rights.map (Rule.mk (Symbol.name X)))
    hc.entries
  rw [List.flatMap_map, List.flatMap_map] at hentries
  rw [rules_eq_flatMap h.heads_nonterminal]
  refine hentries.symm.trans (List.flatMap_congr fun cut _ => ?_)
  change (cut.2.map Cut.right).map (Rule.mk cut.1.name) = _
  rw [List.map_map]
  rfl

theorem IsCutBy.length_names (h : g.WellFormed) : cuts.names.length = linkTotal g.rules := by
  have hlist (X : Symbol) (cs : List Cut) :
      linkTotal (cs.map fun c => ⟨X.name, c.right⟩) = (cs.flatMap Cut.names).length := by
    induction cs with
    | nil => rfl
    | cons c cs ih =>
      rw [List.map_cons, linkTotal, ih, List.flatMap_cons, List.length_append, c.fits.length_eq]
  rw [hc.rules_eq h]
  clear hc
  induction cuts with
  | nil => rfl
  | cons cut cuts ih =>
    rw [List.flatMap_cons, linkTotal_append, ← ih, hlist]
    exact List.length_append

/-- Each old rule is replaced by one of its own, and each link has one rule. -/
theorem IsCutBy.rules_perm (h : g.WellFormed) : (g.shortened cuts).rules.Perm
    ((cuts.flatMap fun (X, cs) => cs.map fun c => ⟨X.name, c.pair⟩) ++
      cuts.links.map fun (N, pair) => ⟨N, pair⟩) := by
  have hold : (cuts.flatMap fun (X, cs) =>
      cs.map fun c => (⟨X.name, c.pair⟩ : Rule)).Nodup := by
    refine nodup_of_unfold (g := g) (f := cuts.glossary.meaning) ?_
    rw [hc.rules_eq h, List.map_flatMap]
    refine List.flatMap_congr ?_
    rintro ⟨X, cs⟩ hcs
    rw [List.map_map]
    refine List.map_congr_left fun c hmem => ?_
    simp only [Function.comp_apply, hc.expand_pair h hcs hmem]
  have hnew : (cuts.links.map fun (N, pair) => (⟨N, pair⟩ : Rule)).Nodup := by
    have hlinks : (cuts.links.map Prod.fst).Nodup := by
      rw [Cuts.map_fst_links]
      exact hc.fresh.nodup
    refine List.Nodup.map_on ?_ (List.Nodup.of_map Prod.fst hlinks)
    rintro ⟨N, pair⟩ - ⟨N', pair'⟩ - heq
    cases heq
    rfl
  have hhead (X : Symbol) (cs : List Cut) (hcs : (X, cs) ∈ cuts) : X = .nonterminal X.name :=
    Symbol.eq_nonterminal (h.heads_nonterminal X (hc.mem_productions_iff.2 ⟨cs, hcs⟩))
  refine rules_perm_append hold hnew ?_ fun A right => ?_
  · intro r hr r' hr' hleft
    obtain ⟨⟨X, cs⟩, hcs, hr⟩ := List.mem_flatMap.1 hr
    obtain ⟨c, hmem, rfl⟩ := List.mem_map.1 hr
    obtain ⟨⟨N, pair⟩, hN, rfl⟩ := List.mem_map.1 hr'
    obtain rfl : X.name = N := hleft
    exact hc.fresh.notMem_productions (Cuts.mem_names hN)
      (hhead X cs hcs ▸ hc.mem_productions_iff.2 ⟨cs, hcs⟩)
  · rw [hc.mem_rightsOf_shortened, List.mem_flatMap, List.mem_map]
    refine or_congr ⟨?_, ?_⟩ ⟨?_, ?_⟩
    · rintro ⟨cs, hcs, c, hmem, rfl⟩
      exact ⟨_, hcs, List.mem_map.2 ⟨c, hmem, rfl⟩⟩
    · rintro ⟨⟨X, cs⟩, hcs, hr⟩
      obtain ⟨c, hmem, heq⟩ := List.mem_map.1 hr
      cases heq
      exact ⟨cs, hhead X cs hcs ▸ hcs, c, hmem, rfl⟩
    · rintro ⟨N, heq, hN⟩
      cases heq
      exact ⟨(A, right), hN, rfl⟩
    · rintro ⟨⟨N, pair⟩, hN, heq⟩
      cases heq
      exact ⟨A, rfl, hN⟩

theorem IsCutBy.size_shortened (h : g.WellFormed) :
    (g.shortened cuts).size = g.size + cuts.names.length := by
  have hlength : (cuts.flatMap fun (X, cs) => cs.map fun c => (⟨X.name, c.pair⟩ : Rule)).length =
      g.rules.length := by
    rw [hc.rules_eq h]
    simp only [List.length_flatMap, List.length_map]
  rw [size_eq_length_rules (hc.wellFormed_shortened h).heads_nonterminal,
    (hc.rules_perm h).length_eq, List.length_append, hlength, List.length_map,
    ← size_eq_length_rules h.heads_nonterminal, ← Cuts.map_fst_links, List.length_map]

end CutUp

section Minted

variable {s s' : NameSupply} {wrappers : Wrappers} {glossary : Glossary} {cuts : Cuts}
  (hw : g.Wraps s g.mixedTerminals.toList wrappers glossary)
  (hc : (g.isolated wrappers glossary).IsCutBy s' cuts)
include hw hc

theorem mem_productions_binarized {X : Symbol} :
    X ∈ ((g.isolated wrappers glossary).shortened cuts).productions ↔ X ∈ g.productions ∨
      ∃ N ∈ wrappers.toList.map Prod.snd ++ cuts.names, X = .nonterminal N := by
  rw [hc.mem_productions_shortened, mem_productions_reserve, mem_productions_isolated]
  simp only [List.mem_append, hw.mem_values, or_and_right, exists_or, or_assoc]

/-- The nonterminals that the grammar has gained in both steps. -/
theorem enumerates_minted : Enumerates (wrappers.toList.map Prod.snd ++ cuts.names)
    (((g.isolated wrappers glossary).shortened cuts).Exclusive g) := by
  have hfirst (X : Symbol) (hX : X ∈ (g.isolated wrappers glossary).productions) :
      X ∈ ((g.isolated wrappers glossary).shortened cuts).productions :=
    hc.mem_productions_shortened.2 (mem_productions_reserve.2 (.inl hX))
  have hsecond (X : Symbol) (hX : X ∈ g.productions) :
      X ∈ (g.isolated wrappers glossary).productions := mem_productions_isolated.2 (.inl hX)
  -- The links come last, so they come first on the way back.
  obtain ⟨-, hnodup, hmem⟩ := enumerates_append hfirst hsecond hc.enumerates hw.enumerates
  refine ⟨List.perm_append_comm.nodup_iff.1 hnodup, fun A => ?_⟩
  rw [← hmem, List.mem_append, List.mem_append, or_comm]

end Minted

end Grammar

namespace Normalization

open Grammar Event

/-- The report about a stage accounts for what became of the grammar before it. -/
def Passage.Accounts (p : Passage) (before : Grammar) : Prop :=
  match p.stage with
  | .epsilon | .unit => p.nonterminals = before.productions.size
  | .reachability => ∃ removed, p.details.data = [("removed", .texts removed)] ∧
      Enumerates removed (before.Exclusive p.grammar) ∧
      p.nonterminals + removed.length = before.productions.size
  | .productivity => ∃ removed unreachable,
      p.details.data = [("removed", .texts removed), ("unreachable", .texts unreachable)] ∧
      (∀ A ∈ removed, A ∉ unreachable) ∧
      Enumerates (removed ++ unreachable) (before.Exclusive p.grammar) ∧
      p.nonterminals + (removed.length + unreachable.length) = before.productions.size
  | .binarization => ∃ (wrappers : List (Name × Name)) (links : List Name),
      p.details.data = [("terminal_wrappers", .object (wrappers.map fun (a, T) => (a, .text T))),
        ("chain_nonterminals", .texts links)] ∧
      (wrappers.map Prod.fst).Nodup ∧
      Enumerates (wrappers.map Prod.snd ++ links) (p.grammar.Exclusive before) ∧
      p.nonterminals = before.productions.size + (wrappers.length + links.length) ∧
      p.rules = before.size + (wrappers.length + links.length) ∧
      links.length = linkTotal before.rules

/-- Each report accounts for what became of the grammar that the stage before it left. -/
def Account (before : Grammar) : List Passage → Prop
  | [] => True
  | p :: passages => p.Accounts before ∧ Account p.grammar passages

section Stages

variable {g : Grammar} (h : g.WellFormed)
include h

theorem accounts_reachability :
    Passage.Accounts ⟨.reachability, .removed g.unreachable, [], g.withoutUnreachable⟩ g := by
  have hnames : Enumerates (Symbol.names g.unreachable.toList) (g.Exclusive g.withoutUnreachable) :=
    enumerates_without h.heads_nonterminal fun X hX => ((mem_unreachable h).1 hX).1
  have hsize := size_of_enumerates (fun X hX => (mem_productions_without.1 hX).1)
    h.heads_nonterminal hnames
  exact ⟨_, rfl, hnames, hsize.symm⟩

theorem accounts_productivity : Passage.Accounts
    ⟨.productivity, .trimmed g.unproductive g.withoutUnproductive.unreachable, [],
      g.withoutUnproductive.withoutUnreachable⟩ g := by
  have hwell := h.withoutUnproductive
  have hheads (X : Symbol) :
      X ∈ g.withoutUnproductive.productions ↔ X ∈ (g.without g.unproductive).productions :=
    Std.ExtTreeMap.mem_map
  have hremoved : Enumerates (Symbol.names g.unproductive.toList)
      (g.Exclusive g.withoutUnproductive) := by
    obtain ⟨hnodup, hmem⟩ := enumerates_without h.heads_nonterminal
      fun X (hX : X ∈ g.unproductive) => (mem_unproductive.1 hX).1
    exact ⟨hnodup, fun A => (hmem A).trans (and_congr_right fun _ => not_congr (hheads _).symm)⟩
  have hunreachable : Enumerates (Symbol.names g.withoutUnproductive.unreachable.toList)
      (g.withoutUnproductive.Exclusive g.withoutUnproductive.withoutUnreachable) :=
    enumerates_without hwell.heads_nonterminal fun X hX => ((mem_unreachable hwell).1 hX).1
  have hfirst (X : Symbol) (hX : X ∈ g.withoutUnproductive.productions) : X ∈ g.productions :=
    (mem_productions_without.1 ((hheads X).1 hX)).1
  have hsecond (X : Symbol) (hX : X ∈ g.withoutUnproductive.withoutUnreachable.productions) :
      X ∈ g.withoutUnproductive.productions := (mem_productions_without.1 hX).1
  obtain ⟨hdisjoint, hboth⟩ := enumerates_append hfirst hsecond hremoved hunreachable
  have hsize := size_of_enumerates (fun X hX => hfirst X (hsecond X hX)) h.heads_nonterminal hboth
  rw [List.length_append] at hsize
  exact ⟨_, _, rfl, hdisjoint, hboth, hsize.symm⟩

theorem accounts_binarization {wrappers : Wrappers} {glossary : Glossary} {cuts : Cuts}
    {checkpoints : List Checkpoint} (hw : g.Wraps {} g.mixedTerminals.toList wrappers glossary)
    (hc : (g.isolated wrappers glossary).IsCutBy {} cuts) : Passage.Accounts
      ⟨.binarization, .minted wrappers cuts.names, checkpoints,
        (g.isolated wrappers glossary).shortened cuts⟩ g := by
  have hisolated := hw.wellFormed_isolated h
  have hminted := enumerates_minted hw hc
  have hsize := size_of_enumerates
    (fun X hX => (mem_productions_binarized hw hc).2 (.inl hX))
    (hc.wellFormed_shortened hisolated).heads_nonterminal hminted
  rw [List.length_append, List.length_map] at hsize
  refine ⟨wrappers.toList, cuts.names, rfl, nodup_map_fst_toList wrappers, hminted, hsize, ?_, ?_⟩
  · rw [Passage.rules, hc.size_shortened hisolated, hw.size_isolated h, Nat.add_assoc]
  · rw [hc.length_names hisolated, hw.linkTotal_isolated h]

end Stages

theorem Course.account {g : Grammar} (c : Course g) (h : g.WellFormed) : Account g c.passages :=
  ⟨Std.ExtTreeMap.size_map, Std.ExtTreeMap.size_map,
    accounts_reachability h.withoutEpsilon.withoutUnits, accounts_productivity h.reduced,
    accounts_binarization h.trimmed c.wraps c.cut, trivial⟩

/-- The reports of a conversion account exactly for the nonterminals that disappear and appear, and
for the rules that are added in the last stage. -/
theorem normalize_accounts {r : Revision} (h : r.grammar.WellFormed) :
    ∃ passages r', normalize.run r = .ok passages r' ∧
      passages.map Passage.stage = Stage.all ∧ Account r.grammar passages := by
  obtain ⟨c, hturns⟩ := turns_normalize h
  obtain ⟨added, hrun⟩ := hturns r.added
  exact ⟨_, _, hrun, c.map_stage, c.account h⟩

/-- The reports of the conversion of the brackets are exact. -/
theorem normalize_accounts_brackets : Parts.brackets.grammar.WellFormed ∧
    ∃ passages r', normalize.run { grammar := Parts.brackets.grammar } = .ok passages r' ∧
      passages.map Passage.stage = Stage.all ∧ Account Parts.brackets.grammar passages :=
  ⟨Parts.fit_brackets.wellFormed,
    normalize_accounts (r := { grammar := Parts.brackets.grammar }) Parts.fit_brackets.wellFormed⟩

end Normalization

end ContextFree
