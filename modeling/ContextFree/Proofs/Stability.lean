import ContextFree.Proofs.Elimination
import ContextFree.Proofs.Usefulness

/-! # What the conversion leaves alone

Each stage takes away one kind of fault and changes nothing where that fault is missing: rules
that may be left out, unit rules, useless heads, terminals in longer right sides and long right
sides. A grammar in normal form without useless heads has none of them, except that its start
symbol may be nullable; as long as no right side mentions it then, no stage changes anything.
-/

namespace ContextFree

namespace Grammar

variable {g : Grammar} {X : Symbol}

section Epsilon

variable (h : g.WellFormed) (hepsilon : g.EpsilonAtStart)
  (happ : [] ∉ g.rightsOf (.nonterminal g.start) ∨
    ∀ X, ∀ right ∈ g.rightsOf X, .nonterminal g.start ∉ right)
include h hepsilon happ

/-- Nothing is nullable except for a start symbol with the empty right side. -/
theorem mem_nullable_iff :
    X ∈ g.nullable ↔ X = .nonterminal g.start ∧ [] ∈ g.rightsOf (.nonterminal g.start) := by
  rw [mem_nullable h]
  constructor
  · intro hX
    refine hX.forall_of_nil (P := fun Y => Y = .nonterminal g.start ∧
      [] ∈ g.rightsOf (.nonterminal g.start)) (fun A right hright hall => ?_) X List.mem_cons_self
    cases right with
    | nil =>
      have hstart := hepsilon _ hright
      exact ⟨hstart, hstart ▸ hright⟩
    | cons Z right =>
      -- The right side would mention the start symbol.
      obtain ⟨rfl, hnil⟩ := hall Z List.mem_cons_self
      exact absurd List.mem_cons_self (happ.resolve_left (absurd hnil) _ _ hright)
  · rintro ⟨rfl, hnil⟩
    exact derives_iff.2 ⟨[], hnil, .nil⟩

theorem omissionClosed_of_apart : g.OmissionClosed := by
  intro X right hright variant hvariant _
  have hnil (A : Name) (hA : .nonterminal A ∈ right) : ¬g.Derives A [] := by
    intro hempty
    obtain ⟨heq, hstart⟩ :=
      (mem_nullable_iff h hepsilon happ).1 ((mem_nullable h).2 hempty)
    cases heq
    exact happ.resolve_left (absurd hstart) X right hright hA
  exact hvariant.eq_of_forall hnil ▸ hright

theorem withoutEpsilon_eq : g.withoutEpsilon = g :=
  (omissionClosed_of_apart h hepsilon happ).withoutEpsilon_eq_self h hepsilon

end Epsilon

section Units

variable (h : g.WellFormed) (hunit : g.UnitFree)
include h hunit

/-- Without unit rules a head derives nothing but itself by unit rules. -/
theorem unitClosureOf_eq (hX : X ∈ g.productions) : g.unitClosureOf X = {X} := by
  ext Y
  rw [(search_unitSteps h hX).2, mem_singleton]
  constructor
  · intro hY
    cases hY with
    | root => rfl
    | step _ hentry hmem =>
      obtain ⟨B, -, hright⟩ := exists_unitSteps_iff.1 ⟨_, hentry, hmem⟩
      exact absurd hright (hunit _ B)
  · rintro rfl
    exact .root

theorem withoutUnits_eq (hepsilon : g.EpsilonAtStart) : g.withoutUnits = g := by
  refine ext_of_rightsOf rfl rfl (fun Y => Std.ExtTreeMap.mem_map) fun Y right => ?_
  rw [mem_rightsOf_withoutUnits h]
  constructor
  · rintro ⟨hY, Z, hZ, hright, -⟩
    rw [← (search_unitSteps h hY).2, unitClosureOf_eq h hunit hY, mem_singleton] at hZ
    exact hZ ▸ hright
  · intro hright
    refine ⟨mem_productions_of_mem_rightsOf hright, Y, .root, hright, ?_, ?_⟩
    · rw [← Bool.not_eq_true, RightSide.isUnit_iff]
      rintro ⟨B, rfl⟩
      exact hunit Y B hright
    · rintro rfl
      exact hepsilon Y hright

theorem unitPairs_eq_nil :
    Normalization.unitPairs (g.heads.map fun X => (X, g.unitClosureOf X)) = [] := by
  refine List.eq_nil_iff_forall_not_mem.2 fun pair hpair => ?_
  rw [Normalization.unitPairs, mem_arrangeBy, List.mem_flatMap] at hpair
  obtain ⟨⟨X, closure⟩, hX, hpair⟩ := hpair
  obtain ⟨Y, hY, heq⟩ := List.mem_map.1 hX
  cases heq
  rw [unitClosureOf_eq h hunit (mem_heads.1 hY)] at hpair
  obtain ⟨Z, hZ, -⟩ := List.mem_map.1 hpair
  obtain ⟨hZ, hne⟩ := List.mem_filter.1 hZ
  rw [Std.ExtTreeSet.mem_toList, mem_singleton] at hZ
  simp [hZ] at hne

end Units

@[simp] theorem without_empty : g.without ∅ = g := by
  refine ext_of_rightsOf rfl rfl (fun X => ?_) fun X right => ?_
  · rw [mem_productions_without, and_iff_left Std.ExtTreeSet.not_mem_empty]
  · rw [mem_rightsOf_without, and_iff_left Std.ExtTreeSet.not_mem_empty]

section Useless

variable (h : g.WellFormed)
include h

theorem AllReached.unreachable_eq (hall : g.AllReached) : g.unreachable = ∅ := by
  refine Std.ExtTreeSet.eq_empty_iff_forall_not_mem.2 fun X hX => ?_
  obtain ⟨hX, hnot⟩ := (mem_unreachable h).1 hX
  exact hnot (hall X hX)

theorem AllReached.withoutUnreachable_eq (hall : g.AllReached) : g.withoutUnreachable = g := by
  rw [withoutUnreachable, hall.unreachable_eq h, without_empty]

theorem AllProductive.unproductive_eq (hall : g.AllProductive) : g.unproductive = ∅ := by
  refine Std.ExtTreeSet.eq_empty_iff_forall_not_mem.2 fun X hX => ?_
  obtain ⟨hX, hnot, hne⟩ := mem_unproductive.1 hX
  obtain ⟨A, rfl⟩ := h.exists_nonterminal hX
  rcases hall.of_head A hX with rfl | hA
  · exact hne rfl
  · exact hnot ((mem_productive h).2 hA)

theorem AllProductive.withoutUnproductive_eq (hall : g.AllProductive) :
    g.withoutUnproductive = g := by
  refine ext_of_rightsOf rfl rfl (fun X => ?_) fun X right => ?_
  · rw [withoutUnproductive, hall.unproductive_eq h, without_empty]
    exact Std.ExtTreeMap.mem_map
  · rw [mem_rightsOf_withoutUnproductive, hall.unproductive_eq h]
    exact and_iff_left_of_imp fun hright => ⟨Std.ExtTreeSet.not_mem_empty,
      fun B hB => (mem_productive h).2 (hall.of_mem X right hright B hB)⟩

theorem Neat.allReached (hneat : g.Neat) : g.AllReached := by
  intro X hX
  obtain ⟨A, rfl⟩ := h.exists_nonterminal hX
  rcases hneat with hhollow | huseful
  · exact (hhollow.head_iff _).1 hX ▸ .root
  · exact (useful_iff.1 (huseful A hX)).1

theorem Neat.allProductive (hneat : g.Neat) : g.AllProductive := by
  rcases hneat with hhollow | huseful
  · refine ⟨fun A hA => .inl ?_, fun X right hright => ?_⟩
    · simpa using (hhollow.head_iff _).1 hA
    · rw [(hhollow.head_iff X).1 (mem_productions_of_mem_rightsOf hright),
        hhollow.rights_eq] at hright
      exact absurd hright Std.ExtTreeSet.not_mem_empty
  · exact ⟨fun A hA => .inr (huseful A hA).productive,
      fun X right hright B hB => (huseful B (h.mem_productions hright hB)).productive⟩

end Useless

section Binary

theorem mixedTerminals_eq_empty (h : g.TerminalsIsolated) : g.mixedTerminals = ∅ := by
  refine Std.ExtTreeSet.eq_empty_iff_forall_not_mem.2 fun a ha => ?_
  obtain ⟨X, right, hright, hlength, hmem⟩ := mem_mixedTerminals.1 ha
  exact h X right hright hlength a hmem

/-- Where no terminal is replaced, nothing is minted. -/
theorem Wraps.eq_empty {s : NameSupply} {wrappers : Wrappers} {glossary : Glossary}
    (hw : g.Wraps s [] wrappers glossary) : wrappers = ∅ ∧ glossary = [] := by
  have hnone : glossary = [] := by
    refine List.eq_nil_iff_forall_not_mem.2 ?_
    rintro ⟨T, form⟩ hT
    obtain ⟨a, ha, -⟩ := hw.form_eq T form hT
    cases ha
  refine ⟨?_, hnone⟩
  ext a : 1
  cases ha : wrappers[a]? with
  | none => simp
  | some T =>
    have hmem := hw.mem a T ha
    rw [hnone] at hmem
    cases hmem

theorem Wraps.isolated_eq {s : NameSupply} {wrappers : Wrappers} {glossary : Glossary}
    (hw : g.Wraps s [] wrappers glossary) : g.isolated wrappers glossary = g := by
  obtain ⟨hwrappers, hglossary⟩ := hw.eq_empty
  have hwrap : Symbol.wrap wrappers = id := by
    funext Y
    cases Y <;> simp [Symbol.wrap, hwrappers]
  have hself (right : RightSide) : RightSide.isolate wrappers right = right := by
    rw [RightSide.isolate, hwrap, List.map_id, ite_self]
  refine ext_of_rightsOf rfl rfl (fun X => ?_) fun X right => ?_
  · rw [mem_productions_isolated]
    simp [hglossary]
  · rw [hw.mem_rightsOf_isolated]
    simp [hself, hglossary]

variable {s : NameSupply} {cuts : Cuts} (hc : g.IsCutBy s cuts)
  (hshort : ∀ X, ∀ right ∈ g.rightsOf X, right.length ≤ 2)
include hc hshort

/-- A short right side is its own remainder, and it needs no links. -/
theorem IsCutBy.split_eq {cs : List Cut} {c : Cut} (hcs : (X, cs) ∈ cuts) (hmem : c ∈ cs) :
    c.pair = c.right ∧ c.names = [] := by
  have hlength := hshort X c.right (hc.mem_rightsOf_iff.2 ⟨cs, hcs, c, hmem, rfl⟩)
  refine ⟨by rw [Cut.pair, RightSide.split_eq_self hlength], ?_⟩
  rw [← RightSide.map_fst_split c.fits, RightSide.split_eq_self hlength, List.map_nil]

theorem IsCutBy.names_eq_nil : cuts.names = [] := by
  refine List.eq_nil_iff_forall_not_mem.2 fun N hN => ?_
  obtain ⟨⟨X, cs⟩, hcs, hN⟩ := List.mem_flatMap.1 hN
  obtain ⟨c, hmem, hN⟩ := List.mem_flatMap.1 hN
  rw [(split_eq hc hshort hcs hmem).2] at hN
  cases hN

theorem IsCutBy.shortened_eq : g.shortened cuts = g := by
  have hnames := names_eq_nil hc hshort
  refine ext_of_rightsOf rfl rfl (fun X => ?_) fun X right => ?_
  · rw [hc.mem_productions_shortened, hnames, reserve_nil]
  · rw [hc.mem_rightsOf_shortened, hc.mem_rightsOf_iff]
    constructor
    · rintro (⟨cs, hcs, c, hmem, rfl⟩ | ⟨N, -, hN⟩)
      · exact ⟨cs, hcs, c, hmem, (split_eq hc hshort hcs hmem).1.symm⟩
      · have hname := Cuts.mem_names hN
        rw [hnames] at hname
        cases hname
    · rintro ⟨cs, hcs, c, hmem, rfl⟩
      exact .inl ⟨cs, hcs, c, hmem, (split_eq hc hshort hcs hmem).1⟩

end Binary

theorem inNormalForm_of_nonNormalRule? (h : g.WellFormed) (hnone : g.nonNormalRule? = .ok none) :
    g.InNormalForm := by
  have hall : g.rules.find? (fun r => !r.isNormal g.start) = none := by
    simpa [nonNormalRule?, listRules_eq h.heads_nonterminal, bind, Except.bind, pure,
      Except.pure] using hnone
  intro X right hright
  obtain ⟨A, rfl⟩ := h.exists_nonterminal (mem_productions_of_mem_rightsOf hright)
  have hnormal : Rule.isNormal g.start ⟨A, right⟩ = true := by
    simpa using List.find?_eq_none.1 hall _ (mem_rules.2 hright)
  rw [Rule.isNormal] at hnormal
  split at hnormal
  next heq => exact .inr (.inr ⟨heq, by simpa using hnormal⟩)
  next a heq => exact .inl ⟨a, heq⟩
  next B C heq => exact .inr (.inl ⟨B, C, heq⟩)
  next => cases hnormal

/-- A trimmed grammar in normal form whose right sides do not mention a nullable start
symbol. -/
structure Settled (g : Grammar) : Prop where
  wellFormed : g.WellFormed
  normal : g.nonNormalRule? = .ok none
  neat : g.Neat
  apart : [] ∉ g.rightsOf (.nonterminal g.start) ∨
    ∀ X, ∀ right ∈ g.rightsOf X, .nonterminal g.start ∉ right

namespace InNormalForm

variable (h : g.InNormalForm)
include h

theorem unitFree : g.UnitFree := by
  intro X B hright
  rcases h X _ hright with ⟨a, heq⟩ | ⟨C, D, heq⟩ | ⟨heq, -⟩ <;> cases heq

theorem length_le_two : ∀ X, ∀ right ∈ g.rightsOf X, right.length ≤ 2 := by
  intro X right hright
  rcases h X right hright with ⟨a, rfl⟩ | ⟨B, C, rfl⟩ | ⟨rfl, -⟩ <;> simp

theorem terminalsIsolated : g.TerminalsIsolated := by
  intro X right hright hlength a ha
  rcases h X right hright with ⟨b, rfl⟩ | ⟨B, C, rfl⟩ | ⟨rfl, -⟩ <;> simp at hlength ha

end InNormalForm

namespace Settled

variable (h : g.Settled)
include h

theorem inNormalForm : g.InNormalForm :=
  inNormalForm_of_nonNormalRule? h.wellFormed h.normal

theorem withoutEpsilon_eq : g.withoutEpsilon = g :=
  Grammar.withoutEpsilon_eq h.wellFormed h.inNormalForm.epsilonAtStart h.apart

theorem withoutUnits_eq : g.withoutUnits = g :=
  Grammar.withoutUnits_eq h.wellFormed h.inNormalForm.unitFree h.inNormalForm.epsilonAtStart

theorem withoutUnreachable_eq : g.withoutUnreachable = g :=
  (h.neat.allReached h.wellFormed).withoutUnreachable_eq h.wellFormed

theorem withoutUnproductive_eq : g.withoutUnproductive = g :=
  (h.neat.allProductive h.wellFormed).withoutUnproductive_eq h.wellFormed

theorem reduced_eq : g.reduced = g := by
  rw [reduced, h.withoutEpsilon_eq, h.withoutUnits_eq, h.withoutUnreachable_eq]

theorem trimmed_eq : g.trimmed = g := by
  rw [trimmed, h.reduced_eq, h.withoutUnproductive_eq, h.withoutUnreachable_eq]

end Settled

end Grammar

namespace Normalization

open Grammar

/-- The conversion has nothing to do on the grammar `g`. -/
structure Idle (g : Grammar) (passages : List Passage) (g' : Grammar) : Prop where
  grammar_eq : g' = g
  shown_eq : ∀ p ∈ passages, ∀ k ∈ p.shown, k.grammar = g
  data_eq : passages.map (fun p => p.details.data) =
    [[("nullable", .texts (if [] ∈ g.rightsOf (.nonterminal g.start) then [g.start] else []))],
      [("unit_pairs", .array [])], [("removed", .texts [])],
      [("removed", .texts []), ("unreachable", .texts [])],
      [("terminal_wrappers", .object []), ("chain_nonterminals", .texts [])]]

theorem nameData_empty : nameData ∅ = .texts [] :=
  rfl

theorem nameData_singleton (X : Symbol) : nameData {X} = .texts [X.name] :=
  rfl

/-- The report lists at most the start symbol as nullable. -/
theorem nameData_nullable {g : Grammar} (h : g.Settled) : nameData g.nullable =
    .texts (if [] ∈ g.rightsOf (.nonterminal g.start) then [g.start] else []) := by
  have hmem (X : Symbol) :=
    mem_nullable_iff (X := X) h.wellFormed h.inNormalForm.epsilonAtStart h.apart
  split
  next hnil =>
    have hset : g.nullable = {.nonterminal g.start} := by
      ext X
      rw [hmem, mem_singleton, and_iff_left hnil]
    rw [hset]
    exact nameData_singleton _
  next hnil =>
    have hset : g.nullable = ∅ := Std.ExtTreeSet.eq_empty_iff_forall_not_mem.2 fun X hX =>
      hnil ((hmem X).1 hX).2
    rw [hset]
    exact nameData_empty

namespace Course

variable {g : Grammar} (c : Course g) (h : g.Settled)
include h

/-- The last stage finds no terminal to replace. -/
theorem wraps_nil : g.Wraps {} [] c.wrappers c.glossary := by
  have hwraps := c.wraps
  rwa [h.trimmed_eq, mixedTerminals_eq_empty h.inNormalForm.terminalsIsolated] at hwraps

theorem isolated_eq : c.isolated = g := by
  rw [isolated, h.trimmed_eq]
  exact (c.wraps_nil h).isolated_eq

theorem isCutBy : g.IsCutBy {} c.cuts := by
  have hcut : c.isolated.IsCutBy {} c.cuts := c.cut
  rwa [c.isolated_eq h] at hcut

theorem final_eq : c.final = g := by
  rw [final, c.isolated_eq h]
  exact (c.isCutBy h).shortened_eq h.inNormalForm.length_le_two

theorem idle : Idle g c.passages c.final := by
  refine ⟨c.final_eq h, ?_, ?_⟩
  · simp [passages, Passage.shown, h.withoutEpsilon_eq, h.withoutUnits_eq, h.reduced_eq,
      h.trimmed_eq, c.isolated_eq h, c.final_eq h]
  · have hpairs := unitPairs_eq_nil h.wellFormed h.inNormalForm.unitFree
    have hunreachable := (h.neat.allReached h.wellFormed).unreachable_eq h.wellFormed
    have hunproductive := (h.neat.allProductive h.wellFormed).unproductive_eq h.wellFormed
    have hlinks := (c.isCutBy h).names_eq_nil h.inNormalForm.length_le_two
    simp [passages, Details.data, h.withoutEpsilon_eq, h.withoutUnits_eq, h.reduced_eq,
      h.withoutUnproductive_eq, nameData_nullable h, hpairs, hunreachable, hunproductive,
      (c.wraps_nil h).eq_empty.1, hlinks, nameData_empty]

end Course

/-- The conversion has nothing to do on a trimmed grammar in normal form whose right sides do not
mention a nullable start symbol, and so it has nothing to do a second time unless the empty word is
generated. -/
theorem normalize_idle :
    (∀ r : Revision, r.grammar.Settled → ∃ passages r', normalize.run r = .ok passages r' ∧
      Idle r.grammar passages r'.grammar) ∧
    ∀ r : Revision, r.grammar.WellFormed → ¬r.grammar.Generates [] →
      ∃ passages r', normalize.run r = .ok passages r' ∧
        ∃ again r'', normalize.run r' = .ok again r'' ∧ Idle r'.grammar again r''.grammar := by
  have hfirst (r : Revision) (h : r.grammar.Settled) :
      ∃ passages r', normalize.run r = .ok passages r' ∧ Idle r.grammar passages r'.grammar := by
    obtain ⟨c, hturns⟩ := turns_normalize h.wellFormed
    obtain ⟨added, hrun⟩ := hturns r.added
    exact ⟨_, _, hrun, c.idle h⟩
  refine ⟨hfirst, fun r h hnil => ?_⟩
  obtain ⟨c, hturns⟩ := turns_normalize h
  obtain ⟨added, hrun⟩ := hturns r.added
  exact ⟨_, _, hrun, hfirst _
    { wellFormed := c.wellFormed_final h
      normal := c.nonNormalRule?_final h
      neat := c.neat_final h
      apart := .inl fun hempty => hnil ((c.represents_final h).epsilon.1 hempty) }⟩

end Normalization

namespace Parts

/-- The parts of the grammar `S → AA, A → a`, which may also have the rule `S → ε`. -/
def twins (optional : Bool) : Parts where
  nonterminals := ["S", "A"]
  terminals := ["a"]
  start := "S"
  productions := [("S", if optional then [[], [.nonterminal "A", .nonterminal "A"]]
    else [[.nonterminal "A", .nonterminal "A"]]), ("A", [[.terminal "a"]])]

variable {optional : Bool}

theorem mem_rightsOf_twins {X : Symbol} {right : RightSide} :
    right ∈ (twins optional).grammar.rightsOf X ↔
      X = .nonterminal "S" ∧ (optional = true ∧ right = [] ∨
        right = [.nonterminal "A", .nonterminal "A"]) ∨
      X = .nonterminal "A" ∧ right = [.terminal "a"] := by
  rw [mem_rightsOf_grammar]
  cases optional <;> simp [twins, or_and_right, exists_or, and_assoc]

theorem fit_twins : (twins optional).Fit := by
  cases optional <;> exact fit_of_listed (by decide) (by decide) (by decide)

theorem inNormalForm_twins : (twins optional).grammar.InNormalForm := by
  intro X right hright
  rcases mem_rightsOf_twins.1 hright with ⟨rfl, ⟨-, rfl⟩ | rfl⟩ | ⟨rfl, rfl⟩
  · exact .inr (.inr ⟨rfl, by rw [start_grammar]; rfl⟩)
  · exact .inr (.inl ⟨_, _, rfl⟩)
  · exact .inl ⟨_, rfl⟩

/-- Both nonterminals are useful, and no right side mentions the start symbol. -/
theorem settled_twins : (twins optional).grammar.Settled where
  wellFormed := fit_twins.wellFormed
  normal := Grammar.nonNormalRule?_eq_none fit_twins.wellFormed inNormalForm_twins
  neat := by
    have hpair : [.nonterminal "A", .nonterminal "A"] ∈
        (twins optional).grammar.rightsOf (.nonterminal "S") :=
      mem_rightsOf_twins.2 (.inl ⟨rfl, .inr rfl⟩)
    have hA : (twins optional).grammar.Derives "A" ["a"] :=
      Grammar.derives_iff.2 ⟨_, mem_rightsOf_twins.2 (.inr ⟨rfl, rfl⟩), .terminal .nil⟩
    have hS : (twins optional).grammar.Derives "S" ["a", "a"] :=
      Grammar.derives_iff.2 ⟨_, hpair, hA.append hA⟩
    refine .inr fun B hB => ?_
    obtain rfl | rfl : B = "S" ∨ B = "A" := by
      simpa [twins] using fit_twins.nonterminal_mem_productions.1 hB
    · exact ⟨⟨_, .refl, by rw [start_grammar]; exact List.mem_cons_self⟩, _, hS⟩
    · have hform : (twins optional).grammar.Reaches [.nonterminal "S"]
          ([] ++ [.nonterminal "A", .nonterminal "A"] ++ []) := .step .refl hpair
      rw [← show (twins optional).grammar.start = "S" from start_grammar] at hform
      exact ⟨⟨_, hform, List.mem_cons_self⟩, _, hA⟩
  apart := by
    rw [start_grammar]
    refine .inr fun X right hright => ?_
    rcases mem_rightsOf_twins.1 hright with ⟨-, ⟨-, rfl⟩ | rfl⟩ | ⟨-, rfl⟩ <;> simp [twins]

theorem twins_not_generates_nil : ¬(twins false).grammar.Generates [] := by
  intro hnil
  obtain ⟨A, hA⟩ := Grammar.exists_epsilon_of_yields_nil hnil (List.cons_ne_nil _ _)
  simpa using mem_rightsOf_twins.1 hA

end Parts

namespace Normalization

/-- The twins with the rule `S → ε` stay as they are, and those without it do after a first
conversion. -/
theorem normalize_idle_twins : (Parts.twins true).grammar.Settled ∧
    (∃ passages r', normalize.run { grammar := (Parts.twins true).grammar } = .ok passages r' ∧
      Idle (Parts.twins true).grammar passages r'.grammar) ∧
    (Parts.twins false).grammar.WellFormed ∧ ¬(Parts.twins false).grammar.Generates [] ∧
    ∃ passages r', normalize.run { grammar := (Parts.twins false).grammar } = .ok passages r' ∧
      ∃ again r'', normalize.run r' = .ok again r'' ∧ Idle r'.grammar again r''.grammar :=
  ⟨Parts.settled_twins, normalize_idle.1 _ Parts.settled_twins, Parts.fit_twins.wellFormed,
    Parts.twins_not_generates_nil,
    normalize_idle.2 _ Parts.fit_twins.wellFormed Parts.twins_not_generates_nil⟩

end Normalization

end ContextFree
