import ContextFree.Grammar.Spelling
import ContextFree.Grouping
import ContextFree.Proofs.Building

/-! # Grammars that were spelled

A spelled right side stands for the symbols of the names that it is split into. The right sides
of a spelled grammar are those that its texts stand for.
-/

namespace ContextFree

namespace Spelling

namespace Vocabulary

variable {v : Vocabulary} {marker text : String} {name : Name}

/-- The symbol of a declared name. -/
def symbolOf (v : Vocabulary) (name : Name) : Symbol :=
  if v.nonterminals.contains name then .nonterminal name else .terminal name

/-- The right side that a text stands for, if it is split into declared names. -/
def side? (v : Vocabulary) (marker text : String) : Option RightSide :=
  match splitRightSide text marker v.has with
  | .ok names => if names.all v.has then some (names.map v.symbolOf) else none
  | .error _ => none

theorem side?_eq_some {side : RightSide} : v.side? marker text = some side ↔
    ∃ names, splitRightSide text marker v.has = .ok names ∧
      (∀ name ∈ names, v.has name = true) ∧ side = names.map v.symbolOf := by
  rw [side?]
  cases splitRightSide text marker v.has with
  | error fault => simp
  | ok names =>
    change (if names.all v.has = true then some (names.map v.symbolOf) else none) = some side ↔ _
    constructor
    · intro h
      by_cases hall : names.all v.has = true
      · rw [if_pos hall] at h
        cases h
        exact ⟨names, rfl, List.all_eq_true.1 hall, rfl⟩
      · rw [if_neg hall] at h
        cases h
    · rintro ⟨names', heq, hall, rfl⟩
      cases heq
      exact if_pos (List.all_eq_true.2 hall)

end Vocabulary

variable {v : Vocabulary} {marker rule text : String} {left name : Name}

theorem symbol_eq_ok {x : RawSymbol} : symbol v marker rule name = .ok x ↔
    v.has name = true ∧ x = .tagged (v.symbolOf name) := by
  rw [symbol, Vocabulary.has, Vocabulary.symbolOf, Bool.or_eq_true]
  by_cases hnonterminal : v.nonterminals.contains name = true
  · rw [if_pos hnonterminal, if_pos hnonterminal, Except.ok.injEq,
      and_iff_right (.inl hnonterminal)]
    exact eq_comm
  · rw [if_neg hnonterminal, if_neg hnonterminal, or_iff_right hnonterminal]
    by_cases hterminal : v.terminals.contains name = true
    · rw [if_pos hterminal, Except.ok.injEq, and_iff_right hterminal]
      exact eq_comm
    · rw [if_neg hterminal]
      split <;> simp [hterminal]

theorem right_eq_ok {values : List RawSymbol} : right v marker left text = .ok values ↔
    ∃ side, v.side? marker text = some side ∧ values = side.map .tagged := by
  rw [right]
  by_cases hblank : (Text.strip text.toList).isEmpty = true
  · have hsplit : splitRightSide text marker v.has = .error (.emptyRight marker) := if_pos hblank
    have hnone : v.side? marker text = none := by rw [Vocabulary.side?, hsplit]
    rw [if_pos hblank, hnone]
    constructor
    · intro h
      cases h
    · rintro ⟨side, h, -⟩
      cases h
  · rw [if_neg hblank]
    simp only [bind_eq_ok, mapM_eq_ok_iff_forall fun _ _ => symbol_eq_ok,
      Vocabulary.side?_eq_some]
    constructor
    · rintro ⟨names, hnames, hall, rfl⟩
      exact ⟨_, ⟨names, hnames, hall, rfl⟩, by rw [List.map_map]; rfl⟩
    · rintro ⟨_, ⟨names, hnames, hall, rfl⟩, rfl⟩
      exact ⟨names, hnames, hall, by rw [List.map_map]; rfl⟩

theorem mapM_right_eq_ok {texts : List String} {values : List (List RawSymbol)} :
    texts.mapM (right v marker left) = .ok values ↔
      (∀ text ∈ texts, (v.side? marker text).isSome) ∧
        values = (texts.filterMap (v.side? marker)).map (·.map .tagged) := by
  induction texts generalizing values with
  | nil =>
    constructor
    · intro h
      cases h
      exact ⟨by simp, rfl⟩
    · rintro ⟨-, rfl⟩
      rfl
  | cons text texts ih =>
    rw [mapM_cons_eq_ok]
    simp only [right_eq_ok, ih]
    constructor
    · rintro ⟨x, xs, ⟨side, hside, rfl⟩, ⟨hall, rfl⟩, rfl⟩
      refine ⟨List.forall_mem_cons.2 ⟨by rw [hside]; rfl, hall⟩, ?_⟩
      rw [List.filterMap_cons, hside, List.map_cons]
    · rintro ⟨hall, rfl⟩
      obtain ⟨hsome, hrest⟩ := List.forall_mem_cons.1 hall
      obtain ⟨side, hside⟩ := Option.isSome_iff_exists.1 hsome
      refine ⟨_, _, ⟨side, hside, rfl⟩, ⟨hrest, rfl⟩, ?_⟩
      rw [List.filterMap_cons, hside, List.map_cons]

/-- The right sides that the texts for each left side stand for. -/
def sides (s : Spelling) : List (Name × List RightSide) :=
  s.productions.map fun p => (p.1, p.2.filterMap (s.vocabulary.side? s.marker))

/-- The texts of a spelling stand for right sides of declared left sides. -/
def Reads (s : Spelling) : Prop :=
  s.vocabulary.has s.marker = false ∧ ∀ p ∈ s.productions, p.1 ∈ s.nonterminals ∧
    ∀ text ∈ p.2, (s.vocabulary.side? s.marker text).isSome

theorem production_eq_ok (p : Name × List String) (value : RawSymbol × List (List RawSymbol)) :
    production v marker p = .ok value ↔ (v.nonterminals.contains p.1 = true ∧
      ∀ text ∈ p.2, (v.side? marker text).isSome) ∧
        value = (.tagged (.nonterminal p.1),
          (p.2.filterMap (v.side? marker)).map (·.map .tagged)) := by
  obtain ⟨left, texts⟩ := p
  rw [production]
  by_cases hleft : v.nonterminals.contains left = true
  · rw [if_pos hleft, and_iff_right hleft]
    simp only [bind_eq_ok, mapM_right_eq_ok, pure, Except.pure, Except.ok.injEq]
    constructor
    · rintro ⟨values, ⟨hall, rfl⟩, rfl⟩
      exact ⟨hall, rfl⟩
    · rintro ⟨hall, rfl⟩
      exact ⟨_, ⟨hall, rfl⟩, rfl⟩
  · rw [if_neg hleft]
    constructor
    · intro h
      cases h
    · rintro ⟨⟨hmem, -⟩, -⟩
      exact absurd hmem hleft

theorem readProductions_eq_ok {s : Spelling} {values : List (RawSymbol × List (List RawSymbol))} :
    s.readProductions = .ok values ↔ s.Reads ∧ values = Grammar.handedIn s.sides := by
  have hsides : Grammar.handedIn s.sides = s.productions.map fun p => (.tagged (.nonterminal p.1),
      (p.2.filterMap (s.vocabulary.side? s.marker)).map (·.map .tagged)) := by
    rw [Grammar.handedIn, sides, List.map_map]
    rfl
  have hmem (A : Name) : s.vocabulary.nonterminals.contains A = true ↔ A ∈ s.nonterminals := by
    simp [vocabulary]
  rw [readProductions, hsides, Reads]
  by_cases hmarker : s.vocabulary.has s.marker = true
  · rw [if_pos hmarker]
    constructor
    · intro h
      cases h
    · rintro ⟨⟨hfree, -⟩, -⟩
      rw [hmarker] at hfree
      cases hfree
  · have hfree : s.vocabulary.has s.marker = false := by simpa using hmarker
    rw [if_neg hmarker, and_iff_right hfree]
    simp only [← hmem]
    exact mapM_eq_ok_iff_forall production_eq_ok

/-- The parts of the grammar that a spelling describes. -/
def parts (s : Spelling) (start : Name) : Parts where
  nonterminals := s.nonterminals
  terminals := s.terminals
  start := start
  productions := s.sides

/-- A spelling is a grammar exactly if its texts can be read and its parts fit together. -/
theorem grammar_eq_ok {s : Spelling} {start : Name} {g : Grammar} :
    s.grammar start = .ok g ↔ s.Reads ∧ (s.parts start).Fit ∧ g = (s.parts start).grammar := by
  have hdraft : (s.parts start).draft =
      { nonterminals := s.nonterminals.map fun A => .tagged (.nonterminal A)
        terminals := s.terminals.map fun a => .tagged (.terminal a)
        start := .tagged (.nonterminal start)
        productions := Grammar.handedIn s.sides } := rfl
  rw [Spelling.grammar]
  simp only [bind_eq_ok, readProductions_eq_ok]
  constructor
  · rintro ⟨values, ⟨hreads, rfl⟩, hrest⟩
    split at hrest
    next =>
      obtain ⟨p, hfit, hp, rfl⟩ := Draft.grammar_eq_ok.1 hrest
      obtain rfl := Parts.draft_injective (hdraft.trans hp)
      exact ⟨hreads, hfit, rfl⟩
    next => cases hrest
  · rintro ⟨hreads, hfit, rfl⟩
    refine ⟨_, ⟨hreads, rfl⟩, ?_⟩
    have hmem : start ∈ s.nonterminals := hfit.start_mem
    have hstart : s.vocabulary.nonterminals.contains start = true := by
      simpa [vocabulary] using hmem
    rw [if_pos hstart]
    exact Draft.grammar_eq_ok.2 ⟨s.parts start, hfit, hdraft.symm, rfl⟩

end Spelling

namespace Grammar

variable {g g' : Grammar}

/-- The names of the grammar's nonterminals and terminals. -/
def vocabulary (g : Grammar) : Spelling.Vocabulary where
  nonterminals := .ofList (g.heads.map Symbol.name)
  terminals := g.terminals

/-- A grammar is its start symbol, its terminals, its heads and their right sides. -/
theorem ext_of_rightsOf (hstart : g.start = g'.start) (hterminals : g.terminals = g'.terminals)
    (hheads : ∀ X, X ∈ g.productions ↔ X ∈ g'.productions)
    (hrights : ∀ X right, right ∈ g.rightsOf X ↔ right ∈ g'.rightsOf X) : g = g' := by
  have hproductions : g.productions = g'.productions := by
    ext X : 1
    cases h : g.productions[X]? with
    | none =>
      have hX : X ∉ g'.productions := by
        rw [← hheads, Std.ExtTreeMap.mem_iff_isSome_getElem?, h]
        simp
      rw [Std.ExtTreeMap.getElem?_eq_none hX]
    | some rights =>
      have hX : X ∈ g'.productions := by
        rw [← hheads, Std.ExtTreeMap.mem_iff_isSome_getElem?, h]
        rfl
      obtain ⟨rights', h'⟩ :=
        Option.isSome_iff_exists.1 (Std.ExtTreeMap.mem_iff_isSome_getElem?.1 hX)
      rw [h', ← rightsOf_eq h, ← rightsOf_eq h', Option.some.injEq]
      ext right
      exact hrights X right
  cases g
  cases g'
  simp_all

end Grammar

namespace Spelling

/-- The grammar has the symbols of the spelling and the right sides that its texts stand for. -/
structure Spells (s : Spelling) (g : Grammar) : Prop where
  marker : g.vocabulary.has s.marker = false
  terminals : g.terminals = .of s.terminals
  heads : ∀ X, X ∈ g.productions ↔ ∃ A ∈ s.nonterminals, X = .nonterminal A
  start_mem : .nonterminal g.start ∈ g.productions
  disjoint : ∀ A, .nonterminal A ∈ g.productions → A ∉ g.terminals
  sides : ∀ p ∈ s.productions, .nonterminal p.1 ∈ g.productions ∧
    ∀ text ∈ p.2, (g.vocabulary.side? s.marker text).isSome
  rights : ∀ X right, right ∈ g.rightsOf X ↔ ∃ p ∈ s.productions, X = .nonterminal p.1 ∧
    ∃ text ∈ p.2, g.vocabulary.side? s.marker text = some right

variable {s : Spelling} {g : Grammar} {start : Name}

/-- It does not matter in which order and grouping the texts for a left side are listed. -/
theorem Spells.congr {productions productions' : List (Name × List String)} {marker : String}
    {nonterminals terminals : List Name}
    (hlefts : ∀ A, (∃ texts, (A, texts) ∈ productions) ↔ ∃ texts, (A, texts) ∈ productions')
    (htexts : ∀ A text, (∃ texts, (A, texts) ∈ productions ∧ text ∈ texts) ↔
      ∃ texts, (A, texts) ∈ productions' ∧ text ∈ texts)
    (h : Spells ⟨nonterminals, terminals, productions, marker⟩ g) :
    Spells ⟨nonterminals, terminals, productions', marker⟩ g where
  marker := h.marker
  terminals := h.terminals
  heads := h.heads
  start_mem := h.start_mem
  disjoint := h.disjoint
  sides := by
    rintro ⟨A, texts'⟩ hp
    obtain ⟨texts, hA⟩ := (hlefts A).2 ⟨texts', hp⟩
    refine ⟨(h.sides _ hA).1, fun text htext => ?_⟩
    obtain ⟨texts, hA, htext⟩ := (htexts A text).2 ⟨texts', hp, htext⟩
    exact (h.sides _ hA).2 text htext
  rights X right := by
    rw [h.rights]
    constructor
    · rintro ⟨⟨A, texts⟩, hp, rfl, text, htext, hside⟩
      obtain ⟨texts', hp, htext⟩ := (htexts A text).1 ⟨texts, hp, htext⟩
      exact ⟨(A, texts'), hp, rfl, text, htext, hside⟩
    · rintro ⟨⟨A, texts'⟩, hp, rfl, text, htext, hside⟩
      obtain ⟨texts, hp, htext⟩ := (htexts A text).2 ⟨texts', hp, htext⟩
      exact ⟨(A, texts), hp, rfl, text, htext, hside⟩

/-- Nor does it matter in which order the nonterminals are listed, and how often. -/
theorem Spells.congr_nonterminals {nonterminals nonterminals' terminals : List Name}
    {productions : List (Name × List String)} {marker : String}
    (h : Spells ⟨nonterminals, terminals, productions, marker⟩ g)
    (hsame : ∀ A, A ∈ nonterminals ↔ A ∈ nonterminals') :
    Spells ⟨nonterminals', terminals, productions, marker⟩ g :=
  { h with heads := by simpa only [hsame] using h.heads }

theorem vocabulary_eq (hterminals : g.terminals = .of s.terminals)
    (hheads : ∀ X, X ∈ g.productions ↔ ∃ A ∈ s.nonterminals, X = .nonterminal A) :
    g.vocabulary = s.vocabulary := by
  have hnonterminals : g.vocabulary.nonterminals = s.vocabulary.nonterminals := by
    ext A
    simp only [Grammar.vocabulary, vocabulary, Std.ExtTreeSet.mem_ofList, List.contains_iff_mem,
      List.mem_map, Grammar.mem_heads, hheads]
    constructor
    · rintro ⟨X, ⟨B, hB, rfl⟩, rfl⟩
      exact hB
    · exact fun hA => ⟨.nonterminal A, ⟨A, hA, rfl⟩, rfl⟩
  have hterminals' : g.vocabulary.terminals = s.vocabulary.terminals := hterminals
  calc g.vocabulary
      = ⟨g.vocabulary.nonterminals, g.vocabulary.terminals⟩ := rfl
    _ = s.vocabulary := by rw [hnonterminals, hterminals']

theorem has_of_side? {text : String} {side : RightSide}
    (hside : s.vocabulary.side? s.marker text = some side) :
    ∀ Y ∈ side, (s.parts start).bare.has Y = true := by
  obtain ⟨names, -, hall, rfl⟩ := Vocabulary.side?_eq_some.1 hside
  intro Y hY
  obtain ⟨name, hname, rfl⟩ := List.mem_map.1 hY
  have hdeclared := hall name hname
  rw [Vocabulary.has, Bool.or_eq_true] at hdeclared
  rw [Vocabulary.symbolOf]
  split
  next hnonterminal =>
    have hmem : name ∈ s.nonterminals := by simpa [vocabulary] using hnonterminal
    exact Parts.has_bare_nonterminal.2 hmem
  next hterminal =>
    have hmem : name ∈ s.terminals := by
      simpa [vocabulary] using hdeclared.resolve_left hterminal
    exact Parts.has_bare_terminal.2 hmem

theorem Reads.fit (h : s.Reads) (hstart : start ∈ s.nonterminals)
    (hdisjoint : ∀ A ∈ s.nonterminals, A ∉ s.terminals) : (s.parts start).Fit where
  start_mem := hstart
  disjoint := hdisjoint
  left_mem A sides hA := by
    obtain ⟨p, hp, heq⟩ := List.mem_map.1 hA
    cases heq
    exact (h.2 p hp).1
  known A sides hA side hside := by
    obtain ⟨p, hp, heq⟩ := List.mem_map.1 hA
    cases heq
    obtain ⟨text, -, htext⟩ := List.mem_filterMap.1 hside
    exact has_of_side? htext

theorem mem_rightsOf_parts {X : Symbol} {right : RightSide} :
    right ∈ (s.parts start).grammar.rightsOf X ↔ ∃ p ∈ s.productions, X = .nonterminal p.1 ∧
      ∃ text ∈ p.2, s.vocabulary.side? s.marker text = some right := by
  rw [Parts.mem_rightsOf_grammar]
  simp only [parts, sides, List.mem_map]
  constructor
  · rintro ⟨A, sides, ⟨p, hp, heq⟩, rfl, hright⟩
    cases heq
    exact ⟨p, hp, rfl, List.mem_filterMap.1 hright⟩
  · rintro ⟨p, hp, rfl, hright⟩
    exact ⟨_, _, ⟨p, hp, rfl⟩, rfl, List.mem_filterMap.2 hright⟩

/-- A spelling whose texts can be read spells the grammar that consists of its parts. -/
theorem Reads.spells (h : s.Reads) (hfit : (s.parts start).Fit) :
    s.Spells (s.parts start).grammar := by
  have hterminals : (s.parts start).grammar.terminals = .of s.terminals := Parts.terminals_grammar
  have hheads (X : Symbol) : X ∈ (s.parts start).grammar.productions ↔
      ∃ A ∈ s.nonterminals, X = .nonterminal A := hfit.mem_productions
  have hvocabulary := vocabulary_eq hterminals hheads
  exact {
    marker := hvocabulary ▸ h.1
    terminals := hterminals
    heads := hheads
    start_mem := hfit.wellFormed.start_mem
    disjoint := hfit.wellFormed.disjoint
    sides := fun p hp => by
      rw [hvocabulary]
      exact ⟨(hheads _).2 ⟨p.1, (h.2 p hp).1, rfl⟩, (h.2 p hp).2⟩
    rights := fun X right => by
      rw [hvocabulary]
      exact mem_rightsOf_parts }

namespace Spells

variable (h : s.Spells g)
include h

theorem vocabulary_eq : g.vocabulary = s.vocabulary :=
  Spelling.vocabulary_eq h.terminals h.heads

theorem nonterminal_mem_iff {A : Name} : .nonterminal A ∈ g.productions ↔ A ∈ s.nonterminals := by
  simp [h.heads]

theorem reads : s.Reads := by
  refine ⟨h.vocabulary_eq ▸ h.marker, fun p hp => ?_⟩
  rw [← h.nonterminal_mem_iff, ← h.vocabulary_eq]
  exact h.sides p hp

theorem fit : (s.parts g.start).Fit := by
  refine h.reads.fit (h.nonterminal_mem_iff.1 h.start_mem) fun A hA => ?_
  have hfree := h.disjoint A (h.nonterminal_mem_iff.2 hA)
  rw [h.terminals] at hfree
  simpa [NameSet.of] using hfree

/-- There is only one grammar that a spelling spells with a given start symbol. -/
theorem eq_grammar : g = (s.parts g.start).grammar := by
  apply Grammar.ext_of_rightsOf
  · exact (Parts.start_grammar (p := s.parts g.start)).symm
  · exact h.terminals.trans (Parts.terminals_grammar (p := s.parts g.start)).symm
  · intro X
    rw [h.heads, h.fit.mem_productions]
    rfl
  · intro X right
    rw [h.rights, h.vocabulary_eq, mem_rightsOf_parts]

end Spells

/-- A spelling gives the grammar that it spells, and there is no other one. -/
theorem grammar_eq_ok_iff : s.grammar start = .ok g ↔ s.Spells g ∧ g.start = start := by
  rw [grammar_eq_ok]
  constructor
  · rintro ⟨hreads, hfit, rfl⟩
    exact ⟨hreads.spells hfit, Parts.start_grammar⟩
  · rintro ⟨hs, rfl⟩
    exact ⟨hs.reads, hs.fit, hs.eq_grammar⟩

end Spelling

end ContextFree
