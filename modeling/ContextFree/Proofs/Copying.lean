import ContextFree.Proofs.Faults
import ContextFree.Proofs.Ledger

/-! # Copying a grammar

A grammar is copied by being put together again from its parts. That fails exactly if a right
side mentions a symbol that is neither a head nor a terminal any more; otherwise the copy is
equal to the original, in whatever order its parts are listed.
-/

namespace ContextFree

namespace Grammar

variable {g g' : Grammar}

/-- What stays true of a grammar through all edits: its start symbol is a head, its heads are
nonterminals, and none of them has the name of a terminal. -/
structure Orderly (g : Grammar) : Prop where
  start_mem : .nonterminal g.start ∈ g.productions
  heads_nonterminal : ∀ X ∈ g.productions, X.isTerminal = false
  disjoint : ∀ A, .nonterminal A ∈ g.productions → A ∉ g.terminals

theorem WellFormed.orderly (h : g.WellFormed) : g.Orderly :=
  ⟨h.start_mem, h.heads_nonterminal, h.disjoint⟩

/-- A symbol of a right side is neither a head nor a terminal. -/
def Dangles (g : Grammar) (Y : Symbol) : Prop :=
  (∃ X, ∃ right ∈ g.rightsOf X, Y ∈ right) ∧ g.has Y = false

theorem has_iff {Y : Symbol} :
    g.has Y = true ↔ Y ∈ g.productions ∨ ∃ a ∈ g.terminals, Y = .terminal a := by
  cases Y <;> simp [has]

theorem Orderly.of_heads (h : g.Orderly) (hstart : g'.start = g.start)
    (hterminals : g'.terminals = g.terminals)
    (hheads : ∀ X, X ∈ g'.productions ↔ X ∈ g.productions) : g'.Orderly where
  start_mem := by
    rw [hheads, hstart]
    exact h.start_mem
  heads_nonterminal X hX := h.heads_nonterminal X ((hheads X).1 hX)
  disjoint A hA := by
    rw [hterminals]
    exact h.disjoint A ((hheads _).1 hA)

end Grammar

namespace Ledger

/-- The parts of the grammar, listed from the two tables. -/
def toDraft (l : Ledger) : Draft where
  nonterminals := l.nonterminals.toList.map .tagged
  terminals := l.terminals.toList.map fun a => .tagged (.terminal a)
  start := .tagged (.nonterminal l.start)
  productions := l.productions.toList.map fun (X, rights) =>
    (.tagged X, rights.toList.map fun right => right.map .tagged)

/-- The ledger of the grammar that is put together again from the two tables. -/
def copy (l : Ledger) : Except Fault Ledger := do
  return opened l.toDraft (← l.toDraft.grammar)

end Ledger

namespace Parts

variable {p : Parts} {g g' : Grammar}

/-- The parts are those of the grammar, whether they fit together or not. -/
structure Lists (p : Parts) (g : Grammar) : Prop where
  start : p.start = g.start
  terminals : ∀ a, a ∈ p.terminals ↔ a ∈ g.terminals
  heads : ∀ X, X ∈ g.productions ↔ ∃ A ∈ p.nonterminals, X = .nonterminal A
  lefts : ∀ A sides, (A, sides) ∈ p.productions → A ∈ p.nonterminals
  rights : ∀ X right, right ∈ g.rightsOf X ↔
    ∃ A sides, (A, sides) ∈ p.productions ∧ X = .nonterminal A ∧ right ∈ sides

theorem Lists.grammar_eq (h : p.Lists g) : p.grammar = g := by
  refine Grammar.ext_of_rightsOf (start_grammar.trans h.start) ?_ (fun X => ?_) fun X right => ?_
  · rw [terminals_grammar]
    ext a
    simp [NameSet.of, Std.ExtTreeSet.mem_ofList, h.terminals]
  · rw [grammar, Grammar.mem_productions_joinAll, mem_productions_bare, h.heads]
    exact fun A sides hA => mem_productions_bare.2 ⟨A, h.lefts A sides hA, rfl⟩
  · rw [mem_rightsOf_grammar, h.rights]

/-- The parts of a grammar in order fit together if nothing dangles. -/
theorem Lists.fit_iff (h : p.Lists g) (hg : g.Orderly) : p.Fit ↔ ∀ Y, ¬g.Dangles Y := by
  have hbare (Y : Symbol) : p.bare.has Y = g.has Y := by
    refine Grammar.has_congr ?_ fun X => ?_
    · ext a
      simp [bare, NameSet.of, Std.ExtTreeSet.mem_ofList, h.terminals]
    · rw [mem_productions_bare, h.heads]
  have hhead {A : Name} : A ∈ p.nonterminals ↔ .nonterminal A ∈ g.productions := by
    simp [h.heads]
  constructor
  · rintro hfit Y ⟨⟨X, right, hright, hmem⟩, hunknown⟩
    obtain ⟨A, sides, hA, -, hside⟩ := (h.rights X right).1 hright
    have hhas := hfit.known A sides hA right hside Y hmem
    rw [hbare, hunknown] at hhas
    cases hhas
  · intro hnone
    refine ⟨?_, fun A hA => ?_, h.lefts, fun A sides hA side hside Y hY => ?_⟩
    · rw [hhead, h.start]
      exact hg.start_mem
    · rw [h.terminals]
      exact hg.disjoint A (hhead.1 hA)
    · rw [hbare]
      cases hknown : g.has Y with
      | true => rfl
      | false =>
        have hright := (h.rights _ side).2 ⟨A, sides, hA, rfl, hside⟩
        exact absurd ⟨⟨_, side, hright, hY⟩, hknown⟩ (hnone Y)

theorem Lists.grammar_draft (h : p.Lists g) (hg : g.Orderly) :
    p.draft.grammar = .ok g' ↔ (∀ Y, ¬g.Dangles Y) ∧ g' = g := by
  rw [Draft.grammar_draft_eq_ok, h.fit_iff hg, h.grammar_eq]

/-- If something dangles, the parts are refused because they do not make up a grammar. -/
theorem Lists.error_draft (h : p.Lists g) (hg : g.Orderly) {Y : Symbol} (hY : g.Dangles Y) :
    ∃ fault, p.draft.grammar = .error fault ∧ fault.kind = .grammar := by
  cases hgrammar : p.draft.grammar with
  | ok g' => exact absurd hY (((h.grammar_draft hg).1 hgrammar).1 Y)
  | error fault =>
    exact ⟨fault, rfl, Draft.vetted_grammar Grammar.isText_handedIn fault hgrammar⟩

/-- Parts of a grammar whose heads and entries are listed in some order. -/
def ofListing (g : Grammar) (heads : List Symbol) (entries : List (Symbol × RightSides)) :
    Parts where
  nonterminals := heads.map Symbol.name
  terminals := g.terminals.toList
  start := g.start
  productions := entries.map fun (X, rights) => (X.name, rights.toList)

section OfListing

variable {heads : List Symbol} {entries : List (Symbol × RightSides)}
  (hheads : ∀ X, X ∈ heads ↔ X ∈ g.productions)
  (hentries : ∀ X rights, (X, rights) ∈ entries ↔ g.productions[X]? = some rights)
  (hkinds : ∀ X ∈ g.productions, X.isTerminal = false)
include hheads hentries hkinds

omit hheads hkinds in
theorem mem_of_mem_entries {X : Symbol} {rights : RightSides} (hX : (X, rights) ∈ entries) :
    X ∈ g.productions := by
  simp [Std.ExtTreeMap.mem_iff_isSome_getElem?, (hentries X rights).1 hX]

theorem lists_ofListing : (ofListing g heads entries).Lists g where
  start := rfl
  terminals a := Std.ExtTreeSet.mem_toList
  heads X := by
    constructor
    · intro hX
      exact ⟨X.name, List.mem_map.2 ⟨X, (hheads X).2 hX, rfl⟩,
        Symbol.eq_nonterminal (hkinds X hX)⟩
    · rintro ⟨A, hA, rfl⟩
      obtain ⟨X, hX, rfl⟩ := List.mem_map.1 hA
      have hmem := (hheads X).1 hX
      rwa [← Symbol.eq_nonterminal (hkinds X hmem)]
  lefts A sides hA := by
    obtain ⟨⟨X, rights⟩, hX, heq⟩ := List.mem_map.1 hA
    cases heq
    exact List.mem_map.2 ⟨X, (hheads X).2 (mem_of_mem_entries hentries hX), rfl⟩
  rights X right := by
    rw [Grammar.mem_rightsOf]
    constructor
    · rintro ⟨rights, hentry, hright⟩
      have hX := (hentries X rights).2 hentry
      exact ⟨X.name, rights.toList, List.mem_map.2 ⟨_, hX, rfl⟩,
        Symbol.eq_nonterminal (hkinds X (mem_of_mem_entries hentries hX)),
        Std.ExtTreeSet.mem_toList.2 hright⟩
    · rintro ⟨A, sides, hA, rfl, hside⟩
      obtain ⟨⟨X, rights⟩, hX, heq⟩ := List.mem_map.1 hA
      cases heq
      rw [← Symbol.eq_nonterminal (hkinds X (mem_of_mem_entries hentries hX))]
      exact ⟨rights, (hentries X rights).1 hX, Std.ExtTreeSet.mem_toList.1 hside⟩

theorem draft_ofListing : (ofListing g heads entries).draft =
    { nonterminals := heads.map .tagged
      terminals := g.terminals.toList.map fun a => .tagged (.terminal a)
      start := .tagged (.nonterminal g.start)
      productions := entries.map fun (X, rights) =>
        (.tagged X, rights.toList.map fun right => right.map .tagged) } := by
  have hnonterminals : (heads.map Symbol.name).map (fun A => RawSymbol.tagged (.nonterminal A)) =
      heads.map .tagged := by
    rw [List.map_map]
    refine List.map_congr_left fun X hX => ?_
    rw [Function.comp_apply, ← Symbol.eq_nonterminal (hkinds X ((hheads X).1 hX))]
  have hproductions : Grammar.handedIn (entries.map fun (X, rights) => (X.name, rights.toList)) =
      entries.map fun (X, rights) =>
        (.tagged X, rights.toList.map fun right => right.map .tagged) := by
    rw [Grammar.handedIn, List.map_map]
    refine List.map_congr_left ?_
    rintro ⟨X, rights⟩ hX
    have hhead := mem_of_mem_entries hentries hX
    simp only [Function.comp_apply, ← Symbol.eq_nonterminal (hkinds X hhead)]
  simp only [draft, ofListing, hnonterminals, hproductions]

end OfListing

end Parts

namespace Revision

variable {r r' : Revision} (h : r.grammar.Orderly)
include h

theorem exists_parts : ∃ p : Parts, p.Lists r.grammar ∧ r.toDraft = p.draft := by
  have hheads (X : Symbol) : X ∈ r.grammar.heads ↔ X ∈ r.grammar.productions := Grammar.mem_heads
  have hentries (X : Symbol) (rights : RightSides) :
      (X, rights) ∈ r.entries ↔ r.grammar.productions[X]? = some rights := mem_entries
  exact ⟨.ofListing r.grammar r.grammar.heads r.entries,
    Parts.lists_ofListing hheads hentries h.heads_nonterminal,
    (Parts.draft_ofListing hheads hentries h.heads_nonterminal).symm⟩

/-- A revision is copied exactly if nothing dangles, and the copy has the same grammar. -/
theorem copy_eq_ok :
    r.copy = .ok r' ↔ (∀ Y, ¬r.grammar.Dangles Y) ∧ r' = { grammar := r.grammar } := by
  obtain ⟨p, hlists, hdraft⟩ := exists_parts h
  rw [copy, hdraft]
  simp only [bind_eq_ok, hlists.grammar_draft h]
  constructor
  · rintro ⟨_, ⟨hnone, rfl⟩, heq⟩
    cases heq
    exact ⟨hnone, rfl⟩
  · rintro ⟨hnone, rfl⟩
    exact ⟨_, ⟨hnone, rfl⟩, rfl⟩

theorem copy_error {Y : Symbol} (hY : r.grammar.Dangles Y) :
    ∃ fault, r.copy = .error fault ∧ fault.kind = .grammar := by
  obtain ⟨p, hlists, hdraft⟩ := exists_parts h
  obtain ⟨fault, herror, hkind⟩ := hlists.error_draft h hY
  refine ⟨fault, ?_, hkind⟩
  rw [copy, hdraft, herror]
  rfl

end Revision

namespace Ledger

variable {l l' : Ledger} (hl : l.Consistent) (h : l.Orderly)
include hl h

theorem exists_parts : ∃ p : Parts, p.Lists l.toGrammar ∧ l.toDraft = p.draft := by
  have hheads (X : Symbol) : X ∈ l.nonterminals.toList ↔ X ∈ l.productions := by
    rw [Std.ExtTreeSet.mem_toList, hl]
  have hentries (X : Symbol) (rights : RightSides) :
      (X, rights) ∈ l.productions.toList ↔ l.productions[X]? = some rights :=
    Std.ExtTreeMap.mem_toList_iff_getElem?_eq_some
  exact ⟨.ofListing l.toGrammar l.nonterminals.toList l.productions.toList,
    Parts.lists_ofListing hheads hentries h.heads_nonterminal,
    (Parts.draft_ofListing hheads hentries h.heads_nonterminal).symm⟩

/-- A ledger is copied exactly if nothing dangles, and the copy is equal to it. -/
theorem copy_eq_ok : l.copy = .ok l' ↔ (∀ Y, ¬l.Dangles Y) ∧ l' = l := by
  obtain ⟨p, hlists, hdraft⟩ := exists_parts hl h
  have hopened : opened l.toDraft l.toGrammar = l := by
    have htable : (l.nonterminals.toList.map RawSymbol.tagged).filterMap RawSymbol.symbol? =
        l.nonterminals.toList := by
      rw [List.filterMap_map]
      exact List.filterMap_some
    simp only [opened, toDraft, htable, SymbolSet.of, ofList_toList]
  rw [copy]
  simp only [bind_eq_ok]
  rw [hdraft] at hopened ⊢
  simp only [hlists.grammar_draft h]
  constructor
  · rintro ⟨_, ⟨hnone, rfl⟩, heq⟩
    cases heq
    exact ⟨hnone, hopened⟩
  · rintro ⟨hnone, rfl⟩
    exact ⟨_, ⟨hnone, rfl⟩, by rw [hopened]; rfl⟩

theorem copy_error {Y : Symbol} (hY : l.Dangles Y) :
    ∃ fault, l.copy = .error fault ∧ fault.kind = .grammar := by
  obtain ⟨p, hlists, hdraft⟩ := exists_parts hl h
  obtain ⟨fault, herror, hkind⟩ := hlists.error_draft h hY
  refine ⟨fault, ?_, hkind⟩
  rw [copy, hdraft, herror]
  rfl

end Ledger

end ContextFree
