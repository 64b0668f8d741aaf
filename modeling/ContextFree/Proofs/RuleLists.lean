import ContextFree.Proofs.Iteration
import ContextFree.Proofs.Refusals

/-! # Grammars from lists of rules

A grammar that is made from rules has the symbols that occur in them, and the start symbol. So all
lists of rules make up grammars unless some name occurs with both kinds, and neither the order of a
list nor its repetitions leave a trace. From its own rules a grammar is made again except for the
symbols that occur in none of them.
-/

namespace ContextFree

theorem then_eq_left {o o' : Ordering} (h : o ≠ .eq) : o.then o' = o := by
  cases o with
  | lt => rfl
  | gt => rfl
  | eq => exact absurd rfl h

theorem RawSymbol.sideOrder_tagged (right right' : RightSide) :
    sideOrder (right.map .tagged) (right'.map .tagged) = .ok (compare right right') := by
  induction right generalizing right' with
  | nil => cases right' <;> rfl
  | cons X right ih =>
    cases right' with
    | nil => rfl
    | cons Y right' =>
      rw [List.map_cons, List.map_cons, sideOrder, List.compare_cons_cons]
      by_cases heq : X = Y
      · subst heq
        rw [if_pos rfl, ih, Std.ReflOrd.compare_self]
        rfl
      · have hne : compare X Y ≠ .eq := fun h => heq (Std.LawfulEqOrd.eq_of_compare h)
        rw [if_neg fun h => heq (RawSymbol.tagged.inj h), then_eq_left hne, order]

/-- Rules whose kinds are known are in the order of rules. -/
theorem RawRule.order_toRaw (r s : Rule) : RawRule.order r.toRaw s.toRaw = .ok (compare r s) := by
  have hcompare : compare r s = (compare r.left s.left).then (compare r.right s.right) := rfl
  rw [RawRule.order, hcompare]
  by_cases heq : r.left = s.left
  · have hleft : r.toRaw.left = s.toRaw.left := heq
    rw [if_pos hleft, heq, Std.ReflOrd.compare_self]
    exact RawSymbol.sideOrder_tagged r.right s.right
  · have hleft : ¬r.toRaw.left = s.toRaw.left := heq
    have hne : compare r.left s.left ≠ .eq := fun h => heq (Std.LawfulEqOrd.eq_of_compare h)
    rw [if_neg hleft, then_eq_left hne]
    rfl

namespace RightSide

variable (right : RightSide)

/-- The nonterminals of a right side are determined by their names, and so are its terminals. -/
theorem map_names_nonterminals :
    (right.nonterminals.map Symbol.name).map .nonterminal = right.nonterminals := by
  rw [List.map_map]
  refine (List.map_congr_left fun X hX => ?_).trans (List.map_id _)
  exact (Symbol.eq_nonterminal (mem_nonterminals.1 hX).2).symm

theorem map_names_terminals :
    (right.terminals.map Symbol.name).map .terminal = right.terminals := by
  rw [List.map_map]
  refine (List.map_congr_left fun X hX => ?_).trans (List.map_id _)
  cases X with
  | nonterminal A => cases (List.mem_filter.1 hX).2
  | terminal a => rfl

variable {right}

theorem mem_names_nonterminals {A : Name} :
    A ∈ right.nonterminals.map Symbol.name ↔ .nonterminal A ∈ right := by
  have hmem : .nonterminal A ∈ (right.nonterminals.map Symbol.name).map Symbol.nonterminal ↔
      .nonterminal A ∈ right := by
    rw [map_names_nonterminals, mem_nonterminals]
    exact and_iff_left rfl
  simpa using hmem

theorem mem_names_terminals {a : Name} :
    a ∈ right.terminals.map Symbol.name ↔ .terminal a ∈ right := by
  have hmem : .terminal a ∈ (right.terminals.map Symbol.name).map Symbol.terminal ↔
      .terminal a ∈ right := by
    rw [map_names_terminals, terminals, List.mem_filter]
    exact and_iff_left rfl
  simpa using hmem

end RightSide

namespace Rule

/-- Rules as they are handed in. -/
def given (rules : List Rule) : List (RawRule ⊕ RawSymbol) :=
  rules.map fun r => .inl r.toRaw

/-- The symbol is the start symbol, or it occurs in one of the rules. -/
def Occurs (start : Name) (rules : List Rule) (X : Symbol) : Prop :=
  X = .nonterminal start ∨ ∃ r ∈ rules, X = .nonterminal r.left ∨ X ∈ r.right

end Rule

namespace Parts

/-- The parts of a grammar that is made from rules. -/
def ofRules (start : Name) (rules : List Rule) : Parts where
  nonterminals := start :: rules.flatMap fun r =>
    r.left :: (RightSide.nonterminals r.right).map Symbol.name
  terminals := rules.flatMap fun r => (RightSide.terminals r.right).map Symbol.name
  start := start
  productions := rules.map fun r => (r.left, [r.right])

variable {start : Name} {rules rules' : List Rule}

theorem mem_ofRules_nonterminals {A : Name} :
    A ∈ (ofRules start rules).nonterminals ↔ Rule.Occurs start rules (.nonterminal A) := by
  simp [ofRules, Rule.Occurs, -List.mem_map, RightSide.mem_names_nonterminals]

theorem mem_ofRules_terminals {a : Name} :
    a ∈ (ofRules start rules).terminals ↔ Rule.Occurs start rules (.terminal a) := by
  simp [ofRules, Rule.Occurs, -List.mem_map, RightSide.mem_names_terminals]

theorem mem_rightsOf_ofRules {X : Symbol} {right : RightSide} :
    right ∈ (ofRules start rules).grammar.rightsOf X ↔
      ∃ r ∈ rules, X = .nonterminal r.left ∧ right = r.right := by
  rw [mem_rightsOf_grammar]
  constructor
  · rintro ⟨A, sides, hA, rfl, hright⟩
    obtain ⟨r, hr, heq⟩ := List.mem_map.1 hA
    cases heq
    exact ⟨r, hr, rfl, List.mem_singleton.1 hright⟩
  · rintro ⟨r, hr, rfl, rfl⟩
    exact ⟨r.left, [r.right], List.mem_map.2 ⟨r, hr, rfl⟩, rfl, List.mem_singleton.2 rfl⟩

/-- The rules fit together exactly if no name occurs with both kinds. -/
theorem fit_ofRules : (ofRules start rules).Fit ↔
    ∀ name, ¬(Rule.Occurs start rules (.nonterminal name) ∧
      Rule.Occurs start rules (.terminal name)) := by
  constructor
  · rintro hfit name ⟨hnonterminal, hterminal⟩
    exact hfit.disjoint name (mem_ofRules_nonterminals.2 hnonterminal)
      (mem_ofRules_terminals.2 hterminal)
  · intro hnone
    refine ⟨List.mem_cons_self, fun A hA ha => ?_, fun A sides hA => ?_,
      fun A sides hA side hside Y hY => ?_⟩
    · exact hnone A ⟨mem_ofRules_nonterminals.1 hA, mem_ofRules_terminals.1 ha⟩
    · obtain ⟨r, hr, heq⟩ := List.mem_map.1 hA
      cases heq
      exact mem_ofRules_nonterminals.2 (.inr ⟨r, hr, .inl rfl⟩)
    · obtain ⟨r, hr, heq⟩ := List.mem_map.1 hA
      cases heq
      obtain rfl := List.mem_singleton.1 hside
      have hoccurs : Rule.Occurs start rules Y := .inr ⟨r, hr, .inr hY⟩
      cases Y with
      | nonterminal B => exact has_bare_nonterminal.2 (mem_ofRules_nonterminals.2 hoccurs)
      | terminal b => exact has_bare_terminal.2 (mem_ofRules_terminals.2 hoccurs)

theorem has_ofRules (hfit : (ofRules start rules).Fit) {X : Symbol} :
    (ofRules start rules).grammar.has X = true ↔ Rule.Occurs start rules X := by
  rw [hfit.has_grammar]
  cases X with
  | nonterminal A => exact has_bare_nonterminal.trans mem_ofRules_nonterminals
  | terminal a => exact has_bare_terminal.trans mem_ofRules_terminals

end Parts

namespace Grammar

variable {start : Name} {rules rules' : List Rule} {g g' : Grammar}

/-- Well-formed grammars are equal if they have the same symbols, start symbol and right sides. -/
theorem WellFormed.ext_of_has (h : g.WellFormed) (h' : g'.WellFormed) (hstart : g.start = g'.start)
    (hhas : ∀ X, g.has X = true ↔ g'.has X = true)
    (hrights : ∀ X right, right ∈ g.rightsOf X ↔ right ∈ g'.rightsOf X) : g = g' := by
  have hhead (A : Name) : .nonterminal A ∈ g.productions ↔ .nonterminal A ∈ g'.productions := by
    simpa [has] using hhas (.nonterminal A)
  refine ext_of_rightsOf hstart ?_ (fun X => ⟨fun hX => ?_, fun hX => ?_⟩) hrights
  · ext a
    rw [← h.has_terminal, ← h'.has_terminal, hhas]
  · obtain ⟨A, rfl⟩ := h.exists_nonterminal hX
    exact (hhead A).1 hX
  · obtain ⟨A, rfl⟩ := h'.exists_nonterminal hX
    exact (hhead A).2 hX

theorem ofRules_eq : ofRules start rules = (Parts.ofRules start rules).draft.grammar := by
  have hnonterminals (right : RightSide) : right.nonterminals.map RawSymbol.tagged =
      (right.nonterminals.map Symbol.name).map fun A => .tagged (.nonterminal A) := by
    conv_lhs => rw [← right.map_names_nonterminals, List.map_map]
    rfl
  have hterminals (right : RightSide) : right.terminals.map RawSymbol.tagged =
      (right.terminals.map Symbol.name).map fun a => .tagged (.terminal a) := by
    conv_lhs => rw [← right.map_names_terminals, List.map_map]
    rfl
  rw [ofRules, Parts.draft, Parts.ofRules]
  simp [List.map_flatMap, hnonterminals, hterminals, handedIn, Function.comp_def]

theorem ofRawRules_given :
    ofRawRules (.tagged (.nonterminal start)) (Rule.given rules) = ofRules start rules := by
  have hrules : (rules.map Rule.toRaw).mapM (fun rule => rule.rule?.elim (.error .noKind) .ok) =
      (.ok rules : Except Fault (List Rule)) := by
    rw [List.mapM_map, mapM_eq_ok (k := id)]
    · simp
    · intro r _
      rw [Function.comp_apply, RawRule.rule?_toRaw]
      rfl
  rw [ofRawRules, Rule.given, List.mapM_map, mapM_eq_ok (k := Rule.toRaw)]
  · change ((rules.map Rule.toRaw).mapM _ >>= fun rules => ofRules start rules) = _
    rw [hrules]
    rfl
  · exact fun r _ => rfl

/-- The rules make up a grammar exactly if no name occurs with both kinds. -/
theorem ofRules_eq_ok : ofRules start rules = .ok g ↔
    (∀ name, ¬(Rule.Occurs start rules (.nonterminal name) ∧
      Rule.Occurs start rules (.terminal name))) ∧ g = (Parts.ofRules start rules).grammar := by
  rw [ofRules_eq, Draft.grammar_draft_eq_ok, Parts.fit_ofRules]

/-- The fault names all names that occur with both kinds, in ascending order. -/
theorem ofRules_eq_error {name : Name} (hA : Rule.Occurs start rules (.nonterminal name))
    (ha : Rule.Occurs start rules (.terminal name)) :
    ofRules start rules = .error (.sharedNames (Parts.ofRules start rules).shared) := by
  rw [ofRules_eq]
  exact Parts.draft_grammar_of_shared
    ⟨name, Parts.mem_ofRules_nonterminals.2 hA, Parts.mem_ofRules_terminals.2 ha⟩

section Congr

variable (hsame : ∀ r, r ∈ rules' ↔ r ∈ rules)
include hsame

theorem occurs_congr (X : Symbol) : Rule.Occurs start rules' X ↔ Rule.Occurs start rules X := by
  simp only [Rule.Occurs, hsame]

theorem shared_congr :
    (Parts.ofRules start rules').shared = (Parts.ofRules start rules).shared := by
  have hnonterminals : NameSet.of (Parts.ofRules start rules').nonterminals =
      .of (Parts.ofRules start rules).nonterminals := by
    ext A
    simp [NameSet.of, Parts.mem_ofRules_nonterminals, occurs_congr hsame]
  have hterminals : NameSet.of (Parts.ofRules start rules').terminals =
      .of (Parts.ofRules start rules).terminals := by
    ext a
    simp [NameSet.of, Parts.mem_ofRules_terminals, occurs_congr hsame]
  rw [Parts.shared, Parts.shared, hnonterminals, hterminals]

/-- The order and the repetitions of the rules leave no trace, neither in the grammar nor in the
fault. -/
theorem ofRules_congr : ofRules start rules' = ofRules start rules := by
  have hoccurs (X : Symbol) : Rule.Occurs start rules' X ↔ Rule.Occurs start rules X :=
    occurs_congr hsame X
  by_cases hfit : (Parts.ofRules start rules).Fit
  · have hfit' : (Parts.ofRules start rules').Fit := by
      rw [Parts.fit_ofRules] at hfit ⊢
      simpa only [hoccurs] using hfit
    rw [ofRules_eq, ofRules_eq, Draft.grammar_draft_eq_ok.2 ⟨hfit, rfl⟩, Draft.grammar_draft_eq_ok]
    refine ⟨hfit', hfit.wellFormed.ext_of_has hfit'.wellFormed ?_ (fun X => ?_) fun X right => ?_⟩
    · rw [Parts.start_grammar, Parts.start_grammar]
      rfl
    · rw [Parts.has_ofRules hfit, Parts.has_ofRules hfit', hoccurs]
    · simp only [Parts.mem_rightsOf_ofRules, hsame]
  · obtain ⟨name, hname⟩ := Classical.not_forall.1 (mt Parts.fit_ofRules.2 hfit)
    obtain ⟨hnonterminal, hterminal⟩ := Classical.not_not.1 hname
    rw [ofRules_eq_error hnonterminal hterminal,
      ofRules_eq_error ((hoccurs _).2 hnonterminal) ((hoccurs _).2 hterminal), shared_congr hsame]

end Congr

/-- The grammar is well-formed, and its rules are listed as the given ones, each of them once and in
strictly ascending order. -/
structure Collects (g : Grammar) (start : Name) (rules : List Rule) : Prop where
  wellFormed : g.WellFormed
  start_eq : g.start = start
  listed : ∃ listed, g.listRules = .ok listed ∧ (∀ r, r ∈ listed ↔ r ∈ rules) ∧ listed.Nodup ∧
    listed.Pairwise fun r s => RawRule.order r.toRaw s.toRaw = .ok .lt

theorem collects_of_ofRules (h : ofRules start rules = .ok g) : g.Collects start rules := by
  obtain ⟨hnone, rfl⟩ := ofRules_eq_ok.1 h
  have hwell := (Parts.fit_ofRules.2 hnone).wellFormed
  refine ⟨hwell, Parts.start_grammar, _, listRules_eq hwell.heads_nonterminal, fun r => ?_,
    nodup_rules, Iteration.ascending_rules.imp fun {r s} hlt => ?_⟩
  · rw [mem_rules, Parts.mem_rightsOf_ofRules]
    constructor
    · rintro ⟨s, hs, hleft, hright⟩
      have hsame : r = s := by
        cases r
        cases s
        exact congr (congrArg Rule.mk (Symbol.nonterminal.inj hleft)) hright
      exact hsame ▸ hs
    · exact fun hr => ⟨r, hr, rfl, rfl⟩
  · rw [RawRule.order_toRaw]
    exact congrArg Except.ok hlt

/-- Every nonterminal is the start symbol, or it has a right side or occurs in one, and every
terminal occurs in a right side. -/
structure AllUsed (g : Grammar) : Prop where
  of_head : ∀ A, .nonterminal A ∈ g.productions → A = g.start ∨
    (∃ right, right ∈ g.rightsOf (.nonterminal A)) ∨
      ∃ Y, ∃ right ∈ g.rightsOf Y, .nonterminal A ∈ right
  of_terminal : ∀ a ∈ g.terminals, ∃ Y, ∃ right ∈ g.rightsOf Y, .terminal a ∈ right

section Rules

variable (h : g.WellFormed)
include h

theorem WellFormed.exists_rule {X : Symbol} {right : RightSide} (hright : right ∈ g.rightsOf X) :
    ∃ r ∈ g.rules, X = .nonterminal r.left ∧ right = r.right := by
  obtain ⟨A, rfl⟩ := h.exists_nonterminal (mem_productions_of_mem_rightsOf hright)
  exact ⟨⟨A, right⟩, mem_rules.2 hright, rfl, rfl⟩

theorem occurs_rules {X : Symbol} : Rule.Occurs g.start g.rules X ↔ X = .nonterminal g.start ∨
    (∃ right, right ∈ g.rightsOf X) ∨ ∃ Y, ∃ right ∈ g.rightsOf Y, X ∈ right := by
  refine or_congr_right ⟨?_, ?_⟩
  · rintro ⟨r, hr, rfl | hX⟩
    · exact .inl ⟨r.right, mem_rules.1 hr⟩
    · exact .inr ⟨_, r.right, mem_rules.1 hr, hX⟩
  · rintro (⟨right, hright⟩ | ⟨Y, right, hright, hX⟩)
    · obtain ⟨r, hr, rfl, -⟩ := h.exists_rule hright
      exact ⟨r, hr, .inl rfl⟩
    · obtain ⟨r, hr, -, rfl⟩ := h.exists_rule hright
      exact ⟨r, hr, .inr hX⟩

theorem has_of_occurs {X : Symbol} (hX : Rule.Occurs g.start g.rules X) : g.has X = true := by
  rcases hX with rfl | ⟨r, hr, rfl | hX⟩
  · exact Std.ExtTreeMap.contains_iff_mem.2 h.start_mem
  · have hhead := mem_productions_of_mem_rightsOf (mem_rules.1 hr)
    exact Std.ExtTreeMap.contains_iff_mem.2 hhead
  · exact h.closed _ r.right (mem_rules.1 hr) X hX

theorem fit_rules : (Parts.ofRules g.start g.rules).Fit := by
  rw [Parts.fit_ofRules]
  rintro name ⟨hnonterminal, hterminal⟩
  have hhead : .nonterminal name ∈ g.productions :=
    Std.ExtTreeMap.contains_iff_mem.1 (has_of_occurs h hnonterminal)
  exact h.disjoint name hhead (h.has_terminal.1 (has_of_occurs h hterminal))

theorem allUsed_iff : g.AllUsed ↔ ∀ X, g.has X = true → Rule.Occurs g.start g.rules X := by
  simp only [occurs_rules h]
  constructor
  · intro hall X hX
    cases X with
    | nonterminal A =>
      have huse := hall.of_head A (Std.ExtTreeMap.contains_iff_mem.1 hX)
      simpa using huse
    | terminal a => exact .inr (.inr (hall.of_terminal a (h.has_terminal.1 hX)))
  · intro hall
    refine ⟨fun A hA => ?_, fun a ha => ?_⟩
    · have huse := hall (.nonterminal A) (Std.ExtTreeMap.contains_iff_mem.2 hA)
      simpa using huse
    · rcases hall (.terminal a) (h.has_terminal.2 ha) with hstart | ⟨right, hright⟩ | hmem
      · cases hstart
      · cases h.heads_nonterminal _ (mem_productions_of_mem_rightsOf hright)
      · exact hmem

/-- A grammar is made again from its rules exactly if all symbols are used. -/
theorem grammar_rules_eq_iff : (Parts.ofRules g.start g.rules).grammar = g ↔ g.AllUsed := by
  have hfit := fit_rules h
  rw [allUsed_iff h]
  constructor
  · intro heq X hX
    rw [← heq] at hX
    exact (Parts.has_ofRules hfit).1 hX
  · intro hall
    refine hfit.wellFormed.ext_of_has h Parts.start_grammar (fun X => ?_) fun X right => ?_
    · rw [Parts.has_ofRules hfit]
      exact ⟨has_of_occurs h, hall X⟩
    · rw [Parts.mem_rightsOf_ofRules]
      constructor
      · rintro ⟨r, hr, rfl, rfl⟩
        exact mem_rules.1 hr
      · exact h.exists_rule

end Rules

/-- Rules make up a grammar exactly if no name occurs with both kinds among them and the start
symbol. The grammar lists these rules and no others, and it is the same for all lists of the same
rules, as is the fault if there is one. From the rules of a well-formed grammar a grammar is always
made, and it is the same one exactly if all symbols are used. -/
theorem ofRawRules_exact :
    (∀ (start : Name) (rules : List Rule),
      ((∃ g, ofRawRules (.tagged (.nonterminal start)) (Rule.given rules) = .ok g) ↔
        ∀ name, ¬(Rule.Occurs start rules (.nonterminal name) ∧
          Rule.Occurs start rules (.terminal name))) ∧
      (∀ g, ofRawRules (.tagged (.nonterminal start)) (Rule.given rules) = .ok g →
        g.Collects start rules) ∧
      ∀ rules' : List Rule, (∀ r, r ∈ rules' ↔ r ∈ rules) →
        ofRawRules (.tagged (.nonterminal start)) (Rule.given rules') =
          ofRawRules (.tagged (.nonterminal start)) (Rule.given rules)) ∧
    ∀ g : Grammar, g.WellFormed → ∃ listed made, g.listRules = .ok listed ∧
      ofRawRules (.tagged (.nonterminal g.start)) (Rule.given listed) = .ok made ∧
      (made = g ↔ g.AllUsed) := by
  simp only [ofRawRules_given]
  refine ⟨fun start rules => ⟨?_, fun g => collects_of_ofRules, fun rules' => ofRules_congr⟩,
    fun g h => ?_⟩
  · constructor
    · rintro ⟨g, hg⟩
      exact (ofRules_eq_ok.1 hg).1
    · exact fun hnone => ⟨_, ofRules_eq_ok.2 ⟨hnone, rfl⟩⟩
  · exact ⟨_, _, listRules_eq h.heads_nonterminal,
      ofRules_eq_ok.2 ⟨Parts.fit_ofRules.1 (fit_rules h), rfl⟩, grammar_rules_eq_iff h⟩

end Grammar

namespace Parts

/-- The parts of the grammar `S → ε`, which has the symbols `U` and `a` without using them. -/
def sparse : Parts where
  nonterminals := ["S", "U"]
  terminals := ["a"]
  start := "S"
  productions := [("S", [[]])]

theorem fit_sparse : sparse.Fit :=
  fit_of_listed (by decide) (by decide) (by decide)

theorem not_allUsed_sparse : ¬sparse.grammar.AllUsed := by
  intro hall
  have hU : .nonterminal "U" ∈ sparse.grammar.productions :=
    fit_sparse.nonterminal_mem_productions.2 (by decide)
  have huse := hall.of_head "U" hU
  rw [start_grammar] at huse
  simp [mem_rightsOf_grammar, sparse] at huse

theorem allUsed_brackets : brackets.grammar.AllUsed where
  of_head A hA := by
    rw [fit_brackets.nonterminal_mem_productions] at hA
    rw [start_grammar]
    exact .inl (by simpa [brackets] using hA)
  of_terminal a ha := by
    have hmem : a = "a" ∨ a = "b" := by
      rw [terminals_grammar] at ha
      simpa [brackets, NameSet.of] using ha
    refine ⟨_, _, mem_rightsOf_brackets.2 (.inr rfl), ?_⟩
    rcases hmem with rfl | rfl <;> simp

end Parts

namespace Grammar

open Parts

/-- The rules `S → aS` and `S → ε` make up one grammar in either order and with a repetition, and
`S → S` makes up none when the right side is a terminal. The brackets are made again from their
rules, and the sparse grammar is not. -/
theorem ofRawRules_exact_lists :
    (∃ g, ofRawRules (.tagged (.nonterminal "S"))
        (Rule.given [⟨"S", [.terminal "a", .nonterminal "S"]⟩, ⟨"S", []⟩]) = .ok g ∧
      g.Collects "S" [⟨"S", [.terminal "a", .nonterminal "S"]⟩, ⟨"S", []⟩] ∧
      ofRawRules (.tagged (.nonterminal "S")) (Rule.given
        [⟨"S", []⟩, ⟨"S", [.terminal "a", .nonterminal "S"]⟩, ⟨"S", []⟩]) = .ok g) ∧
    (¬∃ g, ofRawRules (.tagged (.nonterminal "S")) (Rule.given [⟨"S", [.terminal "S"]⟩]) =
      .ok g) ∧
    (brackets.grammar.WellFormed ∧ ∃ listed, brackets.grammar.listRules = .ok listed ∧
      ofRawRules (.tagged (.nonterminal brackets.grammar.start)) (Rule.given listed) =
        .ok brackets.grammar) ∧
    sparse.grammar.WellFormed ∧ ∃ listed made, sparse.grammar.listRules = .ok listed ∧
      ofRawRules (.tagged (.nonterminal sparse.grammar.start)) (Rule.given listed) = .ok made ∧
      made ≠ sparse.grammar := by
  obtain ⟨hlists, hrebuilt⟩ := ofRawRules_exact
  refine ⟨?_, ?_, ⟨fit_brackets.wellFormed, ?_⟩, fit_sparse.wellFormed, ?_⟩
  · obtain ⟨hsucceeds, hcollects, hsame⟩ :=
      hlists "S" [⟨"S", [.terminal "a", .nonterminal "S"]⟩, ⟨"S", []⟩]
    have hnone (name : Name) : name = "S" → name ≠ "a" := by
      rintro rfl
      decide
    obtain ⟨g, hg⟩ := hsucceeds.2 fun name => by simpa [Rule.Occurs] using hnone name
    refine ⟨g, hg, hcollects g hg, ?_⟩
    rw [hsame, hg]
    intro r
    simp [or_comm]
  · rw [(hlists "S" [⟨"S", [.terminal "S"]⟩]).1]
    intro hnone
    exact hnone "S" ⟨.inl rfl, .inr ⟨_, List.mem_cons_self, .inr List.mem_cons_self⟩⟩
  · obtain ⟨listed, made, hlisted, hmade, heq⟩ := hrebuilt _ fit_brackets.wellFormed
    exact ⟨listed, hlisted, heq.2 allUsed_brackets ▸ hmade⟩
  · obtain ⟨listed, made, hlisted, hmade, heq⟩ := hrebuilt _ fit_sparse.wellFormed
    exact ⟨listed, made, hlisted, hmade, fun h => not_allUsed_sparse (heq.1 h)⟩

end Grammar

end ContextFree
