import ContextFree.Proofs.ParseTree
import ContextFree.Proofs.Spelling

/-! # Eliminating epsilon rules and unit rules, one without the other

Both eliminations keep the non-empty words of every nonterminal and the language. The second one
takes the epsilon rule of the start symbol over to no other head, so it needs grammars in which
every symbol that derives the empty string may be left out of right sides: those that the first
one leaves, and those without epsilon rules. On such grammars the first one changes nothing.
-/

namespace ContextFree

namespace Grammar

variable {g g' : Grammar} {form variant : RightSide} {w : Word} {A : Name} {X : Symbol}

/-- What is left of a form when some of its nonterminals that derive the empty string are left
out. -/
inductive Omits (g : Grammar) : RightSide → RightSide → Prop where
  | nil : Omits g [] []
  | keep {X : Symbol} {form variant : RightSide} :
    Omits g form variant → Omits g (X :: form) (X :: variant)
  | drop {A : Name} {form variant : RightSide} :
    g.Derives A [] → Omits g form variant → Omits g (.nonterminal A :: form) variant

theorem Omits.trans {variant' : RightSide} (h : g.Omits form variant)
    (h' : g.Omits variant variant') : g.Omits form variant' := by
  induction h generalizing variant' with
  | nil => exact h'
  | keep _ ih =>
    cases h' with
    | keep h' => exact .keep (ih h')
    | drop hA h' => exact .drop hA (ih h')
  | drop hA _ ih => exact .drop hA (ih h')

theorem Omits.mono (hnil : ∀ A, g.Derives A [] → g'.Derives A []) (h : g.Omits form variant) :
    g'.Omits form variant := by
  induction h with
  | nil => exact .nil
  | keep _ ih => exact .keep ih
  | drop hA _ ih => exact .drop (hnil _ hA) ih

theorem Omits.eq_of_forall (hnil : ∀ A, .nonterminal A ∈ form → ¬g.Derives A [])
    (h : g.Omits form variant) : variant = form := by
  induction h with
  | nil => rfl
  | keep _ ih => rw [ih fun A hA => hnil A (List.mem_cons_of_mem _ hA)]
  | drop hA _ _ => exact absurd hA (hnil _ List.mem_cons_self)

theorem Omits.eq_of_singleton (h : g.Omits [X] variant) (hne : variant ≠ []) : variant = [X] := by
  cases h with
  | keep hrest =>
    cases hrest
    rfl
  | drop _ hrest =>
    cases hrest
    exact absurd rfl hne

/-- The variants of a right side are what is left of it when nullable symbols are left out. -/
theorem omits_iff (h : g.WellFormed) :
    g.Omits form variant ↔ variant ∈ RightSide.omissions g.nullable form := by
  constructor
  · intro homits
    induction homits with
    | nil => exact List.mem_singleton.2 rfl
    | keep _ ih => exact RightSide.mem_omissions_cons.2 (.inl ⟨_, ih, rfl⟩)
    | drop hA _ ih => exact RightSide.mem_omissions_cons.2 (.inr ⟨(mem_nullable h).2 hA, ih⟩)
  · intro hvariant
    induction form generalizing variant with
    | nil =>
      obtain rfl := List.mem_singleton.1 hvariant
      exact .nil
    | cons X form ih =>
      rcases RightSide.mem_omissions_cons.1 hvariant with ⟨rest, hrest, rfl⟩ | ⟨hX, hrest⟩
      · exact .keep (ih hrest)
      · have hnil := (mem_nullable h).1 hX
        cases X with
        | terminal a => cases hnil
        | nonterminal A => exact .drop hnil (ih hrest)

/-- Whatever is left of a right side, unless it is nothing, is a right side of the same head. -/
def OmissionClosed (g : Grammar) : Prop :=
  ∀ X, ∀ right ∈ g.rightsOf X, ∀ variant, g.Omits right variant → variant ≠ [] →
    variant ∈ g.rightsOf X

/-- If only the start symbol has the empty right side, it has it to derive the empty string. -/
theorem EpsilonAtStart.nil_mem_iff (h : g.EpsilonAtStart) :
    [] ∈ g.rightsOf (.nonterminal g.start) ↔ g.Generates [] := by
  constructor
  · exact fun hnil => derives_iff.2 ⟨[], hnil, .nil⟩
  · intro hnil
    obtain ⟨A, hA⟩ := exists_epsilon_of_yields_nil hnil (List.cons_ne_nil _ _)
    exact h _ hA ▸ hA

theorem omissionClosed_of_forall (hnone : ∀ X, [] ∉ g.rightsOf X) : g.OmissionClosed := by
  intro X right hright variant hvariant _
  have hnil (A : Name) (_ : .nonterminal A ∈ right) : ¬g.Derives A [] := by
    intro hA
    obtain ⟨B, hB⟩ := exists_epsilon_of_yields_nil hA (List.cons_ne_nil _ _)
    exact hnone _ hB
  exact hvariant.eq_of_forall hnil ▸ hright

/-- The elimination of epsilon rules adds all variants: what is left of a variant is a variant,
since no nonterminal derives the empty string that did not do so before. -/
theorem omissionClosed_withoutEpsilon (h : g.WellFormed) : g.withoutEpsilon.OmissionClosed := by
  intro X right hright variant hvariant hne
  have hold : g.Omits right variant := hvariant.mono fun _ hA => Yields.of_withoutEpsilon h hA
  rcases mem_rightsOf_withoutEpsilon.1 hright with ⟨-, old, hmem, hright⟩ | ⟨rfl, -⟩
  · refine mem_rightsOf_withoutEpsilon.2 (.inl ⟨hne, old, hmem, (omits_iff h).1 ?_⟩)
    exact ((omits_iff h).2 hright).trans hold
  · cases hvariant
    exact absurd rfl hne

namespace OmissionClosed

variable (hclosed : g.OmissionClosed) (h : g.WellFormed) (hepsilon : g.EpsilonAtStart)
include hclosed h hepsilon

/-- There are no epsilon rules to eliminate then but those that are needed. -/
theorem withoutEpsilon_eq_self : g.withoutEpsilon = g := by
  refine ext_of_rightsOf rfl rfl (fun X => Std.ExtTreeMap.mem_map) fun X right => ?_
  rw [mem_rightsOf_withoutEpsilon]
  constructor
  · rintro (⟨hne, old, hold, hright⟩ | ⟨rfl, rfl, hnullable⟩)
    · exact hclosed X old hold right ((omits_iff h).2 hright) hne
    · exact hepsilon.nil_mem_iff.2 ((mem_nullable h).1 hnullable)
  · intro hright
    by_cases hne : right = []
    · subst hne
      obtain rfl := hepsilon X hright
      exact .inr ⟨rfl, rfl, (mem_nullable h).2 (hepsilon.nil_mem_iff.1 hright)⟩
    · exact .inl ⟨hne, right, hright, RightSide.mem_omissions_self⟩

theorem derives_positive (hw : g.Derives A w) (hne : w ≠ []) : g.positive.Derives A w := by
  -- The elimination of epsilon rules leaves `g` as it is, so what it gives is about `g`.
  have key := hw.withoutEpsilon_positive hne
  rwa [withoutEpsilon_eq_self hclosed h hepsilon] at key

theorem derives_withoutUnits_iff (hne : w ≠ []) : g.withoutUnits.Derives A w ↔ g.Derives A w := by
  constructor
  · exact fun hw => Yields.of_withoutUnits h hw
  · exact fun hw => Yields.of_positive
      ((derives_positive hclosed h hepsilon hw hne).withoutUnits_positive h)

theorem generates_withoutUnits_iff : g.withoutUnits.Generates w ↔ g.Generates w := by
  by_cases hne : w = []
  · -- The empty word needs the epsilon rule of the start symbol, which is kept.
    subst hne
    rw [← (epsilonAtStart_withoutUnits h).nil_mem_iff, ← hepsilon.nil_mem_iff]
    exact nil_mem_rightsOf_withoutUnits h hepsilon
  · exact derives_withoutUnits_iff hclosed h hepsilon hne

end OmissionClosed

end Grammar

namespace Transform

open Grammar

/-- The elimination of epsilon rules leaves the empty right side to a start symbol that derives the
empty string, and to no other symbol. Every nonterminal keeps its non-empty words, which are derived
without that rule, and the language is kept. -/
theorem removeEpsilonRules_keeps_words {r : Revision} (h : r.grammar.WellFormed) :
    ∃ nullable r', removeEpsilonRules.run r = .ok nullable r' ∧
      r'.grammar.start = r.grammar.start ∧
      (∀ X, [] ∈ r'.grammar.rightsOf X ↔
        X = .nonterminal r.grammar.start ∧ r.grammar.Generates []) ∧
      (∀ A w, (∃ t : Forest r'.grammar [.nonterminal A] w, ⟨r'.grammar.start, []⟩ ∉ t.rules) ↔
        w ≠ [] ∧ r.grammar.Derives A w) ∧
      ∀ w, r'.grammar.Generates w ↔ r.grammar.Generates w := by
  obtain ⟨added, hrun⟩ := turns_removeEpsilonRules h r.added
  refine ⟨_, _, hrun, rfl, fun X => ?_, fun A w => ?_, fun w => ?_⟩
  · constructor
    · intro hX
      obtain rfl := epsilonAtStart_withoutEpsilon X hX
      exact ⟨rfl, (nil_mem_rightsOf_withoutEpsilon h).1 hX⟩
    · rintro ⟨rfl, hnil⟩
      exact (nil_mem_rightsOf_withoutEpsilon h).2 hnil
  · rw [← epsilonAtStart_withoutEpsilon.positive_yields_iff]
    constructor
    · intro hw
      have hne : w ≠ [] := by
        rintro rfl
        exact not_positive_derives_nil hw
      exact ⟨hne, hw.of_positive.of_withoutEpsilon h⟩
    · exact fun ⟨hne, hw⟩ => hw.withoutEpsilon_positive hne
  · exact (represents_withoutEpsilon h).generates_iff

/-- The start symbol of the brackets keeps its epsilon rule, although it occurs on right sides, and
the pair of brackets is derived without it. -/
theorem removeEpsilonRules_keeps_pair : Parts.brackets.grammar.WellFormed ∧
    ∃ nullable r', removeEpsilonRules.run { grammar := Parts.brackets.grammar } = .ok nullable r' ∧
      [] ∈ r'.grammar.rightsOf (.nonterminal Parts.brackets.grammar.start) ∧
      ∃ t : Forest r'.grammar [.nonterminal "S"] ["a", "b"], ⟨r'.grammar.start, []⟩ ∉ t.rules := by
  have hwell := Parts.fit_brackets.wellFormed
  obtain ⟨nullable, r', hrun, -, hnil, hwords, -⟩ :=
    removeEpsilonRules_keeps_words (r := { grammar := Parts.brackets.grammar }) hwell
  exact ⟨hwell, nullable, r', hrun, (hnil _).2 ⟨rfl, Parts.brackets_generates_nil⟩,
    (hwords _ _).2 ⟨List.cons_ne_nil _ _, Parts.brackets_generates_pair⟩⟩

/-- Let only the start symbol have the empty right side, and let every non-empty remainder of a right
side be a right side of the same head, when nonterminals that derive the empty string are left out.
Then the elimination of unit rules keeps the non-empty words of every nonterminal and the language,
and it leaves no unit rules and no epsilon rules but that of the start symbol. Grammars without
epsilon rules are such, and so is whatever the elimination of epsilon rules leaves. -/
theorem removeUnaryRules_keeps_words :
    (∀ r : Revision, r.grammar.WellFormed → r.grammar.EpsilonAtStart → r.grammar.OmissionClosed →
      ∃ closures r', removeUnaryRules.run r = .ok closures r' ∧
        r'.grammar.start = r.grammar.start ∧ r'.grammar.UnitFree ∧ r'.grammar.EpsilonAtStart ∧
        (∀ w, r'.grammar.Generates w ↔ r.grammar.Generates w) ∧
        ∀ A w, w ≠ [] → (r'.grammar.Derives A w ↔ r.grammar.Derives A w)) ∧
    (∀ g : Grammar, (∀ X, [] ∉ g.rightsOf X) → g.EpsilonAtStart ∧ g.OmissionClosed) ∧
    ∀ r : Revision, r.grammar.WellFormed →
      ∃ nullable r', removeEpsilonRules.run r = .ok nullable r' ∧ r'.grammar.WellFormed ∧
        r'.grammar.EpsilonAtStart ∧ r'.grammar.OmissionClosed := by
  refine ⟨fun r h hepsilon hclosed => ?_, fun g hnone => ⟨?_, omissionClosed_of_forall hnone⟩,
    fun r h => ?_⟩
  · obtain ⟨added, hrun⟩ := turns_removeUnaryRules h r.added
    exact ⟨_, _, hrun, rfl, unitFree_withoutUnits h, epsilonAtStart_withoutUnits h,
      fun _ => hclosed.generates_withoutUnits_iff h hepsilon,
      fun _ _ => hclosed.derives_withoutUnits_iff h hepsilon⟩
  · exact fun X hX => absurd hX (hnone X)
  · obtain ⟨added, hrun⟩ := turns_removeEpsilonRules h r.added
    exact ⟨_, _, hrun, h.withoutEpsilon, epsilonAtStart_withoutEpsilon,
      omissionClosed_withoutEpsilon h⟩

end Transform

namespace Parts

/-- The parts of the grammar `S → A | aS | a, A → S | b`, whose nonterminals derive each other by
unit rules; it may also have the rule `S → ε`. -/
def loop (optional : Bool) : Parts where
  nonterminals := ["S", "A"]
  terminals := ["a", "b"]
  start := "S"
  productions := [("S", [[.nonterminal "A"], [.terminal "a", .nonterminal "S"], [.terminal "a"]] ++
    if optional then [[]] else []), ("A", [[.nonterminal "S"], [.terminal "b"]])]

variable {optional : Bool}

theorem mem_rightsOf_loop {X : Symbol} {right : RightSide} :
    right ∈ (loop optional).grammar.rightsOf X ↔
      X = .nonterminal "S" ∧ (right = [.nonterminal "A"] ∨
        right = [.terminal "a", .nonterminal "S"] ∨ right = [.terminal "a"] ∨
        optional = true ∧ right = []) ∨
      X = .nonterminal "A" ∧ (right = [.nonterminal "S"] ∨ right = [.terminal "b"]) := by
  rw [mem_rightsOf_grammar]
  cases optional <;> simp [loop, or_and_right, exists_or, and_assoc]

theorem fit_loop : (loop optional).Fit := by
  cases optional <;> exact fit_of_listed (by decide) (by decide) (by decide)

theorem epsilonAtStart_loop : (loop optional).grammar.EpsilonAtStart := by
  intro X hX
  rw [start_grammar]
  rcases mem_rightsOf_loop.1 hX with ⟨rfl, -⟩ | ⟨-, hright | hright⟩
  · rfl
  · cases hright
  · cases hright

/-- The only longer right side of the loop is joined by what is left of it without `S`. -/
theorem omissionClosed_loop : (loop optional).grammar.OmissionClosed := by
  intro X right hright variant hvariant hne
  have hsingle (Y : Symbol) (hY : right = [Y]) : variant ∈ (loop optional).grammar.rightsOf X := by
    subst hY
    exact hvariant.eq_of_singleton hne ▸ hright
  rcases mem_rightsOf_loop.1 hright with ⟨rfl, rfl | rfl | rfl | ⟨-, rfl⟩⟩ | ⟨rfl, rfl | rfl⟩
  · exact hsingle _ rfl
  · cases hvariant with
    | @keep _ _ rest hrest =>
      by_cases hnil : rest = []
      · exact mem_rightsOf_loop.2 (.inl ⟨rfl, .inr (.inr (.inl (by rw [hnil])))⟩)
      · exact hrest.eq_of_singleton hnil ▸ hright
  · exact hsingle _ rfl
  · cases hvariant
    exact absurd rfl hne
  · exact hsingle _ rfl
  · exact hsingle _ rfl

theorem nil_notMem_rightsOf_loop {X : Symbol} : [] ∉ (loop false).grammar.rightsOf X := by
  simp [mem_rightsOf_loop]

theorem loop_derives_b : (loop optional).grammar.Derives "A" ["b"] :=
  Grammar.derives_iff.2 ⟨_, mem_rightsOf_loop.2 (.inr ⟨rfl, .inr rfl⟩), .terminal .nil⟩

theorem loop_generates_ab : (loop optional).grammar.Generates ["a", "b"] := by
  have hb : (loop optional).grammar.Derives "S" ["b"] :=
    Grammar.derives_iff.2 ⟨_, mem_rightsOf_loop.2 (.inl ⟨rfl, .inl rfl⟩), loop_derives_b⟩
  rw [Grammar.Generates, start_grammar]
  exact Grammar.derives_iff.2 ⟨_, mem_rightsOf_loop.2 (.inl ⟨rfl, .inr (.inl rfl)⟩), .terminal hb⟩

end Parts

namespace Transform

open Parts

/-- The loop keeps its words without unit rules, although its nonterminals derive the empty string;
without the rule `S → ε` there is nothing to be left out, and the brackets without epsilon rules are
closed under leaving out. -/
theorem removeUnaryRules_keeps_loop :
    ((loop true).grammar.WellFormed ∧ (loop true).grammar.EpsilonAtStart ∧
      (loop true).grammar.OmissionClosed ∧
      ∃ closures r', removeUnaryRules.run { grammar := (loop true).grammar } = .ok closures r' ∧
        r'.grammar.UnitFree ∧ r'.grammar.Generates ["a", "b"] ∧ r'.grammar.Derives "A" ["b"]) ∧
    ((∀ X, [] ∉ (loop false).grammar.rightsOf X) ∧ (loop false).grammar.OmissionClosed) ∧
    brackets.grammar.WellFormed ∧
    ∃ nullable r', removeEpsilonRules.run { grammar := brackets.grammar } = .ok nullable r' ∧
      r'.grammar.OmissionClosed := by
  obtain ⟨hkeeps, hwithout, hleaves⟩ := removeUnaryRules_keeps_words
  refine ⟨⟨fit_loop.wellFormed, epsilonAtStart_loop, omissionClosed_loop, ?_⟩,
    ⟨fun _ => nil_notMem_rightsOf_loop, ?_⟩, fit_brackets.wellFormed, ?_⟩
  · obtain ⟨closures, r', hrun, -, hunit, -, hwords, hderives⟩ :=
      hkeeps { grammar := (loop true).grammar } fit_loop.wellFormed epsilonAtStart_loop
        omissionClosed_loop
    exact ⟨closures, r', hrun, hunit, (hwords _).2 loop_generates_ab,
      (hderives _ _ (List.cons_ne_nil _ _)).2 loop_derives_b⟩
  · exact (hwithout _ fun _ => nil_notMem_rightsOf_loop).2
  · obtain ⟨nullable, r', hrun, -, -, hclosed⟩ :=
      hleaves { grammar := brackets.grammar } fit_brackets.wellFormed
    exact ⟨nullable, r', hrun, hclosed⟩

end Transform

end ContextFree
