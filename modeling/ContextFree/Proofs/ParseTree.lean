import ContextFree.Proofs.Normalization

/-! # Parse trees and the epsilon rule

In a grammar in Chomsky Normal Form a parse tree without the epsilon rule has one lexical rule
for each letter of its word and one binary rule less. After the conversion every non-empty word
has such a tree, even where the start symbol with its epsilon rule occurs on right sides.
-/

namespace ContextFree

namespace Rule

/-- Whether the right side is one terminal. -/
def isLexical (r : Rule) : Bool :=
  match r.right with
  | [.terminal _] => true
  | _ => false

/-- Whether the right side is two nonterminals. -/
def isBinary (r : Rule) : Bool :=
  match r.right with
  | [.nonterminal _, .nonterminal _] => true
  | _ => false

theorem isBinary_of_isLexical {r : Rule} (h : r.isLexical = true) : r.isBinary = false := by
  rw [isLexical] at h
  split at h
  next a hright => rw [isBinary, hright]
  next => cases h

theorem countP_add_countP_le (rules : List Rule) :
    rules.countP isLexical + rules.countP isBinary ≤ rules.length := by
  induction rules with
  | nil => exact Nat.le_refl 0
  | cons r rules ih =>
    rw [List.countP_cons, List.countP_cons, List.length_cons]
    by_cases hr : r.isLexical = true
    · rw [if_pos hr, isBinary_of_isLexical hr, if_neg Bool.false_ne_true]
      omega
    · rw [if_neg hr]
      split <;> omega

theorem countP_add_countP_lt {rules : List Rule} {A : Name} (h : ⟨A, []⟩ ∈ rules) :
    rules.countP isLexical + rules.countP isBinary < rules.length := by
  obtain ⟨before, after, rfl⟩ := List.append_of_mem h
  have hbefore := countP_add_countP_le before
  have hafter := countP_add_countP_le after
  have hlexical : isLexical ⟨A, []⟩ = false := rfl
  have hbinary : isBinary ⟨A, []⟩ = false := rfl
  simp only [List.countP_append, List.countP_cons, List.length_append, List.length_cons, hlexical,
    hbinary, if_neg Bool.false_ne_true]
  omega

end Rule

/-- Parse trees side by side, one for each symbol of a form, with the word at their leaves. -/
inductive Forest (g : Grammar) : RightSide → Word → Type where
  | nil : Forest g [] []
  | leaf {form : RightSide} {w : Word} (a : Name) :
    Forest g form w → Forest g (.terminal a :: form) (a :: w)
  | node {A : Name} {right form : RightSide} {v w : Word} :
    right ∈ g.rightsOf (.nonterminal A) → Forest g right v → Forest g form w →
      Forest g (.nonterminal A :: form) (v ++ w)

/-- A parse tree for a word from the start symbol. -/
abbrev ParseTree (g : Grammar) (w : Word) := Forest g [.nonterminal g.start] w

namespace Forest

variable {g : Grammar} {form : RightSide} {w : Word}

/-- The rules that are applied, each as often as it is. -/
def rules {form : RightSide} {w : Word} : Forest g form w → List Rule
  | nil => []
  | leaf _ rest => rest.rules
  | @node _ A right _ _ _ _ children rest => ⟨A, right⟩ :: (children.rules ++ rest.rules)

theorem mem_rules (t : Forest g form w) : ∀ r ∈ t.rules, r ∈ g.rules := by
  induction t with
  | nil => simp [rules]
  | leaf a rest ih => exact ih
  | node hright children rest ihc ihr =>
    intro r hr
    rw [rules, List.mem_cons, List.mem_append] at hr
    rcases hr with rfl | hr | hr
    · exact Grammar.mem_rules.2 hright
    · exact ihc r hr
    · exact ihr r hr

/-- A form yields a word without epsilon rules exactly if there are parse trees without them. -/
theorem positive_yields_iff :
    g.positive.Yields form w ↔ ∃ t : Forest g form w, ∀ r ∈ t.rules, r.right ≠ [] := by
  constructor
  · intro h
    induction h with
    | nil => exact ⟨.nil, by simp [rules]⟩
    | @terminal a form w _ ih =>
      obtain ⟨t, ht⟩ := ih
      exact ⟨t.leaf a, ht⟩
    | @nonterminal A right form v w hright _ _ ihv ihw =>
      obtain ⟨children, hchildren⟩ := ihv
      obtain ⟨rest, hrest⟩ := ihw
      obtain ⟨hright, hne⟩ := Grammar.mem_rightsOf_positive.1 hright
      refine ⟨.node hright children rest, fun r hr => ?_⟩
      rw [rules, List.mem_cons, List.mem_append] at hr
      rcases hr with rfl | hr | hr
      · exact hne
      · exact hchildren r hr
      · exact hrest r hr
  · rintro ⟨t, ht⟩
    induction t with
    | nil => exact .nil
    | leaf a rest ih => exact .terminal (ih ht)
    | node hright children rest ihc ihr =>
      simp only [rules, List.forall_mem_cons, List.forall_mem_append] at ht
      exact .nonterminal (Grammar.mem_rightsOf_positive.2 ⟨hright, ht.1⟩) (ihc ht.2.1) (ihr ht.2.2)

theorem isLexical_or_isBinary (hnormal : g.InNormalForm) {A : Name} {right : RightSide}
    (hright : right ∈ g.rightsOf (.nonterminal A)) (hne : right ≠ []) :
    (Rule.isLexical ⟨A, right⟩ = true ∧ Rule.isBinary ⟨A, right⟩ = false ∧
        right.terminals.length = 1 ∧ right.nonterminals.length = 0) ∨
      Rule.isLexical ⟨A, right⟩ = false ∧ Rule.isBinary ⟨A, right⟩ = true ∧
        right.terminals.length = 0 ∧ right.nonterminals.length = 2 := by
  rcases hnormal _ _ hright with ⟨a, rfl⟩ | ⟨B, C, rfl⟩ | ⟨rfl, -⟩
  · exact .inl ⟨rfl, rfl, rfl, rfl⟩
  · exact .inr ⟨rfl, rfl, rfl, rfl⟩
  · exact absurd rfl hne

/-- The letters of the word come from the terminals of the form and from lexical rules, and
there is one binary rule less than there are lexical ones in each tree. -/
theorem rule_counts (hnormal : g.InNormalForm) (t : Forest g form w)
    (ht : ∀ r ∈ t.rules, r.right ≠ []) :
    w.length = form.terminals.length + t.rules.countP Rule.isLexical ∧
      t.rules.countP Rule.isLexical =
        t.rules.countP Rule.isBinary + form.nonterminals.length ∧
      t.rules.length = t.rules.countP Rule.isLexical + t.rules.countP Rule.isBinary := by
  induction t with
  | nil => exact ⟨rfl, rfl, rfl⟩
  | @leaf form w a rest ih =>
    have hterminals :
        RightSide.terminals (.terminal a :: form) = .terminal a :: form.terminals := rfl
    have hnonterminals : RightSide.nonterminals (.terminal a :: form) = form.nonterminals := rfl
    have hrest := ih ht
    rw [hterminals, hnonterminals, rules, List.length_cons, List.length_cons]
    omega
  | @node A right form v w hright children rest ihc ihr =>
    have hterminals : RightSide.terminals (.nonterminal A :: form) = form.terminals := rfl
    have hnonterminals : RightSide.nonterminals (.nonterminal A :: form) =
        .nonterminal A :: form.nonterminals := rfl
    simp only [rules, List.forall_mem_cons, List.forall_mem_append] at ht
    have hchildren := ihc ht.2.1
    have hrest := ihr ht.2.2
    rw [hterminals, hnonterminals, rules, List.length_append, List.length_cons, List.length_cons,
      List.length_append, List.countP_cons, List.countP_cons, List.countP_append,
      List.countP_append]
    -- A lexical rule turns a nonterminal into a letter, and a binary one turns it into two
    -- nonterminals.
    rcases isLexical_or_isBinary hnormal hright ht.1 with
      ⟨hlexical, hbinary, hleaves, hnodes⟩ | ⟨hlexical, hbinary, hleaves, hnodes⟩
    · rw [hlexical, hbinary, if_pos rfl, if_neg Bool.false_ne_true]
      omega
    · rw [hlexical, hbinary, if_pos rfl, if_neg Bool.false_ne_true]
      omega

end Forest

namespace Grammar

variable {g : Grammar} {w : Word}

/-- The grammar without the epsilon rule of the start symbol. -/
def withoutStartEpsilon (g : Grammar) : Grammar :=
  { g with productions := g.productions.modify (.nonterminal g.start) fun rights => rights.erase [] }

theorem mem_rightsOf_withoutStartEpsilon {X : Symbol} {right : RightSide} :
    right ∈ g.withoutStartEpsilon.rightsOf X ↔
      right ∈ g.rightsOf X ∧ ¬(X = .nonterminal g.start ∧ right = []) := by
  rw [mem_rightsOf, mem_rightsOf, withoutStartEpsilon, Std.ExtTreeMap.getElem?_modify]
  by_cases hX : X = .nonterminal g.start
  · subst hX
    rw [if_pos Std.ReflOrd.compare_self]
    cases g.productions[Symbol.nonterminal g.start]? with
    | none => simp
    | some rights => simpa using mem_erase_nil
  · have hne : compare (Symbol.nonterminal g.start) X ≠ .eq := fun heq =>
      hX (Std.LawfulEqOrd.eq_of_compare heq).symm
    rw [if_neg hne]
    simp [hX]

theorem EpsilonAtStart.generates_withoutStartEpsilon (h : g.EpsilonAtStart) :
    g.withoutStartEpsilon.Generates w ↔ g.positive.Generates w := by
  have hsame (X : Symbol) (right : RightSide) :
      right ∈ g.withoutStartEpsilon.rightsOf X ↔ right ∈ g.positive.rightsOf X := by
    rw [mem_rightsOf_withoutStartEpsilon, mem_rightsOf_positive]
    refine and_congr_right fun hright => ⟨?_, fun hne hnil => hne hnil.2⟩
    rintro hkept rfl
    exact hkept ⟨h X hright, rfl⟩
  exact ⟨fun hw => hw.mono fun A right => (hsame _ right).1,
    fun hw => hw.mono fun A right => (hsame _ right).2⟩

/-- Parse trees do without the epsilon rule of the start symbol exactly if they do without any
epsilon rules. -/
theorem EpsilonAtStart.notMem_rules_iff (h : g.EpsilonAtStart) {form : RightSide}
    (t : Forest g form w) : ⟨g.start, []⟩ ∉ t.rules ↔ ∀ r ∈ t.rules, r.right ≠ [] := by
  constructor
  · rintro hstart ⟨A, right⟩ hr rfl
    obtain ⟨rfl⟩ := h _ (Grammar.mem_rules.1 (t.mem_rules _ hr))
    exact hstart hr
  · exact fun hne hstart => hne _ hstart rfl

theorem EpsilonAtStart.positive_yields_iff (h : g.EpsilonAtStart) {form : RightSide} :
    g.positive.Yields form w ↔ ∃ t : Forest g form w, ⟨g.start, []⟩ ∉ t.rules :=
  Forest.positive_yields_iff.trans (exists_congr fun t => (h.notMem_rules_iff t).symm)

/-- A parse tree for a non-empty word does without the epsilon rule exactly if it consists of one
lexical rule for each letter and one binary rule less. -/
theorem InNormalForm.notMem_rules_iff (hnormal : g.InNormalForm) (hw : w ≠ []) (t : ParseTree g w) :
    ⟨g.start, []⟩ ∉ t.rules ↔ t.rules.countP Rule.isLexical = w.length ∧
      t.rules.countP Rule.isBinary = w.length - 1 ∧ t.rules.length = w.length + (w.length - 1) := by
  have hpos := List.length_pos_iff.2 hw
  constructor
  · intro hstart
    have hne := (hnormal.epsilonAtStart.notMem_rules_iff t).1 hstart
    obtain ⟨hlength, hcounts, htotal⟩ := t.rule_counts hnormal hne
    have hterminals : RightSide.terminals [.nonterminal g.start] = [] := rfl
    have hnonterminals :
        RightSide.nonterminals [.nonterminal g.start] = [.nonterminal g.start] := rfl
    rw [hterminals, List.length_nil] at hlength
    rw [hnonterminals, List.length_singleton] at hcounts
    omega
  · rintro ⟨hlexical, hbinary, htotal⟩ hstart
    have hlt := Rule.countP_add_countP_lt hstart
    omega

end Grammar

namespace Normalization

/-- After the conversion the non-empty words of the language are those with a parse tree that does
without the epsilon rule, which then consists of lexical rules, one for each letter, and one
binary rule less. The start symbol has its epsilon rule exactly if the language has the empty word,
and deleting that rule takes no other word away. -/
theorem normalize_parse_trees {r : Revision} (h : r.grammar.WellFormed) :
    ∃ passages r', normalize.run r = .ok passages r' ∧
      (∀ w, w ≠ [] → (r.grammar.Generates w ↔
        ∃ t : ParseTree r'.grammar w, ⟨r'.grammar.start, []⟩ ∉ t.rules)) ∧
      (∀ w, w ≠ [] → ∀ t : ParseTree r'.grammar w, ⟨r'.grammar.start, []⟩ ∉ t.rules ↔
        t.rules.countP Rule.isLexical = w.length ∧
          t.rules.countP Rule.isBinary = w.length - 1 ∧
          t.rules.length = w.length + (w.length - 1)) ∧
      ([] ∈ r'.grammar.rightsOf (.nonterminal r'.grammar.start) ↔ r.grammar.Generates []) ∧
      ∀ w, r'.grammar.withoutStartEpsilon.Generates w ↔ w ≠ [] ∧ r.grammar.Generates w := by
  obtain ⟨c, hturns⟩ := turns_normalize h
  obtain ⟨added', hrun⟩ := hturns r.added
  have hnormal := c.inNormalForm_final h
  have hrepresents := c.represents_final h
  have hpositive (w : Word) (hw : w ≠ []) :
      r.grammar.Generates w ↔ c.final.positive.Generates w :=
    ⟨hrepresents.complete w hw, fun hw' => hrepresents.sound w hw'.of_positive⟩
  refine ⟨c.passages, ⟨c.final, added'⟩, hrun, fun w hw => ?_, fun w hw t => ?_,
    hrepresents.epsilon, fun w => ?_⟩
  · rw [hpositive w hw, Grammar.Generates, Grammar.Derives, Forest.positive_yields_iff]
    exact exists_congr fun t => (hnormal.epsilonAtStart.notMem_rules_iff t).symm
  · exact hnormal.notMem_rules_iff hw t
  · rw [hnormal.epsilonAtStart.generates_withoutStartEpsilon]
    constructor
    · intro hw'
      have hw : w ≠ [] := by
        rintro rfl
        exact Grammar.not_positive_derives_nil hw'
      exact ⟨hw, (hpositive w hw).2 hw'⟩
    · rintro ⟨hw, hw'⟩
      exact (hpositive w hw).1 hw'

/-- The pair of brackets has a tree of three rules, although the start symbol of the brackets occurs
on right sides and keeps its epsilon rule. -/
theorem normalize_brackets_tree : Parts.brackets.grammar.WellFormed ∧
    ∃ passages r', normalize.run { grammar := Parts.brackets.grammar } = .ok passages r' ∧
      [] ∈ r'.grammar.rightsOf (.nonterminal r'.grammar.start) ∧
      ∃ t : ParseTree r'.grammar ["a", "b"], t.rules.countP Rule.isLexical = 2 ∧
        t.rules.countP Rule.isBinary = 1 ∧ t.rules.length = 3 := by
  have hwell := Parts.fit_brackets.wellFormed
  obtain ⟨passages, r', hrun, htree, hcounts, hepsilon, -⟩ :=
    normalize_parse_trees (r := { grammar := Parts.brackets.grammar }) hwell
  have hne : ["a", "b"] ≠ [] := List.cons_ne_nil _ _
  obtain ⟨t, ht⟩ := (htree _ hne).1 Parts.brackets_generates_pair
  exact ⟨hwell, passages, r', hrun, hepsilon.2 Parts.brackets_generates_nil, t,
    (hcounts _ hne t).1 ht⟩

end Normalization

end ContextFree
