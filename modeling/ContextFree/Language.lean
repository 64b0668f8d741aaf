import ContextFree.Grammar.Basic

/-! # The language of a grammar

A sentential form is a sequence of symbols. It yields a word, a string of terminals, if
each of its nonterminals can be replaced, again and again, until only the word is left. The
language of a grammar is the set of words that its start symbol yields.
-/

namespace ContextFree

/-- A string of terminals, by name. -/
abbrev Word := List Name

namespace Grammar

/-- The words that a sentential form yields, symbol by symbol. -/
inductive Yields (g : Grammar) : RightSide → Word → Prop where
  | nil : Yields g [] []
  | terminal {a : Name} {form : RightSide} {w : Word} :
    Yields g form w → Yields g (.terminal a :: form) (a :: w)
  | nonterminal {A : Name} {right form : RightSide} {v w : Word} :
    right ∈ g.rightsOf (.nonterminal A) → Yields g right v → Yields g form w →
      Yields g (.nonterminal A :: form) (v ++ w)

/-- Whether a nonterminal derives a word. -/
def Derives (g : Grammar) (A : Name) (w : Word) : Prop :=
  g.Yields [.nonterminal A] w

/-- Whether a word belongs to the language of the grammar. -/
def Generates (g : Grammar) (w : Word) : Prop :=
  g.Derives g.start w

/-- The sentential forms that arise from a form by replacing nonterminals. -/
inductive Reaches (g : Grammar) (form : RightSide) : RightSide → Prop where
  | refl : Reaches g form form
  | step {before after right : RightSide} {A : Name} :
    Reaches g form (before ++ .nonterminal A :: after) → right ∈ g.rightsOf (.nonterminal A) →
      Reaches g form (before ++ right ++ after)

/-- A nonterminal derives what its right sides yield. -/
theorem derives_iff {g : Grammar} {A : Name} {w : Word} :
    g.Derives A w ↔ ∃ right ∈ g.rightsOf (.nonterminal A), g.Yields right w := by
  constructor
  · intro h
    cases h with
    | nonterminal hright hv hw =>
      cases hw
      exact ⟨_, hright, by simpa using hv⟩
  · rintro ⟨right, hright, h⟩
    simpa only [Derives, List.append_nil] using Yields.nonterminal hright h Yields.nil

/-- Words yielded by adjacent forms are joined. -/
theorem Yields.append {g : Grammar} {form form' : RightSide} {v w : Word}
    (h : g.Yields form v) (h' : g.Yields form' w) : g.Yields (form ++ form') (v ++ w) := by
  induction h with
  | nil => exact h'
  | terminal _ ih => exact .terminal ih
  | nonterminal hright hv _ _ ih => simpa using Yields.nonterminal hright hv ih

/-- A word yielded by adjacent forms splits where they meet. -/
theorem Yields.split {g : Grammar} {form form' : RightSide} {w : Word}
    (h : g.Yields (form ++ form') w) :
    ∃ u v, w = u ++ v ∧ g.Yields form u ∧ g.Yields form' v := by
  induction form generalizing w with
  | nil => exact ⟨[], w, rfl, .nil, h⟩
  | cons X form ih =>
    cases h with
    | terminal h =>
      obtain ⟨u, v, rfl, hu, hv⟩ := ih h
      exact ⟨_ :: u, v, rfl, .terminal hu, hv⟩
    | nonterminal hright hx h =>
      obtain ⟨u, v, rfl, hu, hv⟩ := ih h
      exact ⟨_ ++ u, v, by simp, .nonterminal hright hx hu, hv⟩

end Grammar

end ContextFree
