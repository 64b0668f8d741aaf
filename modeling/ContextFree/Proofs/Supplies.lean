import ContextFree.Proofs.Building
import ContextFree.Proofs.FreshNames

/-! # Names from one supply

The search for a free name goes on for as long as it takes. It ends all the same, and it is known
beforehand how many names it tries at most, since the names of a series differ from each other and
every name in use is that of a symbol. Whatever is done to the grammar between two requests, a
supply only counts upwards, so no link gets the name of an earlier one, though that may have been
removed.
-/

namespace ContextFree

namespace Grammar

variable {g : Grammar} {series : Nat → Name} {index tried found bound : Nat}

/-- The search for a free name without a bound: it goes through the series from `index` on, tries as
many names as `tried` says, and ends at the index `found`. -/
inductive Tries (g : Grammar) (series : Nat → Name) : (index tried found : Nat) → Prop where
  | free {index : Nat} : g.uses (series index) = false → Tries g series index 1 index
  | used {index tried found : Nat} : g.uses (series index) = true →
      Tries g series (index + 1) tried found → Tries g series index (tried + 1) found

theorem Tries.first (h : g.Tries series index tried found) :
    index ≤ found ∧ g.uses (series found) = false ∧
      ∀ i, index ≤ i → i < found → g.uses (series i) = true := by
  induction h with
  | free hfree => exact ⟨Nat.le_refl _, hfree, fun i hle hlt => by omega⟩
  | @used index tried found hused _ ih =>
    obtain ⟨hle, hfree, hpassed⟩ := ih
    refine ⟨by omega, hfree, fun i hi hlt => ?_⟩
    rcases Nat.eq_or_lt_of_le hi with rfl | hi
    · exact hused
    · exact hpassed i hi hlt

/-- The search without a bound ends where the one with a bound does if the name there is free. -/
theorem tries_firstFree (hfree : g.uses (series (g.firstFree series bound index)) = false) :
    ∃ tried ≤ bound + 1, g.Tries series index tried (g.firstFree series bound index) := by
  induction bound generalizing index with
  | zero => exact ⟨1, by omega, .free hfree⟩
  | succ bound ih =>
    rw [firstFree] at hfree ⊢
    by_cases hused : g.uses (series index) = true
    · rw [if_pos hused] at hfree ⊢
      obtain ⟨tried, hle, htries⟩ := ih hfree
      exact ⟨tried + 1, by omega, .used hused htries⟩
    · rw [if_neg hused] at hfree ⊢
      exact ⟨1, by omega, .free hfree⟩

end Grammar

namespace NameSupply

variable {s s' s'' : NameSupply} {g : Grammar}

/-- The name that a nonterminal for the terminal gets: the prefix and the terminal if no symbol has
that name, and otherwise the two with the least number from 1 on that makes the name a free one. -/
def IsWrapperName (s : NameSupply) (g : Grammar) (terminal : String) (name : Name) : Prop :=
  if g.uses (s.terminalPrefix ++ terminal) then
    ∃ n, 1 ≤ n ∧ name = s.terminalPrefix ++ terminal ++ "_" ++ toString n ∧
      g.uses name = false ∧ ∀ k, 1 ≤ k → k < n →
        g.uses (s.terminalPrefix ++ terminal ++ "_" ++ toString k) = true
  else name = s.terminalPrefix ++ terminal

/-- The number that the next link gets: the least one above the last number given out that makes its
name a free one. -/
structure IsNextNumber (s : NameSupply) (g : Grammar) (n : Nat) : Prop where
  above : s.counter < n
  free : g.uses (s.chainPrefix ++ toString n) = false
  least : ∀ k, s.counter < k → k < n → g.uses (s.chainPrefix ++ toString k) = true

theorem isWrapperName_wrapperName (terminal : String) :
    s.IsWrapperName g terminal (s.wrapperName g terminal) := by
  have hfree := uses_wrapperName (s := s) (g := g) terminal
  obtain ⟨tried, -, htries⟩ := Grammar.tries_firstFree hfree
  obtain ⟨-, -, hpassed⟩ := htries.first
  rw [wrapperName] at hfree ⊢
  generalize g.firstFree (s.wrapperSeries terminal) g.symbolCount 0 = found at hfree hpassed
  rw [IsWrapperName]
  cases found with
  | zero =>
    have hbase : g.uses (s.terminalPrefix ++ terminal) = false := hfree
    rw [if_neg (by simp [hbase])]
    rfl
  | succ n =>
    have hbase : g.uses (s.terminalPrefix ++ terminal) = true :=
      hpassed 0 (Nat.le_refl _) (Nat.succ_pos n)
    rw [if_pos hbase]
    refine ⟨n + 1, Nat.succ_pos n, rfl, hfree, fun k hk hlt => ?_⟩
    obtain ⟨k, rfl⟩ : ∃ i, k = i + 1 := ⟨k - 1, by omega⟩
    exact hpassed (k + 1) (Nat.zero_le _) hlt

theorem isNextNumber_nextChain : s.IsNextNumber g (s.nextChain g) := by
  have hfree := uses_nextChain (s := s) (g := g)
  obtain ⟨tried, -, htries⟩ := Grammar.tries_firstFree hfree
  obtain ⟨hle, -, hpassed⟩ := htries.first
  exact ⟨hle, hfree, hpassed⟩

/-- The second supply may be what is left of the first one: it has the same prefixes, and it did not
count backwards. -/
structure Precedes (s s' : NameSupply) : Prop where
  chainPrefix_eq : s'.chainPrefix = s.chainPrefix
  terminalPrefix_eq : s'.terminalPrefix = s.terminalPrefix
  counter_le : s.counter ≤ s'.counter

theorem Precedes.refl : s.Precedes s :=
  ⟨rfl, rfl, Nat.le_refl _⟩

theorem Precedes.trans (h : s.Precedes s') (h' : s'.Precedes s'') : s.Precedes s'' where
  chainPrefix_eq := h'.chainPrefix_eq.trans h.chainPrefix_eq
  terminalPrefix_eq := h'.terminalPrefix_eq.trans h.terminalPrefix_eq
  counter_le := Nat.le_trans h.counter_le h'.counter_le

/-- Links with different numbers have different names, also when the supply was used in between. -/
theorem Precedes.chainSeries_ne (h : s.Precedes s') {i j : Nat} (hlt : i < j) :
    s.chainSeries i ≠ s'.chainSeries j := by
  have hseries : s'.chainSeries j = s.chainSeries j := by
    rw [chainSeries, chainSeries, h.chainPrefix_eq]
  rw [hseries]
  exact fun heq => Nat.ne_of_lt hlt (chainSeries_injective heq)

end NameSupply

namespace Minting

open Grammar

variable {m : Minting Name} {w : Workshop} {series : Nat → Name} {first : Nat}

/-- In the workshop `w` the minting searches the series from the index `first` on, and it ends at
the index `found`, after at most one try more than the grammar has symbols. No symbol has the name
found there. It is given out and becomes a nonterminal without right sides, and nothing else changes
in the grammar. -/
structure Supplies (m : Minting Name) (w : Workshop) (series : Nat → Name) (first found : Nat)
    (w' : Workshop) : Prop where
  run_eq : m.run w = .ok (series found) w'
  tries : ∃ tried ≤ w.grammar.productions.size + w.grammar.terminals.size + 1,
    w.grammar.Tries series first tried found
  not_nonterminal : .nonterminal (series found) ∉ w.grammar.productions
  not_terminal : series found ∉ w.grammar.terminals
  grammar_eq : w'.grammar =
    { w.grammar with productions := w.grammar.productions.insert (.nonterminal (series found)) ∅ }

/-- What registers the first free name of a series supplies it. -/
theorem Turns.supplies {s : NameSupply} (hinj : ∀ i j, series i = series j → i = j)
    (hturns : m.Turns w.grammar w.supply
      (series (w.grammar.firstFree series w.grammar.symbolCount first))
      (w.grammar.extend [(series (w.grammar.firstFree series w.grammar.symbolCount first), ∅)]) s) :
    ∃ w', m.Supplies w series first (w.grammar.firstFree series w.grammar.symbolCount first) w' ∧
      w'.supply = s := by
  have hfree := uses_firstFree (g := w.grammar) hinj first
  obtain ⟨added, hrun⟩ := hturns w.added
  refine ⟨_, ⟨hrun, tries_firstFree hfree, ?_, ?_, ?_⟩, rfl⟩
  · exact (uses_eq_false.1 hfree).1
  · exact (uses_eq_false.1 hfree).2
  · simp [extend]

theorem Turns.supply_perform {α : Type} {m : Minting α} {value : α} {g : Grammar} {s : NameSupply}
    (hturns : m.Turns w.grammar w.supply value g s) : (m.perform w).2.supply = s := by
  obtain ⟨added, hrun⟩ := hturns w.added
  have hrun : m.run w = .ok value ⟨⟨g, added⟩, s⟩ := hrun
  rw [perform, hrun]

end Minting

/-- Both kinds of names are supplied in the workshop. -/
structure Workshop.Serves (w : Workshop) : Prop where
  wrapper : ∀ terminal, ∃ found w',
    (Minting.wrapper terminal).Supplies w (w.supply.wrapperSeries terminal) 0 found w' ∧
      w.supply.IsWrapperName w.grammar terminal (w.supply.wrapperSeries terminal found) ∧
      w'.supply = w.supply
  link : ∃ found w',
    Minting.chain.Supplies w w.supply.chainSeries (w.supply.counter + 1) found w' ∧
      w.supply.IsNextNumber w.grammar found ∧ w'.supply = { w.supply with counter := found }

theorem Workshop.serves (w : Workshop) : w.Serves where
  wrapper terminal := by
    have hturns : (Minting.wrapper terminal).Turns w.grammar w.supply _ _ w.supply :=
      Minting.turns_wrapper
    obtain ⟨w', hsupplies, hsupply⟩ :=
      hturns.supplies fun _ _ => NameSupply.wrapperSeries_injective
    exact ⟨_, w', hsupplies, NameSupply.isWrapperName_wrapperName terminal, hsupply⟩
  link := by
    have hturns : Minting.chain.Turns w.grammar w.supply _ _ _ := Minting.turns_chain
    obtain ⟨w', hsupplies, hsupply⟩ := hturns.supplies fun _ _ => NameSupply.chainSeries_injective
    exact ⟨_, w', hsupplies, NameSupply.isNextNumber_nextChain, hsupply⟩

/-- What may be asked for while one supply of names is in use: a nonterminal that stands for a
terminal, a link, or any transformation of the grammar that leaves the supply alone. -/
inductive Request where
  | wrapper (terminal : String)
  | link
  | edit (t : Transform Unit)

/-- Carries out a request. Gives the name that is minted, if any. -/
def Request.run : Request → Minting (Option Name)
  | wrapper terminal => return some (← Minting.wrapper terminal)
  | link => return some (← Minting.chain)
  | edit t => do
    Minting.transform t
    return none

namespace Workshop

/-- The workshop after a history of requests; what a transformation did before it failed stays in
effect. -/
def after (w : Workshop) (requests : List Request) : Workshop :=
  requests.foldl (fun w request => (request.run.perform w).2) w

theorem precedes_perform (w : Workshop) (request : Request) :
    w.supply.Precedes (request.run.perform w).2.supply := by
  -- A wrapper or a link draws from the supply; an edit leaves it as it is.
  cases request with
  | wrapper terminal =>
    have hturns : (Request.wrapper terminal).run.Turns w.grammar w.supply _ _ w.supply :=
      Minting.turns_wrapper.bind Minting.Turns.pure
    rw [hturns.supply_perform]
    exact .refl
  | link =>
    have hturns : Request.link.run.Turns w.grammar w.supply _ _
        { w.supply with counter := w.supply.nextChain w.grammar } :=
      Minting.turns_chain.bind Minting.Turns.pure
    rw [hturns.supply_perform]
    exact ⟨rfl, rfl, Nat.le_of_lt NameSupply.isNextNumber_nextChain.above⟩
  | edit t =>
    have hsame : ((Request.edit t).run.perform w).2.supply = w.supply := by
      rw [Minting.perform, Request.run, EStateM.run_bind]
      simp only [Minting.transform, EStateM.run]
      cases t w.toRevision <;> rfl
    rw [hsame]
    exact .refl

theorem precedes_after (w : Workshop) (requests : List Request) :
    w.supply.Precedes (w.after requests).supply := by
  induction requests generalizing w with
  | nil => exact .refl
  | cons request requests ih => exact (w.precedes_perform request).trans (ih _)

/-- Whatever was done to a grammar, with the names of a supply or without, the next request for a
name is met: the supply has kept its prefixes and gives the first name that fits and is free. Two
links that are minted at different times have different names, whatever was done in between. -/
theorem names_supplied (w : Workshop) (before between : List Request) :
    (w.after before).Serves ∧ w.supply.Precedes (w.after before).supply ∧
      ∃ first v second v', Minting.chain.run (w.after before) = .ok first v ∧
        Minting.chain.run (v.after between) = .ok second v' ∧ first ≠ second := by
  obtain ⟨number, v, hfirst, -, hcounter⟩ := (w.after before).serves.link
  obtain ⟨number', v', hsecond, hnext, -⟩ := (v.after between).serves.link
  have hkept : v.supply.Precedes (v.after between).supply := v.precedes_after between
  have hlt : number < number' := by
    have habove := hnext.above
    have hle := hkept.counter_le
    rw [hcounter] at hle
    exact Nat.lt_of_le_of_lt hle habove
  have hne := hkept.chainSeries_ne hlt
  rw [hcounter] at hne
  exact ⟨(w.after before).serves, w.precedes_after before, _, v, _, v', hfirst.run_eq,
    hsecond.run_eq, hne⟩

/-- The first link is removed, and the second one is not named after it. -/
example : (Minting.chain.perform (Workshop.after { grammar := Parts.brackets.grammar }
    [.link, .edit (Transform.remove {.nonterminal "X1"})])).1.toOption = some "X2" := by
  decide +kernel

end Workshop

end ContextFree
