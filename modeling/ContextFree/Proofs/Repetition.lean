import ContextFree.Proofs.Binarization
import ContextFree.Proofs.Stability

/-! # A second run changes nothing

Each of the six transformations removes every fault that it looks for, and none of them brings one
of its own kind back. So right after itself a transformation finds nothing to do, whatever was done
to the grammar before and however new nonterminals are named the second time.
-/

namespace ContextFree

namespace Grammar

variable {g : Grammar} {X : Symbol}

section Twice

variable (h : g.WellFormed)
include h

theorem withoutEpsilon_withoutEpsilon : g.withoutEpsilon.withoutEpsilon = g.withoutEpsilon :=
  (omissionClosed_withoutEpsilon h).withoutEpsilon_eq_self h.withoutEpsilon
    epsilonAtStart_withoutEpsilon

theorem nullable_of_nullable_withoutEpsilon (hX : X ∈ g.withoutEpsilon.nullable) :
    X ∈ g.nullable := by
  have hnil := (mem_nullable h.withoutEpsilon).1 hX
  exact (mem_nullable h).2 (hnil.of_withoutEpsilon h)

theorem withoutUnits_withoutUnits : g.withoutUnits.withoutUnits = g.withoutUnits :=
  withoutUnits_eq h.withoutUnits (unitFree_withoutUnits h) (epsilonAtStart_withoutUnits h)

theorem unitClosureOf_withoutUnits (hX : X ∈ g.withoutUnits.productions) :
    g.withoutUnits.unitClosureOf X = {X} :=
  unitClosureOf_eq h.withoutUnits (unitFree_withoutUnits h) hX

end Twice

end Grammar

namespace Transform

variable {α : Type} {t : Transform α} {r : Revision} {first second : α} {g g' : Grammar}
  {report : α → α → Prop}

/-- The transformation succeeds on the revision `r`, and it succeeds again right after that without
changing the grammar. What it gives the first and the second time is related by `report`. -/
def Settles (t : Transform α) (r : Revision) (report : α → α → Prop) : Prop :=
  ∃ first r', t.run r = .ok first r' ∧
    ∃ second r'', t.run r' = .ok second r'' ∧ r''.grammar = r'.grammar ∧ report first second

theorem Turns.settles (hfirst : t.Turns r.grammar first g) (hsecond : t.Turns g second g')
    (hsame : g' = g) (hreport : report first second) : t.Settles r report := by
  obtain ⟨added, hrun⟩ := hfirst r.added
  obtain ⟨added', hrun'⟩ := hsecond added
  exact ⟨_, _, hrun, _, _, hrun', hsame, hreport⟩

section Settles

variable (h : r.grammar.WellFormed)
include h

theorem settles_removeEpsilonRules :
    removeEpsilonRules.Settles r fun nullable again => ∀ X ∈ again, X ∈ nullable := by
  have hagain := turns_removeEpsilonRules h.withoutEpsilon
  exact (turns_removeEpsilonRules h).settles hagain (Grammar.withoutEpsilon_withoutEpsilon h)
    fun X hX => Grammar.nullable_of_nullable_withoutEpsilon h hX

theorem settles_removeUnaryRules :
    removeUnaryRules.Settles r fun _ again => ∀ p ∈ again, p.2 = {p.1} := by
  have hagain := turns_removeUnaryRules h.withoutUnits
  refine (turns_removeUnaryRules h).settles hagain (Grammar.withoutUnits_withoutUnits h)
    fun p hp => ?_
  obtain ⟨X, hX, rfl⟩ := List.mem_map.1 hp
  exact Grammar.unitClosureOf_withoutUnits h (Grammar.mem_heads.1 hX)

theorem settles_removeUnreachable :
    removeUnreachable.Settles r fun _ again => again = ∅ := by
  have hall := Grammar.allReached_withoutUnreachable h
  have hagain := turns_removeUnreachable h.withoutUnreachable
  exact (turns_removeUnreachable h).settles hagain (hall.withoutUnreachable_eq h.withoutUnreachable)
    (hall.unreachable_eq h.withoutUnreachable)

theorem settles_removeUnproductive :
    removeUnproductive.Settles r fun _ again => again = ∅ := by
  have hall := Grammar.allProductive_withoutUnproductive h
  have hagain := turns_removeUnproductive h.withoutUnproductive
  exact (turns_removeUnproductive h).settles hagain
    (hall.withoutUnproductive_eq h.withoutUnproductive) (hall.unproductive_eq h.withoutUnproductive)

end Settles

end Transform

namespace Minting

open Grammar

variable {α : Type} {m : Minting α} {w : Workshop} {first second : α} {g : Grammar}
  {s : NameSupply} {report : α → Prop}

/-- The minting succeeds in the workshop `w`, and with any supply of names it succeeds again right
after that without changing the grammar. What it gives the second time satisfies `report`. -/
def Settles (m : Minting α) (w : Workshop) (report : α → Prop) : Prop :=
  ∃ first w', m.run w = .ok first w' ∧ ∀ supply : NameSupply,
    ∃ second w'', m.run { w' with supply } = .ok second w'' ∧ w''.grammar = w'.grammar ∧
      report second

theorem Turns.settles (hfirst : m.Turns w.grammar w.supply first g s)
    (hsecond : ∀ supply, ∃ s', m.Turns g supply second g s') (hreport : report second) :
    m.Settles w report := by
  obtain ⟨added, hrun⟩ := hfirst w.added
  refine ⟨_, _, hrun, fun supply => ?_⟩
  obtain ⟨s', hagain⟩ := hsecond supply
  obtain ⟨added', hrun'⟩ := hagain added
  exact ⟨_, _, hrun', rfl, hreport⟩

section Settles

variable (h : w.grammar.WellFormed)
include h

/-- Once no terminal stands in a longer right side, there is none to be replaced. -/
theorem settles_isolateTerminals : isolateTerminals.Settles w fun again => again = ∅ := by
  obtain ⟨wrappers, glossary, hw, hturns⟩ := turns_isolateTerminals (s := w.supply) h
  have hagain (supply : NameSupply) :
      isolateTerminals.Turns (w.grammar.isolated wrappers glossary) supply ∅
        (w.grammar.isolated wrappers glossary) supply := by
    obtain ⟨wrappers', glossary', hw', hagain⟩ :=
      turns_isolateTerminals (s := supply) (hw.wellFormed_isolated h)
    rw [mixedTerminals_eq_empty hw.terminalsIsolated] at hw'
    rwa [hw'.isolated_eq, hw'.eq_empty.1] at hagain
  exact hturns.settles (fun supply => ⟨supply, hagain supply⟩) rfl

/-- Once no right side is long, there is none to be split. -/
theorem settles_shortenRules : shortenRules.Settles w fun again => again = [] := by
  obtain ⟨cuts, counter, hc, hturns⟩ := turns_shortenRules (s := w.supply) h
  have hshort : ∀ X, ∀ right ∈ (w.grammar.shortened cuts).rightsOf X, right.length ≤ 2 :=
    fun X right hright => hc.length_le_two hright
  have hagain (supply : NameSupply) : ∃ s', shortenRules.Turns (w.grammar.shortened cuts) supply []
      (w.grammar.shortened cuts) s' := by
    obtain ⟨cuts', counter', hc', hagain⟩ :=
      turns_shortenRules (s := supply) (hc.wellFormed_shortened h)
    rw [hc'.shortened_eq hshort, hc'.names_eq_nil hshort] at hagain
    exact ⟨_, hagain⟩
  exact hturns.settles hagain rfl

end Settles

end Minting

/-- Right after itself each transformation leaves the grammar as it is. The second time the removal
of epsilon rules finds nothing nullable that was not so before, and that of unit rules nothing that
a head derives by them; the other ones remove and mint nothing. -/
theorem steps_settle {w : Workshop} (h : w.grammar.WellFormed) :
    Transform.removeEpsilonRules.Settles w.toRevision
      (fun nullable again => ∀ X ∈ again, X ∈ nullable) ∧
    Transform.removeUnaryRules.Settles w.toRevision (fun _ again => ∀ p ∈ again, p.2 = {p.1}) ∧
    Transform.removeUnreachable.Settles w.toRevision (fun _ again => again = ∅) ∧
    Transform.removeUnproductive.Settles w.toRevision (fun _ again => again = ∅) ∧
    Minting.isolateTerminals.Settles w (fun again => again = ∅) ∧
    Minting.shortenRules.Settles w (fun again => again = []) :=
  ⟨Transform.settles_removeEpsilonRules h, Transform.settles_removeUnaryRules h,
    Transform.settles_removeUnreachable h, Transform.settles_removeUnproductive h,
    Minting.settles_isolateTerminals h, Minting.settles_shortenRules h⟩

open Parts

/-- Terminals of the crowded grammar are isolated under their own names at first, and links are
counted without a letter, but nothing is minted again with the usual names. The nonterminals that
were nullable are not joined by others, and nothing is unreachable twice. -/
theorem steps_settle_crowded : crowded.grammar.WellFormed ∧
    (∃ nullable r, Transform.removeEpsilonRules.run { grammar := crowded.grammar } =
        .ok nullable r ∧
      ∃ again r', Transform.removeEpsilonRules.run r = .ok again r' ∧ r'.grammar = r.grammar ∧
        ∀ X ∈ again, X ∈ nullable) ∧
    (∃ removed r, Transform.removeUnreachable.run { grammar := crowded.grammar } =
        .ok removed r ∧
      ∃ r', Transform.removeUnreachable.run r = .ok ∅ r' ∧ r'.grammar = r.grammar) ∧
    (∃ wrappers w, Minting.isolateTerminals.run
        ⟨{ grammar := crowded.grammar }, { terminalPrefix := "" }⟩ = .ok wrappers w ∧
      ∃ w', Minting.isolateTerminals.run { w with supply := {} } = .ok ∅ w' ∧
        w'.grammar = w.grammar) ∧
    ∃ links w, Minting.shortenRules.run
        ⟨{ grammar := crowded.grammar }, { chainPrefix := "", counter := 7 }⟩ = .ok links w ∧
      ∃ w', Minting.shortenRules.run { w with supply := {} } = .ok [] w' ∧
        w'.grammar = w.grammar := by
  have hwell := fit_crowded.wellFormed
  obtain ⟨hepsilon, -, ⟨removed, r, hremove, again, r', hrun, hgrammar, rfl⟩, -⟩ :=
    steps_settle (w := { grammar := crowded.grammar }) hwell
  obtain ⟨-, -, -, -, ⟨wrappers, w, hisolate, hagain⟩, -⟩ :=
    steps_settle (w := ⟨{ grammar := crowded.grammar }, { terminalPrefix := "" }⟩) hwell
  obtain ⟨again, w', hrun', hgrammar', rfl⟩ := hagain {}
  obtain ⟨-, -, -, -, -, links, v, hshorten, hagain⟩ := steps_settle
    (w := ⟨{ grammar := crowded.grammar }, { chainPrefix := "", counter := 7 }⟩) hwell
  obtain ⟨again, v', hrun'', hgrammar'', rfl⟩ := hagain {}
  exact ⟨hwell, hepsilon, ⟨removed, r, hremove, r', hrun, hgrammar⟩,
    ⟨wrappers, w, hisolate, w', hrun', hgrammar'⟩, links, v, hshorten, v', hrun'', hgrammar''⟩

end ContextFree
