import ContextFree.Normalization.Run
import ContextFree.Proofs.Building
import ContextFree.Proofs.Chains
import ContextFree.Proofs.Omission
import ContextFree.Proofs.Trim
import ContextFree.Proofs.UnitRules

/-! # The conversion to Chomsky Normal Form

The first stage turns a grammar into one that generates every non-empty word without epsilon
rules. Each of the other stages keeps these derivations and the epsilon rule of the start
symbol and adds no derivation, so the language stays the same to the end.
-/

namespace ContextFree

open Normalization

namespace Grammar

variable {g g' g'' : Grammar}

/-- The grammar `g'` generates the language of `g`, and it needs epsilon rules for the empty
word only. -/
structure Represents (g' g : Grammar) : Prop where
  sound : ∀ w, g'.Generates w → g.Generates w
  complete : ∀ w, w ≠ [] → g.Generates w → g'.positive.Generates w
  epsilon : [] ∈ g'.rightsOf (.nonterminal g'.start) ↔ g.Generates []

/-- What a stage after the first one does to the language: from `g` to `g'` no word is added,
the derivations without epsilon rules are kept, and so is the epsilon rule of the start
symbol. -/
structure Carries (g g' : Grammar) : Prop where
  sound : ∀ w, g'.Generates w → g.Generates w
  positive : ∀ w, g.positive.Generates w → g'.positive.Generates w
  epsilon : [] ∈ g'.rightsOf (.nonterminal g'.start) ↔ [] ∈ g.rightsOf (.nonterminal g.start)

theorem Carries.trans (h : g.Carries g') (h' : g'.Carries g'') : g.Carries g'' where
  sound w hw := h.sound w (h'.sound w hw)
  positive w hw := h'.positive w (h.positive w hw)
  epsilon := h'.epsilon.trans h.epsilon

theorem Represents.carry (h : g'.Represents g) (h' : g'.Carries g'') : g''.Represents g where
  sound w hw := h.sound w (h'.sound w hw)
  complete w hne hw := h'.positive w (h.complete w hne hw)
  epsilon := h'.epsilon.trans h.epsilon

theorem Represents.generates_iff (h : g'.Represents g) {w : Word} :
    g'.Generates w ↔ g.Generates w := by
  refine ⟨h.sound w, fun hw => ?_⟩
  by_cases hne : w = []
  · subst hne
    exact derives_iff.2 ⟨[], h.epsilon.2 hw, .nil⟩
  · exact (h.complete w hne hw).of_positive

theorem represents_withoutEpsilon (h : g.WellFormed) : g.withoutEpsilon.Represents g where
  sound _ hw := hw.of_withoutEpsilon h
  complete _ hne hw := hw.withoutEpsilon_positive hne
  epsilon := nil_mem_rightsOf_withoutEpsilon h

theorem carries_withoutUnits (h : g.WellFormed) (hepsilon : g.EpsilonAtStart) :
    g.Carries g.withoutUnits where
  sound _ hw := hw.of_withoutUnits h
  positive _ hw := hw.withoutUnits_positive h
  epsilon := nil_mem_rightsOf_withoutUnits h hepsilon

theorem carries_withoutUnreachable (h : g.WellFormed) : g.Carries g.withoutUnreachable where
  sound _ hw := hw.of_withoutUnreachable h
  positive _ hw := hw.withoutUnreachable_positive h .root
  epsilon := by
    rw [mem_rightsOf_withoutUnreachable h]
    exact and_iff_left .root

theorem carries_withoutUnproductive (h : g.WellFormed) : g.Carries g.withoutUnproductive where
  sound _ hw := hw.of_withoutUnproductive
  positive _ hw := hw.withoutUnproductive_positive h
  epsilon := by
    rw [mem_rightsOf_withoutUnproductive]
    exact and_iff_left ⟨start_notMem_unproductive, by simp⟩

/-- Nonterminals that abbreviate forms change nothing for the start symbol. -/
theorem Abbreviates.carries {glossary : Glossary} (h : g'.Abbreviates g glossary)
    (hstart : .nonterminal g.start ∈ g.productions) : g.Carries g' := by
  have hold : g.start ∉ glossary.map Prod.fst := fun hmem =>
    h.fresh.notMem_productions hmem hstart
  refine ⟨fun w hw => ?_, fun w hw => ?_, ?_⟩
  · rw [Generates, h.start_eq] at hw
    exact (h.derives_iff_old hold).1 hw
  · rw [Generates, h.positive.start_eq]
    exact (h.positive.derives_iff_old hold).2 hw
  · rw [h.start_eq]
    exact h.nil_mem_rightsOf hold

/-- The grammar after the first three stages. -/
def reduced (g : Grammar) : Grammar :=
  g.withoutEpsilon.withoutUnits.withoutUnreachable

/-- The grammar after the first four stages. -/
def trimmed (g : Grammar) : Grammar :=
  g.reduced.withoutUnproductive.withoutUnreachable

theorem WellFormed.reduced (h : g.WellFormed) : g.reduced.WellFormed :=
  h.withoutEpsilon.withoutUnits.withoutUnreachable

theorem WellFormed.trimmed (h : g.WellFormed) : g.trimmed.WellFormed :=
  h.reduced.withoutUnproductive.withoutUnreachable

theorem start_trimmed : g.trimmed.start = g.reduced.start :=
  start_withoutUnreachable.trans start_withoutUnproductive

theorem epsilonAtStart_reduced (h : g.WellFormed) : g.reduced.EpsilonAtStart :=
  (epsilonAtStart_withoutUnits h.withoutEpsilon).of_subset
    (fun _ _ hright => ((mem_rightsOf_withoutUnreachable h.withoutEpsilon.withoutUnits).1 hright).1)
    start_withoutUnreachable

theorem unitFree_reduced (h : g.WellFormed) : g.reduced.UnitFree :=
  (unitFree_withoutUnits h.withoutEpsilon).of_subset fun _ _ hright =>
    ((mem_rightsOf_withoutUnreachable h.withoutEpsilon.withoutUnits).1 hright).1

theorem mem_rightsOf_reduced (h : g.WellFormed) {X : Symbol} {right : RightSide}
    (hright : right ∈ g.trimmed.rightsOf X) : right ∈ g.reduced.rightsOf X :=
  (mem_rightsOf_withoutUnproductive.1
    ((mem_rightsOf_withoutUnreachable h.reduced.withoutUnproductive).1 hright).1).1

theorem epsilonAtStart_trimmed (h : g.WellFormed) : g.trimmed.EpsilonAtStart :=
  (epsilonAtStart_reduced h).of_subset (fun _ _ => mem_rightsOf_reduced h) start_trimmed

theorem unitFree_trimmed (h : g.WellFormed) : g.trimmed.UnitFree :=
  (unitFree_reduced h).of_subset fun _ _ => mem_rightsOf_reduced h

theorem represents_trimmed (h : g.WellFormed) : g.trimmed.Represents g := by
  have hunits := carries_withoutUnits h.withoutEpsilon epsilonAtStart_withoutEpsilon
  have hfirst := carries_withoutUnreachable h.withoutEpsilon.withoutUnits
  have hproductive := carries_withoutUnproductive h.reduced
  have hsecond := carries_withoutUnreachable h.reduced.withoutUnproductive
  exact (represents_withoutEpsilon h).carry
    (((hunits.trans hfirst).trans hproductive).trans hsecond)

end Grammar

namespace Normalization

open Grammar

/-- The choices of new nonterminals in the last stage of the conversion of `g`. -/
structure Course (g : Grammar) where
  wrappers : Wrappers
  glossary : Glossary
  cuts : Cuts
  wraps : g.trimmed.Wraps {} g.trimmed.mixedTerminals.toList wrappers glossary
  cut : (g.trimmed.isolated wrappers glossary).IsCutBy {} cuts

namespace Course

variable {g : Grammar} (c : Course g)

/-- The grammar with isolated terminals. -/
def isolated : Grammar :=
  g.trimmed.isolated c.wrappers c.glossary

/-- The grammar at the end. -/
def final : Grammar :=
  c.isolated.shortened c.cuts

/-- The records of the five stages. -/
def passages : List Passage :=
  [⟨.epsilon, .nullable g.nullable, [], g.withoutEpsilon⟩,
    ⟨.unit, .closures (g.withoutEpsilon.heads.map fun X => (X, g.withoutEpsilon.unitClosureOf X)),
      [], g.withoutEpsilon.withoutUnits⟩,
    ⟨.reachability, .removed g.withoutEpsilon.withoutUnits.unreachable, [], g.reduced⟩,
    ⟨.productivity, .trimmed g.reduced.unproductive g.reduced.withoutUnproductive.unreachable, [],
      g.trimmed⟩,
    ⟨.binarization, .minted c.wrappers c.cuts.names, [⟨Stage.isolatedTitle, c.isolated⟩], c.final⟩]

theorem map_stage : c.passages.map Passage.stage = Stage.all :=
  rfl

variable (h : g.WellFormed)
include h

theorem wellFormed_isolated : c.isolated.WellFormed :=
  c.wraps.wellFormed_isolated h.trimmed

theorem wellFormed_final : c.final.WellFormed :=
  c.cut.wellFormed_shortened (c.wellFormed_isolated h)

/-- The final grammar generates the same language without needing epsilon rules. -/
theorem represents_final : c.final.Represents g := by
  have hwrap := (c.wraps.abbreviates_isolated h.trimmed).carries h.trimmed.start_mem
  have hcut := (c.cut.abbreviates_shortened (c.wellFormed_isolated h)).carries
    (c.wellFormed_isolated h).start_mem
  exact (represents_trimmed h).carry (hwrap.trans hcut)

theorem wellFormed_shown : ∀ p ∈ c.passages, ∀ k ∈ p.shown, k.grammar.WellFormed := by
  simp only [passages, Passage.shown, List.forall_mem_cons, List.cons_append, List.nil_append,
    List.not_mem_nil, false_imp_iff, implies_true, and_true]
  exact ⟨h.withoutEpsilon, h.withoutEpsilon.withoutUnits, h.reduced, h.trimmed,
    c.wellFormed_isolated h, c.wellFormed_final h⟩

theorem epsilonAtStart_shown :
    ∀ p ∈ c.passages, ∀ k ∈ p.shown, k.grammar.EpsilonAtStart := by
  have hisolated := c.wraps.epsilonAtStart_isolated (epsilonAtStart_trimmed h)
  simp only [passages, Passage.shown, List.forall_mem_cons, List.cons_append, List.nil_append,
    List.not_mem_nil, false_imp_iff, implies_true, and_true]
  exact ⟨epsilonAtStart_withoutEpsilon, epsilonAtStart_withoutUnits h.withoutEpsilon,
    epsilonAtStart_reduced h, epsilonAtStart_trimmed h, hisolated,
    c.cut.epsilonAtStart_shortened hisolated⟩

theorem unitFree_shown :
    ∀ p ∈ c.passages, p.stage ≠ .epsilon → ∀ k ∈ p.shown, k.grammar.UnitFree := by
  have hisolated := c.wraps.unitFree_isolated (unitFree_trimmed h)
  simp only [passages, Passage.shown, List.forall_mem_cons, List.cons_append, List.nil_append,
    List.not_mem_nil, false_imp_iff, implies_true, and_true, ne_eq, not_true_eq_false,
    reduceCtorEq, not_false_eq_true, forall_const, true_and]
  exact ⟨unitFree_withoutUnits h.withoutEpsilon, unitFree_reduced h, unitFree_trimmed h, hisolated,
    c.cut.unitFree_shortened hisolated⟩

omit h in
/-- In the last stage, no longer right side contains a terminal any more. -/
theorem terminalsIsolated_shown :
    ∀ p ∈ c.passages, p.stage = .binarization → ∀ k ∈ p.shown, k.grammar.TerminalsIsolated := by
  have hisolated := c.wraps.terminalsIsolated
  simp only [passages, Passage.shown, List.forall_mem_cons, List.cons_append, List.nil_append,
    List.not_mem_nil, false_imp_iff, implies_true, and_true, reduceCtorEq, forall_const, true_and]
  exact ⟨hisolated, c.cut.terminalsIsolated_shortened hisolated⟩

theorem epsilonAtStart_final : c.final.EpsilonAtStart :=
  c.cut.epsilonAtStart_shortened (c.wraps.epsilonAtStart_isolated (epsilonAtStart_trimmed h))

theorem inNormalForm_final : c.final.InNormalForm :=
  inNormalForm_of_short (c.epsilonAtStart_final h)
    (c.cut.unitFree_shortened (c.wraps.unitFree_isolated (unitFree_trimmed h)))
    (c.cut.terminalsIsolated_shortened c.wraps.terminalsIsolated) fun _ _ => c.cut.length_le_two

theorem nonNormalRule?_final : c.final.nonNormalRule? = .ok none :=
  nonNormalRule?_eq_none (c.wellFormed_final h) (c.inNormalForm_final h)

theorem checkNormal_final : c.final.checkNormal = .ok () := by
  rw [checkNormal, c.nonNormalRule?_final h]
  rfl

end Course

theorem turns_pass {stage : Stage} {g g' : Grammar} {details : Details}
    {checkpoints : List Checkpoint} (h : stage.run.Turns g (details, checkpoints) g') :
    (pass stage).Turns g ⟨stage, details, checkpoints, g'⟩ g' :=
  h.bind (Transform.turns_current.bind Transform.Turns.pure)

section Stages

variable {g : Grammar} (h : g.WellFormed)
include h

theorem turns_epsilon : (Stage.run .epsilon).Turns g (.nullable g.nullable, []) g.withoutEpsilon :=
  (Transform.turns_removeEpsilonRules h).bind Transform.Turns.pure

theorem turns_unit : (Stage.run .unit).Turns g
    (.closures (g.heads.map fun X => (X, g.unitClosureOf X)), []) g.withoutUnits :=
  (Transform.turns_removeUnaryRules h).bind Transform.Turns.pure

theorem turns_reachability :
    (Stage.run .reachability).Turns g (.removed g.unreachable, []) g.withoutUnreachable :=
  (Transform.turns_removeUnreachable h).bind Transform.Turns.pure

theorem turns_productivity : (Stage.run .productivity).Turns g
    (.trimmed g.unproductive g.withoutUnproductive.unreachable, [])
    g.withoutUnproductive.withoutUnreachable :=
  (Transform.turns_removeUnproductive h).bind
    ((Transform.turns_removeUnreachable h.withoutUnproductive).bind Transform.Turns.pure)

theorem turns_binarization : ∃ wrappers glossary cuts,
    g.Wraps {} g.mixedTerminals.toList wrappers glossary ∧
      (g.isolated wrappers glossary).IsCutBy {} cuts ∧
      (Stage.run .binarization).Turns g
        (.minted wrappers cuts.names, [⟨Stage.isolatedTitle, g.isolated wrappers glossary⟩])
        ((g.isolated wrappers glossary).shortened cuts) := by
  obtain ⟨wrappers, glossary, hw, hisolate⟩ := Minting.turns_isolateTerminals (s := {}) h
  obtain ⟨cuts, counter, hcut, hshorten⟩ :=
    Minting.turns_shortenRules (s := {}) (hw.wellFormed_isolated h)
  refine ⟨wrappers, glossary, cuts, hw, hcut, ?_⟩
  exact Minting.turns_withSupply (hisolate.bind
    (Minting.Turns.get_bind fun added => hshorten.bind Minting.Turns.pure))

end Stages

/-- The conversion of a well-formed grammar succeeds. -/
theorem turns_normalize {g : Grammar} (h : g.WellFormed) :
    ∃ c : Course g, normalize.Turns g c.passages c.final := by
  obtain ⟨wrappers, glossary, cuts, hw, hcut, hbinarize⟩ := turns_binarization h.trimmed
  refine ⟨⟨wrappers, glossary, cuts, hw, hcut⟩, ?_⟩
  have hfirst := turns_pass (turns_epsilon h)
  have hsecond := turns_pass (turns_unit h.withoutEpsilon)
  have hthird := turns_pass (turns_reachability h.withoutEpsilon.withoutUnits)
  have hfourth := turns_pass (turns_productivity h.reduced)
  have hfifth := turns_pass hbinarize
  exact hfirst.mapM_cons (hsecond.mapM_cons (hthird.mapM_cons (hfourth.mapM_cons
    (hfifth.mapM_cons Transform.Turns.pure))))

/-- The conversion of a well-formed grammar succeeds, and the resulting grammar generates the
same words from its start symbol. -/
theorem normalize_keeps_language {r : Revision} (h : r.grammar.WellFormed) :
    ∃ passages r', normalize.run r = .ok passages r' ∧
      ∀ w, r'.grammar.Generates w ↔ r.grammar.Generates w := by
  obtain ⟨c, hturns⟩ := turns_normalize h
  obtain ⟨added', hrun⟩ := hturns r.added
  exact ⟨c.passages, ⟨c.final, added'⟩, hrun, fun w => (c.represents_final h).generates_iff⟩

/-- The conversion keeps the pair of brackets. -/
theorem normalize_keeps_brackets : Parts.brackets.grammar.WellFormed ∧
    ∃ passages r', normalize.run { grammar := Parts.brackets.grammar } = .ok passages r' ∧
      r'.grammar.Generates ["a", "b"] := by
  have hwell := Parts.fit_brackets.wellFormed
  obtain ⟨passages, r', hrun, hsame⟩ :=
    normalize_keeps_language (r := { grammar := Parts.brackets.grammar }) hwell
  exact ⟨hwell, passages, r', hrun, (hsame _).2 Parts.brackets_generates_pair⟩

end Normalization

end ContextFree
