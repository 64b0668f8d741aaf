import ContextFree.Proofs.Normalization

/-! # Operations in any order

The transformations of a grammar do not depend on the order of the conversion. In whatever order
and however often they are applied, with whatever names for new nonterminals, each of them succeeds
and leaves a well-formed grammar with the same start symbol and the same terminals.
-/

namespace ContextFree

namespace Grammar

variable {g g' g'' : Grammar} {s : NameSupply}

/-- The grammar `g'` is well-formed, and it has the start symbol and the terminals of `g`. -/
structure Continues (g' g : Grammar) : Prop where
  wellFormed : g'.WellFormed
  start_eq : g'.start = g.start
  terminals_eq : g'.terminals = g.terminals

theorem Continues.refl (h : g.WellFormed) : g.Continues g :=
  ⟨h, rfl, rfl⟩

theorem Continues.trans (h : g'.Continues g) (h' : g''.Continues g') : g''.Continues g :=
  ⟨h'.wellFormed, h'.start_eq.trans h.start_eq, h'.terminals_eq.trans h.terminals_eq⟩

theorem continues_withoutEpsilon (h : g.WellFormed) : g.withoutEpsilon.Continues g :=
  ⟨h.withoutEpsilon, start_withoutEpsilon, terminals_withoutEpsilon⟩

theorem continues_withoutUnits (h : g.WellFormed) : g.withoutUnits.Continues g :=
  ⟨h.withoutUnits, start_withoutUnits, terminals_withoutUnits⟩

theorem continues_withoutUnreachable (h : g.WellFormed) : g.withoutUnreachable.Continues g :=
  ⟨h.withoutUnreachable, start_withoutUnreachable, terminals_withoutUnreachable⟩

theorem continues_withoutUnproductive (h : g.WellFormed) : g.withoutUnproductive.Continues g :=
  ⟨h.withoutUnproductive, start_withoutUnproductive, terminals_withoutUnproductive⟩

/-- Both steps of the fourth stage. -/
theorem continues_removals (h : g.WellFormed) :
    g.withoutUnproductive.withoutUnreachable.Continues g :=
  (continues_withoutUnproductive h).trans (continues_withoutUnreachable h.withoutUnproductive)

theorem continues_trimmed (h : g.WellFormed) : g.trimmed.Continues g := by
  have hepsilon := continues_withoutEpsilon h
  have hunits := continues_withoutUnits h.withoutEpsilon
  have hreachable := continues_withoutUnreachable h.withoutEpsilon.withoutUnits
  exact ((hepsilon.trans hunits).trans hreachable).trans (continues_removals h.reduced)

theorem Wraps.continues {names : List Name} {wrappers : Wrappers} {glossary : Glossary}
    (hw : g.Wraps s names wrappers glossary) (h : g.WellFormed) :
    (g.isolated wrappers glossary).Continues g :=
  ⟨hw.wellFormed_isolated h, start_isolated, terminals_isolated⟩

theorem IsCutBy.continues {cuts : Cuts} (hc : g.IsCutBy s cuts) (h : g.WellFormed) :
    (g.shortened cuts).Continues g :=
  ⟨hc.wellFormed_shortened h, start_shortened, terminals_shortened⟩

end Grammar

namespace Normalization

open Grammar

/-- A transformation that a grammar may undergo. Those that mint nonterminals take a supply of
names in any state, so one that served before may go on to serve. -/
inductive Operation where
  | removeEpsilonRules
  | removeUnaryRules
  | removeUnreachable
  | removeUnproductive
  | isolateTerminals (supply : NameSupply)
  | shortenRules (supply : NameSupply)
  | binarize
  | stage (step : Stage)
  | normalize

namespace Operation

/-- Applies an operation. -/
def run : Operation → Transform Unit
  | removeEpsilonRules => discard Transform.removeEpsilonRules
  | removeUnaryRules => discard Transform.removeUnaryRules
  | removeUnreachable => discard Transform.removeUnreachable
  | removeUnproductive => discard Transform.removeUnproductive
  | isolateTerminals supply => discard (Minting.withSupply supply Minting.isolateTerminals)
  | shortenRules supply => discard (Minting.withSupply supply Minting.shortenRules)
  | binarize => discard Transform.binarize
  | stage step => discard step.run
  | normalize => discard Normalization.normalize

/-- Applies operations one after the other. Gives the grammar after each of them. -/
def trace (ops : List Operation) : Transform (List Grammar) :=
  ops.mapM fun op => do
    op.run
    Transform.current

end Operation

/-- A transformation succeeds and leaves a grammar that continues the given one. -/
def Sound {α : Type} (t : Transform α) (g : Grammar) : Prop :=
  ∃ value g', t.Turns g value g' ∧ g'.Continues g

section Sound

variable {g : Grammar} {α : Type} {t : Transform α}

/-- It does not matter whether the value is used. -/
theorem Sound.discard (h : Sound t g) : Sound (discard t) g := by
  obtain ⟨value, g', hturns, hcontinues⟩ := h
  refine ⟨(), g', fun added => ?_, hcontinues⟩
  obtain ⟨added', hrun⟩ := hturns added
  refine ⟨added', ?_⟩
  change (EStateM.map _ t) ⟨g, added⟩ = _
  rw [EStateM.map]
  rw [EStateM.run] at hrun
  rw [hrun]

variable (h : g.WellFormed) (supply : NameSupply)
include h

theorem sound_isolateTerminals :
    Sound (Minting.withSupply supply Minting.isolateTerminals) g := by
  obtain ⟨wrappers, glossary, hw, hturns⟩ := Minting.turns_isolateTerminals (s := supply) h
  exact ⟨_, _, Minting.turns_withSupply hturns, hw.continues h⟩

theorem sound_shortenRules : Sound (Minting.withSupply supply Minting.shortenRules) g := by
  obtain ⟨cuts, counter, hc, hturns⟩ := Minting.turns_shortenRules (s := supply) h
  exact ⟨_, _, Minting.turns_withSupply hturns, hc.continues h⟩

omit supply

theorem sound_binarize : Sound Transform.binarize g := by
  obtain ⟨wrappers, glossary, cuts, hw, hc, hturns⟩ := Transform.turns_binarize h
  exact ⟨_, _, hturns, (hw.continues h).trans (hc.continues (hw.wellFormed_isolated h))⟩

theorem sound_stage (stage : Stage) : Sound stage.run g := by
  cases stage with
  | epsilon => exact ⟨_, _, turns_epsilon h, continues_withoutEpsilon h⟩
  | unit => exact ⟨_, _, turns_unit h, continues_withoutUnits h⟩
  | reachability => exact ⟨_, _, turns_reachability h, continues_withoutUnreachable h⟩
  | productivity => exact ⟨_, _, turns_productivity h, continues_removals h⟩
  | binarization =>
    obtain ⟨wrappers, glossary, cuts, hw, hc, hturns⟩ := turns_binarization h
    exact ⟨_, _, hturns, (hw.continues h).trans (hc.continues (hw.wellFormed_isolated h))⟩

theorem sound_normalize : Sound normalize g := by
  obtain ⟨c, hturns⟩ := turns_normalize h
  have hisolated := c.wraps.continues h.trimmed
  exact ⟨_, _, hturns, ((continues_trimmed h).trans hisolated).trans
    (c.cut.continues (c.wellFormed_isolated h))⟩

theorem sound_run (op : Operation) : Sound op.run g := by
  cases op with
  | removeEpsilonRules =>
    exact Sound.discard ⟨_, _, Transform.turns_removeEpsilonRules h, continues_withoutEpsilon h⟩
  | removeUnaryRules =>
    exact Sound.discard ⟨_, _, Transform.turns_removeUnaryRules h, continues_withoutUnits h⟩
  | removeUnreachable =>
    exact Sound.discard
      ⟨_, _, Transform.turns_removeUnreachable h, continues_withoutUnreachable h⟩
  | removeUnproductive =>
    exact Sound.discard
      ⟨_, _, Transform.turns_removeUnproductive h, continues_withoutUnproductive h⟩
  | isolateTerminals supply => exact (sound_isolateTerminals h supply).discard
  | shortenRules supply => exact (sound_shortenRules h supply).discard
  | binarize => exact (sound_binarize h).discard
  | stage step => exact (sound_stage h step).discard
  | normalize => exact (sound_normalize h).discard

omit h in
/-- Operations can follow each other for as long as one likes. -/
theorem turns_trace (h : g.WellFormed) (ops : List Operation) :
    ∃ gs g', (Operation.trace ops).Turns g gs g' ∧ gs.length = ops.length ∧
      ∀ k ∈ gs ++ [g'], k.Continues g := by
  induction ops generalizing g with
  | nil => exact ⟨[], g, Transform.Turns.pure, rfl, by simpa using Continues.refl h⟩
  | cons op ops ih =>
    obtain ⟨_, k, hop, hk⟩ := sound_run h op
    obtain ⟨gs, g', hops, hlength, hall⟩ := ih hk.wellFormed
    refine ⟨k :: gs, g', ?_, by rw [List.length_cons, hlength, List.length_cons], ?_⟩
    · rw [Operation.trace, List.mapM_cons]
      exact (hop.bind Transform.turns_current).bind (hops.bind Transform.Turns.pure)
    · exact List.forall_mem_cons.2 ⟨hk, fun l hl => hk.trans (hall l hl)⟩

end Sound

/-- Any operations, in any order and with repetitions, succeed one after the other; after each of
them the grammar is well-formed, and the start symbol and the terminals are those of the beginning. -/
theorem trace_continues {r : Revision} (h : r.grammar.WellFormed) (ops : List Operation) :
    ∃ gs r', (Operation.trace ops).run r = .ok gs r' ∧ gs.length = ops.length ∧
      ∀ g ∈ gs ++ [r'.grammar], g.WellFormed ∧ g.start = r.grammar.start ∧
        g.terminals = r.grammar.terminals := by
  obtain ⟨gs, g', hturns, hlength, hall⟩ := turns_trace h ops
  obtain ⟨added, hrun⟩ := hturns r.added
  refine ⟨gs, ⟨g', added⟩, hrun, hlength, fun g hg => ?_⟩
  obtain ⟨hwell, hstart, hterminals⟩ := hall g hg
  exact ⟨hwell, hstart, hterminals⟩

/-- The brackets go through operations out of order, with names that collide at first. -/
theorem trace_brackets : Parts.brackets.grammar.WellFormed ∧
    ∃ gs r', (Operation.trace [.shortenRules { chainPrefix := "" }, .removeUnproductive, .normalize,
        .isolateTerminals { terminalPrefix := "", counter := 7 }, .binarize,
        .stage .epsilon]).run { grammar := Parts.brackets.grammar } = .ok gs r' ∧ gs.length = 6 ∧
      ∀ g ∈ gs ++ [r'.grammar], g.WellFormed ∧ g.start = "S" ∧ g.terminals = .of ["a", "b"] := by
  have hwell := Parts.fit_brackets.wellFormed
  obtain ⟨gs, r', hrun, hlength, hall⟩ :=
    trace_continues (r := { grammar := Parts.brackets.grammar }) hwell
      [.shortenRules { chainPrefix := "" }, .removeUnproductive, .normalize,
        .isolateTerminals { terminalPrefix := "", counter := 7 }, .binarize, .stage .epsilon]
  refine ⟨hwell, gs, r', hrun, hlength, fun g hg => ?_⟩
  obtain ⟨hg, hstart, hterminals⟩ := hall g hg
  exact ⟨hg, hstart.trans Parts.start_grammar, hterminals.trans Parts.terminals_grammar⟩

end Normalization

end ContextFree
