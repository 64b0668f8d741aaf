import ContextFree.Proofs.Legible
import ContextFree.Proofs.Usefulness

/-! # Writing and reading after the conversion

The listing of the final grammar leaves doubts in three cases only, and all of them can be told
from the trimmed grammar: a terminal that stands beside another symbol holds an arrow or is named
like the empty marker, that symbol is the only right side of a head, or the start symbol derives
nothing and its name holds an arrow or begins like a declaration.
-/

namespace ContextFree

open Listing

namespace Grammar

variable {g g' g'' : Grammar} {X : Symbol}

/-- The right sides of a head are the same in both grammars, up to those of two or more symbols. -/
structure Reshapes (g' g : Grammar) (X : Symbol) : Prop where
  forth : ∀ old ∈ g.rightsOf X, ∃ right ∈ g'.rightsOf X,
    right = old ∨ 2 ≤ old.length ∧ 2 ≤ right.length
  back : ∀ right ∈ g'.rightsOf X, ∃ old ∈ g.rightsOf X,
    right = old ∨ 2 ≤ old.length ∧ 2 ≤ right.length

theorem Reshapes.trans (h : g'.Reshapes g X) (h' : g''.Reshapes g' X) : g''.Reshapes g X where
  forth old hold := by
    obtain ⟨right, hright, hshape⟩ := h.forth old hold
    obtain ⟨last, hlast, hshape'⟩ := h'.forth right hright
    refine ⟨last, hlast, ?_⟩
    rcases hshape with rfl | ⟨holdlong, hlong⟩
    · exact hshape'
    · rcases hshape' with rfl | ⟨-, hlastlong⟩
      · exact .inr ⟨holdlong, hlong⟩
      · exact .inr ⟨holdlong, hlastlong⟩
  back last hlast := by
    obtain ⟨right, hright, hshape'⟩ := h'.back last hlast
    obtain ⟨old, hold, hshape⟩ := h.back right hright
    refine ⟨old, hold, ?_⟩
    rcases hshape with rfl | ⟨holdlong, hlong⟩
    · exact hshape'
    · rcases hshape' with rfl | ⟨-, hlastlong⟩
      · exact .inr ⟨holdlong, hlong⟩
      · exact .inr ⟨holdlong, hlastlong⟩

/-- A short right side is the only one of a head in both grammars or in none. -/
theorem Reshapes.sole_iff (h : g'.Reshapes g X) {right : RightSide} (hshort : right.length < 2) :
    (∀ other, other ∈ g'.rightsOf X ↔ other = right) ↔
      ∀ other, other ∈ g.rightsOf X ↔ other = right := by
  constructor
  · intro hsole
    have hback {old : RightSide} (hold : old ∈ g.rightsOf X) : old = right := by
      obtain ⟨last, hlast, hshape⟩ := h.forth old hold
      rw [(hsole last).1 hlast] at hshape
      rcases hshape with heq | ⟨-, hlong⟩
      · exact heq.symm
      · omega
    obtain ⟨old, hold, -⟩ := h.back right ((hsole right).2 rfl)
    exact fun other => ⟨hback, fun heq => by rwa [heq, ← hback hold]⟩
  · intro hsole
    have hforth {last : RightSide} (hlast : last ∈ g'.rightsOf X) : last = right := by
      obtain ⟨old, hold, hshape⟩ := h.back last hlast
      rw [(hsole old).1 hold] at hshape
      rcases hshape with heq | ⟨hlong, -⟩
      · exact heq
      · omega
    obtain ⟨last, hlast, -⟩ := h.forth right ((hsole right).2 rfl)
    exact fun other => ⟨hforth, fun heq => by rwa [heq, ← hforth hlast]⟩

theorem Wraps.reshapes {s : NameSupply} {names : List Name} {wrappers : Wrappers}
    {glossary : Glossary} (hw : g.Wraps s names wrappers glossary) (hX : X ∈ g.productions) :
    (g.isolated wrappers glossary).Reshapes g X := by
  have hshape (old : RightSide) : RightSide.isolate wrappers old = old ∨
      2 ≤ old.length ∧ 2 ≤ (RightSide.isolate wrappers old).length := by
    rw [RightSide.length_isolate]
    by_cases hlong : 2 ≤ old.length
    · exact .inr ⟨hlong, hlong⟩
    · exact .inl (RightSide.isolate_eq_self (by omega))
  refine ⟨fun old hold => ?_, fun right hright => ?_⟩
  · exact ⟨_, hw.mem_rightsOf_isolated.2 (.inl ⟨old, hold, rfl⟩), hshape old⟩
  · rcases hw.mem_rightsOf_isolated.1 hright with ⟨old, hold, rfl⟩ | ⟨T, rfl, hT⟩
    · exact ⟨old, hold, hshape old⟩
    · exact absurd hX (hw.fresh.notMem_productions (List.mem_map.2 ⟨_, hT, rfl⟩))

theorem IsCutBy.reshapes {s : NameSupply} {cuts : Cuts} (h : g.IsCutBy s cuts)
    (hX : X ∈ g.productions) : (g.shortened cuts).Reshapes g X := by
  have hshape (c : Cut) : c.pair = c.right ∨ 2 ≤ c.right.length ∧ 2 ≤ c.pair.length := by
    rcases RightSide.split_fst_cases c.fits with hkept | ⟨hlong, htwo⟩
    · exact .inl hkept
    · exact .inr ⟨by omega, Nat.le_of_eq htwo.symm⟩
  refine ⟨fun old hold => ?_, fun right hright => ?_⟩
  · obtain ⟨cs, hcs, c, hc, rfl⟩ := h.mem_rightsOf_iff.1 hold
    exact ⟨c.pair, h.mem_rightsOf_shortened.2 (.inl ⟨cs, hcs, c, hc, rfl⟩), hshape c⟩
  · rcases h.mem_rightsOf_shortened.1 hright with ⟨cs, hcs, c, hc, rfl⟩ | ⟨N, rfl, hN⟩
    · exact ⟨c.right, h.mem_rightsOf_iff.2 ⟨cs, hcs, c, hc, rfl⟩, hshape c⟩
    · exact absurd hX (h.fresh.notMem_productions (Cuts.mem_names hN))

/-- Every head has a right side, or the grammar has one head only. -/
def Populated (g : Grammar) : Prop :=
  ∀ X ∈ g.productions, (∃ right, right ∈ g.rightsOf X) ∨ ∀ Y ∈ g.productions, Y = X

theorem Neat.populated (h : g.Neat) (hg : g.WellFormed) : g.Populated := by
  intro X hX
  rcases h with hhollow | huseful
  · exact .inr fun Y hY => ((hhollow.head_iff Y).1 hY).trans ((hhollow.head_iff X).1 hX).symm
  · obtain ⟨A, rfl⟩ := hg.exists_nonterminal hX
    obtain ⟨w, hw⟩ := (huseful A hX).productive
    obtain ⟨right, hright, -⟩ := derives_iff.1 hw
    exact .inl ⟨right, hright⟩

/-- The start symbol keeps its right sides of terminals. -/
theorem mem_rightsOf_trimmed (h : g.WellFormed) {right : RightSide}
    (hright : right ∈ g.rightsOf (.nonterminal g.start)) (hne : right ≠ [])
    (hterminals : ∀ B, .nonterminal B ∉ right) :
    right ∈ g.trimmed.rightsOf (.nonterminal g.start) := by
  have hunit : right.isUnit = false := by
    rw [← Bool.not_eq_true, RightSide.isUnit_iff]
    rintro ⟨B, rfl⟩
    exact hterminals B List.mem_cons_self
  have hepsilon : right ∈ g.withoutEpsilon.rightsOf (.nonterminal g.start) :=
    mem_rightsOf_withoutEpsilon.2 (.inl ⟨hne, right, hright, RightSide.mem_omissions_self⟩)
  have hunits : right ∈ g.withoutEpsilon.withoutUnits.rightsOf (.nonterminal g.start) :=
    (mem_rightsOf_withoutUnits h.withoutEpsilon).2
      ⟨h.withoutEpsilon.start_mem, _, .root, hepsilon, hunit, fun hnil => absurd hnil hne⟩
  have hreduced : right ∈ g.reduced.rightsOf (.nonterminal g.start) :=
    (mem_rightsOf_withoutUnreachable h.withoutEpsilon.withoutUnits).2 ⟨hunits, .root⟩
  have hproductive : right ∈ g.reduced.withoutUnproductive.rightsOf (.nonterminal g.start) :=
    mem_rightsOf_withoutUnproductive.2 ⟨hreduced, start_notMem_unproductive,
      fun B hB => absurd hB (hterminals B)⟩
  exact (mem_rightsOf_withoutUnreachable h.reduced.withoutUnproductive).2 ⟨hproductive, .root⟩

/-- What the last stage makes of the grammar can be written without a loss: no terminal that stands
beside another symbol holds an arrow or is the empty marker, the empty marker is not the only right
side of a head, and a start symbol without right sides has a name that can begin a rule. -/
structure Lossless (g : Grammar) : Prop where
  mixed : ∀ a ∈ g.mixedTerminals, a ≠ emptyMarker ∧ ¬"->".toList <:+: a.toList ∧ '→' ∉ a.toList
  sole : ∀ X, ¬∀ right, right ∈ g.rightsOf X ↔ right = [.terminal emptyMarker]
  start : (∀ right, right ∉ g.rightsOf (.nonterminal g.start)) → ¬IsComment g.start → Plain g.start

end Grammar

namespace Normalization

open Grammar

namespace Course

variable {g : Grammar} (c : Course g) (h : g.WellFormed)
include h

theorem legible_final (hg : g.Legible) : c.final.Legible := by
  have htrimmed := (drawsOn_trimmed h).legible hg fun A hA => nomatch hA
  have hisolated : c.isolated.Legible := by
    refine c.wraps.drawsOn.legible htrimmed fun T hT => ?_
    obtain ⟨a, ha, -, i, rfl⟩ := c.wraps.exists_mixed hT
    exact htrimmed.handy_wrapper h.trimmed ha i
  refine c.cut.drawsOn.legible hisolated fun N hN => ?_
  obtain ⟨i, rfl⟩ := c.cut.series N hN
  exact handy_chainSeries i

omit h in
theorem mem_productions_isolated {X : Symbol} : X ∈ c.isolated.productions ↔
    X ∈ g.trimmed.productions ∨ ∃ T ∈ c.glossary.map Prod.fst, X = .nonterminal T :=
  Grammar.mem_productions_isolated

omit h in
theorem mem_productions_final {X : Symbol} : X ∈ c.final.productions ↔
    X ∈ c.isolated.productions ∨ ∃ N ∈ c.cuts.names, X = .nonterminal N :=
  c.cut.mem_productions_shortened.trans mem_productions_reserve

omit h in
/-- The old heads have the right sides that they had, up to those of two or more symbols. -/
theorem reshapes_final {X : Symbol} (hX : X ∈ g.trimmed.productions) :
    c.final.Reshapes g.trimmed X :=
  (c.wraps.reshapes hX).trans (c.cut.reshapes (c.mem_productions_isolated.2 (.inl hX)))

omit h in
/-- Each terminal that stands beside another symbol is the only right side of a minted
nonterminal. -/
theorem exists_wrapper {a : Name} (ha : a ∈ g.trimmed.mixedTerminals) :
    ∃ i, .nonterminal (({} : NameSupply).wrapperSeries a i) ∈ c.final.productions ∧
      ∀ right, right ∈ c.final.rightsOf (.nonterminal (({} : NameSupply).wrapperSeries a i)) ↔
        right = [.terminal a] := by
  obtain ⟨T, hwrapper⟩ := Option.ne_none_iff_exists'.1
    (c.wraps.covers a (Std.ExtTreeSet.mem_toList.2 ha))
  have hT := c.wraps.mem a T hwrapper
  have hname : T ∈ c.glossary.map Prod.fst := List.mem_map.2 ⟨_, hT, rfl⟩
  obtain ⟨b, -, heq, i, hseries⟩ := c.wraps.form_eq T _ hT
  cases heq
  have hisolated := c.mem_productions_isolated.2 (.inr ⟨T, hname, rfl⟩)
  have hsole (right : RightSide) :
      right ∈ c.isolated.rightsOf (.nonterminal T) ↔ right = [.terminal a] := by
    refine ⟨fun hright => ?_, fun heq => ?_⟩
    · rcases c.wraps.mem_rightsOf_isolated.1 hright with ⟨old, hold, -⟩ | ⟨T', heq, hT'⟩
      · exact absurd (mem_productions_of_mem_rightsOf hold)
          (c.wraps.fresh.notMem_productions hname)
      · cases heq
        exact eq_of_mem_of_nodup c.wraps.fresh.nodup hT' hT
    · exact c.wraps.mem_rightsOf_isolated.2 (.inr ⟨T, rfl, heq ▸ hT⟩)
  exact ⟨i, hseries ▸ c.mem_productions_final.2 (.inl hisolated),
    hseries ▸ ((c.cut.reshapes hisolated).sole_iff (by simp)).2 hsole⟩

/-- Heads of the final grammar are old ones, or they stand for terminals or for links. -/
theorem plain_head (hl : g.trimmed.Lossless)
    (hplain : ∀ A, ∀ right ∈ g.trimmed.rightsOf (.nonterminal A), Plain A) {A : Name}
    (hA : .nonterminal A ∈ c.final.productions) (hcomment : ¬IsComment A) : Plain A := by
  rcases c.mem_productions_final.1 hA with hA | ⟨N, hN, heq⟩
  · rcases c.mem_productions_isolated.1 hA with hA | ⟨T, hT, heq⟩
    · by_cases hrights : ∃ right, right ∈ g.trimmed.rightsOf (.nonterminal A)
      · obtain ⟨right, hright⟩ := hrights
        exact hplain A right hright
      -- Without right sides, it is the only head there is, and so the start symbol.
      · have hpopulated := (neat_trimmed h).populated h.trimmed
        have halone := (hpopulated _ hA).resolve_left hrights
        cases halone _ h.trimmed.start_mem
        exact hl.start (fun right hright => hrights ⟨right, hright⟩) hcomment
    · cases heq
      obtain ⟨a, ha, -, i, rfl⟩ := c.wraps.exists_mixed hT
      exact plain_wrapperSeries_iff.2 (hl.mixed a ha).2
  · cases heq
    obtain ⟨i, rfl⟩ := c.cut.series _ hN
    exact plain_chainSeries i

/-- A head whose only right side is the empty marker has it already in the trimmed grammar, or it
stands for the empty marker. -/
theorem marker_head (hl : g.trimmed.Lossless) (X : Symbol) :
    (c.final.rightsOf X).toList.map (List.map Symbol.name) ≠ [[emptyMarker]] := by
  intro hlist
  obtain ⟨Y, hY, hsole⟩ := exists_sole hlist
  have hmem : [Y] ∈ c.final.rightsOf X := (hsole _).2 rfl
  obtain rfl : Y = .terminal emptyMarker := by
    rcases c.inNormalForm_final h X _ hmem with ⟨a, heq⟩ | ⟨B, C, heq⟩ | ⟨heq, -⟩
    · cases heq
      rw [← hY]
      rfl
    · cases heq
    · cases heq
  have hisolated := c.cut.mem_rightsOf_of_length_lt hmem (by simp)
  rcases c.wraps.mem_rightsOf_isolated.1 hisolated with ⟨old, hold, -⟩ | ⟨T, -, hT⟩
  · have hX := mem_productions_of_mem_rightsOf hold
    exact hl.sole X (((c.reshapes_final hX).sole_iff (by simp)).1 hsole)
  · obtain ⟨a, ha, heq, -⟩ := c.wraps.form_eq T _ hT
    cases heq
    exact (hl.mixed _ (Std.ExtTreeSet.mem_toList.1 ha)).1 rfl

/-- The listing of the final grammar leaves doubts exactly in the cases that can be told from the
trimmed grammar. -/
theorem rereadable_final_iff (hg : g.Legible)
    (hplain : ∀ A, ∀ right ∈ g.rightsOf (.nonterminal A), Plain A) :
    c.final.Rereadable ↔ g.trimmed.Lossless := by
  have hdraws := drawsOn_trimmed h
  constructor
  · intro hr
    -- Each clause shows at a head of the result: a wrapper, the head itself, the start symbol.
    refine ⟨fun a ha => ?_, fun X hsole => ?_, fun _ hcomment => ?_⟩
    · obtain ⟨i, hT, hsole⟩ := c.exists_wrapper ha
      have hhandy := ((hdraws.legible hg fun A hA => nomatch hA).handy_wrapper h.trimmed ha i)
      refine ⟨?_, plain_wrapperSeries_iff.1 (hr.plain _ hT hhandy.comment)⟩
      rintro rfl
      refine hr.marker (.nonterminal (({} : NameSupply).wrapperSeries emptyMarker i)) ?_
      rw [toList_eq_singleton_iff.2 hsole]
      rfl
    · have hX := mem_productions_of_mem_rightsOf ((hsole _).2 rfl)
      have hlist := toList_eq_singleton_iff.2 (((c.reshapes_final hX).sole_iff (by simp)).2 hsole)
      refine hr.marker X ?_
      rw [hlist]
      rfl
    · have hstart := c.mem_productions_isolated.2 (.inl h.trimmed.start_mem)
      exact hr.plain _ (c.mem_productions_final.2 (.inl hstart)) hcomment
  · intro hl
    have hkept (A : Name) (right : RightSide)
        (hright : right ∈ g.trimmed.rightsOf (.nonterminal A)) : Plain A := by
      rcases hdraws.rights A right hright with ⟨old, hold⟩ | hA
      · exact hplain A old hold
      · cases hA
    exact ⟨fun A => c.plain_head h hl hkept, (c.legible_final h hg).comment, c.marker_head h hl⟩

/-- The final grammar is read as it was written exactly if nothing is lost. -/
theorem read_write_final (hg : g.Legible)
    (hplain : ∀ A, ∀ right ∈ g.rightsOf (.nonterminal A), Plain A) :
    read (write c.final) none = .ok c.final ↔ g.trimmed.Lossless := by
  rw [← c.rereadable_final_iff h hg hplain]
  exact read_write_iff (c.legible_final h hg).toListable (c.wellFormed_final h)
    ((c.neat_final h).populated (c.wellFormed_final h))

end Course

/-- What is written of a result is read back exactly if the fourth stage left a lossless grammar. -/
def Rereads (passages : List Passage) (g' : Grammar) : Prop :=
  ∃ p ∈ passages, p.stage = .productivity ∧ (read (write g') none = .ok g' ↔ p.grammar.Lossless)

theorem Course.grammar_of_mem {g : Grammar} (c : Course g) {p : Passage} (hp : p ∈ c.passages)
    (hstage : p.stage = .productivity) : p.grammar = g.trimmed := by
  simp only [passages, List.mem_cons, List.not_mem_nil, or_false] at hp
  rcases hp with rfl | rfl | rfl | rfl | rfl
  · cases hstage
  · cases hstage
  · cases hstage
  · rfl
  · cases hstage

theorem Course.rereads {g : Grammar} (c : Course g) (h : g.WellFormed) (hg : g.Legible)
    (hplain : ∀ A, ∀ right ∈ g.rightsOf (.nonterminal A), Plain A) :
    Rereads c.passages c.final := by
  obtain ⟨p, hp, hstage⟩ : ∃ p ∈ c.passages, p.stage = .productivity := by
    simpa [← c.map_stage] using (by decide : Stage.productivity ∈ Stage.all)
  refine ⟨p, hp, hstage, ?_⟩
  rw [c.grammar_of_mem hp hstage]
  exact c.read_write_final h hg hplain

theorem Rereads.read_write_iff {g g' : Grammar} {passages : List Passage}
    {added added' : List Symbol}
    (hr : Rereads passages g') (h : g.WellFormed)
    (hrun : normalize.run ⟨g, added⟩ = .ok passages ⟨g', added'⟩) :
    read (write g') none = .ok g' ↔ g.trimmed.Lossless := by
  obtain ⟨c, hturns⟩ := turns_normalize h
  obtain ⟨added'', hrun'⟩ := hturns added
  rw [hrun'] at hrun
  cases hrun
  obtain ⟨p, hp, hstage, hiff⟩ := hr
  rwa [c.grammar_of_mem hp hstage] at hiff

end Normalization

end ContextFree
