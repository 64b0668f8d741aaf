import ContextFree.Proofs.Copying
import Mathlib.Data.List.Induction

/-! # Histories of edits

A grammar may go through any sequence of calls, some of which fail: nonterminals are added or
minted, right sides are replaced, and symbols are removed. A removal leaves mentions of what it
removed behind, and a later addition may revive them. What a single call can do is said once;
what holds after a whole history follows by induction on its length.
-/

namespace ContextFree

/-- A call that edits a grammar. A name is minted from a supply in any state. -/
inductive Call where
  | add (A : Name)
  | set (left : Symbol) (rights : List RightSide)
  | remove (symbols : SymbolSet)
  | wrapper (supply : NameSupply) (terminal : String)
  | link (supply : NameSupply)

namespace Call

/-- The call as a transformation. -/
def transform : Call → Transform Unit
  | add A => Transform.edit fun g => g.addSymbol (.tagged (.nonterminal A))
  | set left rights => Transform.edit fun g =>
      g.setRights (.tagged left) (rights.map fun right => right.map .tagged)
  | remove symbols => Transform.remove symbols
  | wrapper supply terminal => discard (Minting.withSupply supply (Minting.wrapper terminal))
  | link supply => discard (Minting.withSupply supply Minting.chain)

/-- The edit that the call makes. -/
def edit (g : Grammar) : Call → Except Fault Grammar
  | add A => g.addHead (.nonterminal A)
  | set left rights =>
      g.setRights (.tagged left) (rights.map fun right => right.map .tagged)
  | remove symbols => g.removeHeads symbols
  | wrapper supply terminal => g.addHead (.nonterminal (supply.wrapperName g terminal))
  | link supply => g.addHead (.nonterminal (supply.chainSeries (supply.nextChain g)))

/-- The call on a ledger. -/
def work : Call → Ledger.Work Unit
  | add A => Ledger.addNonterminal A
  | set left rights => Ledger.setProductions left rights
  | remove symbols => Ledger.removeNonterminals symbols
  | wrapper supply terminal => Ledger.mint (supply.wrapperSeries terminal) 0
  | link supply => Ledger.mint supply.chainSeries (supply.counter + 1)

variable {c : Call} {g g' : Grammar} {r : Revision}

/-- A minting that only registers a name is the addition of a head. -/
theorem discard_withSupply {supply : NameSupply} {m : Minting Name} {name : Grammar → Name}
    (hm : ∀ r : Revision, ∃ s, m.run ⟨r, supply⟩ = (Minting.register (name r.grammar)).run ⟨r, s⟩) :
    discard (Minting.withSupply supply m) =
      Transform.edit fun g => g.addHead (.nonterminal (name g)) := by
  funext r
  obtain ⟨s, hs⟩ := hm r
  change EStateM.map _ (Minting.withSupply supply m) r = _
  simp only [EStateM.map, Minting.withSupply, hs, Minting.register, EStateM.run_bind]
  simp only [Minting.transform, Transform.edit, EStateM.run]
  cases r.grammar.addHead (.nonterminal (name r.grammar)) <;> rfl

theorem transform_eq (c : Call) : c.transform = Transform.edit fun g => c.edit g := by
  cases c with
  | add A => rfl
  | set left rights => rfl
  | remove symbols => rfl
  | wrapper supply terminal => exact discard_withSupply fun r => ⟨supply, rfl⟩
  | link supply => exact discard_withSupply fun r => ⟨_, rfl⟩

theorem follows (c : Call) : Ledger.Follows c.work fun g => c.edit g := by
  cases c with
  | add A => exact Ledger.follows_addNonterminal
  | set left rights => exact Ledger.follows_setProductions
  | remove symbols => exact Ledger.follows_removeNonterminals
  | wrapper supply terminal => exact Ledger.follows_mint
  | link supply => exact Ledger.follows_mint

/-- A call that fails leaves the revision as it was. -/
theorem perform_transform (c : Call) (r : Revision) :
    c.transform.perform r = match c.edit r.grammar with
      | .ok g => (.ok (), r.update g)
      | .error fault => (.error fault, r) := by
  rw [transform_eq]
  simp only [Transform.perform, Transform.edit, EStateM.run]
  cases c.edit r.grammar <;> rfl

/-- What a call that succeeds does to the grammar. -/
inductive Changes (g : Grammar) : Call → Grammar → Prop where
  | grow {c A} (hfree : g.uses A = false) : Changes g c (g.extend [(A, ∅)])
  | give {c X} {rights : List RightSide} (hX : X ∈ g.productions)
      (hknown : ∀ right ∈ rights, ∀ Y ∈ right, g.has Y = true) :
      Changes g c { g with productions := g.productions.insert X (.ofList rights) }
  | drop {symbols} (hstart : .nonterminal g.start ∉ symbols) :
      Changes g (remove symbols) (g.without symbols)

theorem changes_of_addHead {A : Name} (h : g.addHead (.nonterminal A) = .ok g') :
    Changes g c g' := by
  rw [Grammar.addHead_nonterminal] at h
  cases hA : g.uses A with
  | true => simp [hA] at h
  | false =>
    obtain rfl : g.extend [(A, ∅)] = g' := by simpa [hA, Grammar.extend] using h
    exact .grow hA

/-- A call that succeeds adds a nonterminal, gives a head right sides of known symbols, or
removes heads other than the start symbol. -/
theorem changes_of_edit_eq_ok (h : c.edit g = .ok g') : Changes g c g' := by
  cases c with
  | add A => exact changes_of_addHead h
  | wrapper supply terminal => exact changes_of_addHead h
  | link supply => exact changes_of_addHead h
  | set left rights =>
    rw [edit, Grammar.setRights] at h
    cases hleft : g.resolveLeft (.tagged left) with
    | none => simp [hleft] at h
    | some X =>
      obtain ⟨heq, hX⟩ := Grammar.resolveLeft_eq_some.1 hleft
      cases heq
      simp only [hleft, bind_eq_ok, mapM_eq_ok_iff fun _ _ => Grammar.resolveRight_eq_ok] at h
      obtain ⟨sides, ⟨-, hknown⟩, hg'⟩ := h
      cases hg'
      exact .give hX hknown
  | remove symbols =>
    rw [edit, Grammar.removeHeads] at h
    split at h
    · cases h
    next hstart =>
      cases h
      exact .drop hstart

end Call

namespace Grammar.Dangles

variable {g : Grammar} {Y : Symbol}

theorem of_extend {A : Name} (hfree : g.uses A = false) (h : (g.extend [(A, ∅)]).Dangles Y) :
    g.Dangles Y := by
  obtain ⟨⟨X, right, hright, hmem⟩, hunknown⟩ := h
  rw [← Bool.not_eq_true, has_extend, not_or] at hunknown
  rcases (mem_rightsOf_extend (fresh_singleton.2 hfree)).1 hright with
    hright | ⟨B, rights, -, hB, hright⟩
  · exact ⟨⟨X, right, hright, hmem⟩, by simpa using hunknown.1⟩
  · obtain ⟨-, rfl⟩ : _ ∧ rights = ∅ := by simpa using hB
    cases Std.ExtTreeSet.not_mem_empty hright

theorem of_insert {X' : Symbol} {rights : List RightSide} (hX : X' ∈ g.productions)
    (hknown : ∀ right ∈ rights, ∀ Y ∈ right, g.has Y = true)
    (h : Dangles { g with productions := g.productions.insert X' (.ofList rights) } Y) :
    g.Dangles Y := by
  obtain ⟨⟨X, right, hright, hmem⟩, hunknown⟩ := h
  rw [has_insert hX] at hunknown
  by_cases heq : X' = X
  · subst heq
    rw [rightsOf_eq Std.ExtTreeMap.getElem?_insert_self, Std.ExtTreeSet.mem_ofList] at hright
    have hhas := hknown right (by simpa using hright) Y hmem
    rw [hhas] at hunknown
    cases hunknown
  · refine ⟨⟨X, right, ?_, hmem⟩, hunknown⟩
    rw [mem_rightsOf] at hright ⊢
    have hne : compare X' X ≠ .eq := fun h => heq (Std.LawfulEqOrd.eq_of_compare h)
    simpa [Std.ExtTreeMap.getElem?_insert, hne] using hright

theorem of_without {symbols : SymbolSet} (h : (g.without symbols).Dangles Y) :
    g.Dangles Y ∨ Y ∈ symbols ∧ Y ∈ g.productions ∧ Y ∉ (g.without symbols).productions := by
  obtain ⟨⟨X, right, hright, hmem⟩, hunknown⟩ := h
  have hright' := (mem_rightsOf_without.1 hright).1
  cases hhas : g.has Y with
  | false => exact .inl ⟨⟨X, right, hright', hmem⟩, hhas⟩
  | true =>
    -- The terminals are the same, so what is not known any more was a head.
    rw [← Bool.not_eq_true, has_iff, not_or] at hunknown
    have hhead : Y ∈ g.productions := (has_iff.1 hhas).resolve_right hunknown.2
    have hgone : Y ∈ symbols := by
      by_contra hkept
      exact hunknown.1 (mem_productions_without.2 ⟨hhead, hkept⟩)
    exact .inr ⟨hgone, hhead, hunknown.1⟩

end Grammar.Dangles

namespace Call

variable {c : Call} {g g' : Grammar}

/-- A call that succeeds keeps the grammar in order, with its start symbol and its terminals. -/
theorem Changes.orderly (h : Changes g c g') (hg : g.Orderly) :
    g'.Orderly ∧ g'.start = g.start ∧ g'.terminals = g.terminals := by
  cases h with
  | grow hfree =>
    refine ⟨⟨Grammar.mem_productions_extend.2 (.inl hg.start_mem), fun X hX => ?_, fun B hB => ?_⟩,
      rfl, rfl⟩
    · rcases Grammar.mem_productions_extend.1 hX with hX | ⟨A, -, rfl⟩
      · exact hg.heads_nonterminal X hX
      · rfl
    · rcases Grammar.mem_productions_extend.1 hB with hB | ⟨A, hA, heq⟩
      · exact hg.disjoint B hB
      · cases heq
        obtain rfl : B = _ := List.mem_singleton.1 hA
        exact (Grammar.uses_eq_false.1 hfree).2
  | give hX hknown =>
    refine ⟨hg.of_heads rfl rfl fun Y => ?_, rfl, rfl⟩
    rw [Std.ExtTreeMap.mem_insert, Std.LawfulEqOrd.compare_eq_iff_eq]
    exact or_iff_right_of_imp fun heq => heq ▸ hX
  | drop hstart =>
    refine ⟨⟨Grammar.mem_productions_without.2 ⟨hg.start_mem, hstart⟩, fun X hX => ?_,
      fun A hA => ?_⟩, rfl, rfl⟩
    · exact hg.heads_nonterminal X (Grammar.mem_productions_without.1 hX).1
    · exact hg.disjoint A (Grammar.mem_productions_without.1 hA).1

/-- A symbol that dangles after a call did so before, or it was a head that the call removed. -/
theorem Changes.dangles (h : Changes g c g') {Y : Symbol} (hY : g'.Dangles Y) :
    g.Dangles Y ∨ ∃ symbols, c = remove symbols ∧ Y ∈ symbols ∧ Y ∈ g.productions ∧
      Y ∉ g'.productions := by
  cases h with
  | grow hfree => exact .inl (hY.of_extend hfree)
  | give hX hknown => exact .inl (hY.of_insert hX hknown)
  | @drop symbols hstart =>
    exact hY.of_without.imp_right fun ⟨hmem, hhead, hgone⟩ => ⟨symbols, rfl, hmem, hhead, hgone⟩

end Call

/-- The revision after a history of calls; a call that fails is passed over. -/
def Revision.after (r : Revision) (calls : List Call) : Revision :=
  calls.foldl (fun r c => (c.transform.perform r).2) r

/-- The ledger after a history of calls, whether they fail or not. -/
def Ledger.after (l : Ledger) (calls : List Call) : Ledger :=
  calls.foldl (fun l c => l.left c.work) l

namespace Revision

variable {r : Revision} {calls : List Call}

theorem after_concat (c : Call) :
    r.after (calls ++ [c]) = (c.transform.perform (r.after calls)).2 := by
  rw [after, List.foldl_append]
  rfl

/-- A call changes the grammar as far as it succeeds. -/
theorem grammar_after_concat (c : Call) :
    (∃ fault, c.edit (r.after calls).grammar = .error fault ∧
      r.after (calls ++ [c]) = r.after calls) ∨
    c.Changes (r.after calls).grammar (r.after (calls ++ [c])).grammar := by
  rw [after_concat, Call.perform_transform]
  cases h : c.edit (r.after calls).grammar with
  | error fault => exact .inl ⟨fault, rfl, rfl⟩
  | ok g => exact .inr (Call.changes_of_edit_eq_ok h)

/-- A grammar stays in order through any history, with its start symbol and its terminals. -/
theorem orderly_after (h : r.grammar.Orderly) (calls : List Call) :
    (r.after calls).grammar.Orderly ∧ (r.after calls).grammar.start = r.grammar.start ∧
      (r.after calls).grammar.terminals = r.grammar.terminals := by
  induction calls using List.reverseRec with
  | nil => exact ⟨h, rfl, rfl⟩
  | append_singleton calls c ih =>
    obtain ⟨horderly, hstart, hterminals⟩ := ih
    rcases grammar_after_concat c with ⟨fault, -, heq⟩ | hchanges
    · rw [heq]
      exact ⟨horderly, hstart, hterminals⟩
    · obtain ⟨horderly', hstart', hterminals'⟩ := hchanges.orderly horderly
      exact ⟨horderly', hstart'.trans hstart, hterminals'.trans hterminals⟩

/-- What dangles after a history was a head until a call removed it. -/
theorem exists_removal (h : r.grammar.WellFormed) {calls : List Call} {Y : Symbol}
    (hY : (r.after calls).grammar.Dangles Y) :
    ∃ before symbols later, calls = before ++ .remove symbols :: later ∧ Y ∈ symbols ∧
      Y ∈ (r.after before).grammar.productions ∧
      Y ∉ (r.after (before ++ [.remove symbols])).grammar.productions := by
  induction calls using List.reverseRec with
  | nil =>
    obtain ⟨⟨X, right, hright, hmem⟩, hunknown⟩ := hY
    rw [after, List.foldl_nil, h.closed X right hright Y hmem] at hunknown
    cases hunknown
  | append_singleton calls c ih =>
    -- What dangled before has its removal in the history so far.
    have hearlier (hY : (r.after calls).grammar.Dangles Y) :
        ∃ before symbols later, calls ++ [c] = before ++ .remove symbols :: later ∧ Y ∈ symbols ∧
          Y ∈ (r.after before).grammar.productions ∧
          Y ∉ (r.after (before ++ [.remove symbols])).grammar.productions := by
      obtain ⟨before, symbols, later, rfl, hremoval⟩ := ih hY
      exact ⟨before, symbols, later ++ [c], by simp, hremoval⟩
    rcases grammar_after_concat c with ⟨fault, -, heq⟩ | hchanges
    · rw [heq] at hY
      exact hearlier hY
    · rcases hchanges.dangles hY with hY | ⟨symbols, rfl, hmem, hhead, hgone⟩
      · exact hearlier hY
      · exact ⟨calls, symbols, [], rfl, hmem, hhead, hgone⟩

end Revision

namespace Ledger

variable {l : Ledger} {r : Revision}

/-- A call fails on a ledger exactly when it fails on the grammar, and then both stay as they
are; otherwise both get one grammar. -/
theorem left_work (hgrammar : l.toGrammar = r.grammar) (h : l.Consistent) (c : Call) :
    (∃ fault, c.work.run l = .error fault l ∧ c.transform.perform r = (.error fault, r)) ∨
    ∃ l' r', c.work.run l = .ok () l' ∧ c.transform.perform r = (.ok (), r') ∧
      l'.toGrammar = r'.grammar ∧ l'.Consistent := by
  obtain ⟨hok, herror⟩ := c.follows l h
  rw [hgrammar] at hok herror
  rw [Call.perform_transform]
  cases hedit : c.edit r.grammar with
  | error fault => exact .inl ⟨fault, herror fault hedit, rfl⟩
  | ok g =>
    obtain ⟨l', hrun, heq, hl'⟩ := hok g hedit
    exact .inr ⟨l', r.update g, hrun, rfl, heq, hl'⟩

theorem eq_of_work_error (hgrammar : l.toGrammar = r.grammar) (h : l.Consistent) {c : Call}
    {fault : Fault} {l' : Ledger} (hrun : c.work.run l = .error fault l') :
    l' = l ∧ c.transform.perform r = (.error fault, r) := by
  rcases left_work hgrammar h c with ⟨fault', hrun', hperform⟩ | ⟨_, _, hrun', _⟩
  · cases hrun.symm.trans hrun'
    exact ⟨rfl, hperform⟩
  · cases hrun.symm.trans hrun'

theorem exists_of_work_ok (hgrammar : l.toGrammar = r.grammar) (h : l.Consistent) {c : Call}
    {l' : Ledger} (hrun : c.work.run l = .ok () l') :
    ∃ r', c.transform.perform r = (.ok (), r') ∧ l'.toGrammar = r'.grammar := by
  rcases left_work hgrammar h c with ⟨_, hrun', _⟩ | ⟨_, r', hrun', hperform, hgrammar', -⟩
  · cases hrun.symm.trans hrun'
  · cases hrun.symm.trans hrun'
    exact ⟨r', hperform, hgrammar'⟩

theorem toGrammar_after (hgrammar : l.toGrammar = r.grammar) (h : l.Consistent)
    (calls : List Call) :
    (l.after calls).toGrammar = (r.after calls).grammar ∧ (l.after calls).Consistent := by
  induction calls generalizing l r with
  | nil => exact ⟨hgrammar, h⟩
  | cons c calls ih =>
    rw [after, Revision.after, List.foldl_cons, List.foldl_cons]
    rcases left_work hgrammar h c with ⟨fault, hrun, hperform⟩ |
      ⟨l', r', hrun, hperform, hgrammar', h'⟩
    · rw [left, hrun, hperform]
      exact ih hgrammar h
    · rw [left, hrun, hperform]
      exact ih hgrammar' h'

theorem dangles_of_knows (h : l.Consistent) {X Y : Symbol} {right : RightSide}
    (hright : right ∈ l.rightsOf X) (hY : Y ∈ right) (hunknown : l.knows Y = false) :
    l.Dangles Y :=
  ⟨⟨X, right, hright, hY⟩, by rw [← h.knows, hunknown]⟩

/-- What dangles in a ledger was one of its nonterminals until a call removed it. -/
theorem exists_removal (hgrammar : l.toGrammar = r.grammar) (h : l.Consistent)
    (hwell : r.grammar.WellFormed) {calls : List Call} {Y : Symbol}
    (hY : (l.after calls).Dangles Y) :
    ∃ before symbols later, calls = before ++ .remove symbols :: later ∧ Y ∈ symbols ∧
      Y.isTerminal = false ∧ Y ∈ (l.after before).nonterminals ∧
      Y ∉ (l.after (before ++ [.remove symbols])).nonterminals := by
  have hafter (calls : List Call) := toGrammar_after hgrammar h calls
  rw [(hafter calls).1] at hY
  obtain ⟨before, symbols, later, heq, hmem, hhead, hgone⟩ := Revision.exists_removal hwell hY
  have hkind := (Revision.orderly_after hwell.orderly before).1.heads_nonterminal Y hhead
  refine ⟨before, symbols, later, heq, hmem, hkind, ?_, ?_⟩
  · rwa [← (hafter before).2, (hafter before).1]
  · rwa [← (hafter _).2, (hafter _).1]

/-- A ledger without anything unknown and its revision have copies that are equal to them. -/
theorem copies_eq_ok (hgrammar : l.toGrammar = r.grammar) (h : l.Consistent)
    (horderly : r.grammar.Orderly)
    (hknown : ∀ X right Y, right ∈ l.rightsOf X → Y ∈ right → l.knows Y = true) :
    l.copy = .ok l ∧ r.copy = .ok { grammar := r.grammar } := by
  have hl : l.Orderly := hgrammar ▸ horderly
  have hnone (Y : Symbol) : ¬l.Dangles Y := by
    rintro ⟨⟨X, right, hright, hY⟩, hunknown⟩
    rw [← h.knows, hknown X right Y hright hY] at hunknown
    cases hunknown
  exact ⟨(copy_eq_ok h hl).2 ⟨hnone, rfl⟩,
    (Revision.copy_eq_ok horderly).2 ⟨hgrammar ▸ hnone, rfl⟩⟩

theorem copies_error (hgrammar : l.toGrammar = r.grammar) (h : l.Consistent)
    (horderly : r.grammar.Orderly) {Y : Symbol} (hY : l.Dangles Y) :
    (∃ fault, l.copy = .error fault ∧ fault.kind = .grammar) ∧
      ∃ fault, r.copy = .error fault ∧ fault.kind = .grammar :=
  ⟨copy_error h (hgrammar ▸ horderly) hY, Revision.copy_error horderly (hgrammar ▸ hY)⟩

/-- What holds of a ledger `l` and of a revision `r` after the same calls. -/
structure Attests (opened : Ledger) (calls : List Call) (l : Ledger) (r : Revision) : Prop where
  /-- The ledger shows the grammar of the revision. -/
  grammar_eq : l.toGrammar = r.grammar
  /-- The productions have an entry for exactly the nonterminals. -/
  entries : ∀ X, X ∈ l.productions ↔ X ∈ l.nonterminals
  kinds : ∀ X ∈ l.nonterminals, X.isTerminal = false
  disjoint : ∀ A, .nonterminal A ∈ l.nonterminals → A ∉ l.terminals
  start_mem : .nonterminal l.start ∈ l.nonterminals
  start_eq : l.start = opened.start
  terminals_eq : l.terminals = opened.terminals
  /-- A call that fails leaves everything as it was. -/
  failed : ∀ (c : Call) fault l', c.work.run l = .error fault l' →
    l' = l ∧ c.transform.perform r = (.error fault, r)
  /-- A call that succeeds on the ledger succeeds on the revision. -/
  succeeded : ∀ (c : Call) l', c.work.run l = .ok () l' →
    ∃ r', c.transform.perform r = (.ok (), r') ∧ l'.toGrammar = r'.grammar
  /-- What is mentioned, but in neither vocabulary, is a nonterminal that was removed. -/
  dangling : ∀ X right Y, right ∈ l.rightsOf X → Y ∈ right → l.knows Y = false →
    ∃ before symbols later, calls = before ++ .remove symbols :: later ∧ Y ∈ symbols ∧
      Y.isTerminal = false ∧ Y ∈ (opened.after before).nonterminals ∧
      Y ∉ (opened.after (before ++ [.remove symbols])).nonterminals
  /-- If all that is mentioned is known, the copies are equal to the originals. -/
  copied : (∀ X right Y, right ∈ l.rightsOf X → Y ∈ right → l.knows Y = true) →
    l.copy = .ok l ∧ r.copy = .ok { grammar := r.grammar }
  /-- If something is not, the copies are refused. -/
  refused : ∀ X right Y, right ∈ l.rightsOf X → Y ∈ right → l.knows Y = false →
    (∃ fault, l.copy = .error fault ∧ fault.kind = .grammar) ∧
      ∃ fault, r.copy = .error fault ∧ fault.kind = .grammar

/-- Whatever calls a grammar goes through after it was put together, failing ones included, its
tables keep fitting together, its start symbol and its terminals stay, a failing call changes
nothing, only removed nonterminals dangle, and only what dangles prevents a copy. -/
theorem attests_after {d : Draft} {g : Grammar} (h : d.grammar = .ok g) (calls : List Call) :
    Attests (opened d g) calls ((opened d g).after calls)
      (Revision.after { grammar := g } calls) := by
  have hwell := Draft.wellFormed_of_grammar h
  have hopened := consistent_opened h
  obtain ⟨horderly, hstart, hterminals⟩ :=
    Revision.orderly_after (r := { grammar := g }) hwell.orderly calls
  obtain ⟨hgrammar, hconsistent⟩ := toGrammar_after (r := { grammar := g }) rfl hopened calls
  have hl : ((opened d g).after calls).Orderly := hgrammar ▸ horderly
  exact {
    grammar_eq := hgrammar
    entries := hconsistent
    kinds := fun X hX => hl.heads_nonterminal X ((hconsistent X).2 hX)
    disjoint := fun A hA => hl.disjoint A ((hconsistent _).2 hA)
    start_mem := (hconsistent _).1 hl.start_mem
    start_eq := (congrArg Grammar.start hgrammar).trans hstart
    terminals_eq := (congrArg Grammar.terminals hgrammar).trans hterminals
    failed := fun c fault l' hrun => eq_of_work_error hgrammar hconsistent hrun
    succeeded := fun c l' hrun => exists_of_work_ok hgrammar hconsistent hrun
    dangling := fun X right Y hright hY hunknown => exists_removal (r := { grammar := g }) rfl
      hopened hwell (dangles_of_knows hconsistent hright hY hunknown)
    copied := copies_eq_ok hgrammar hconsistent horderly
    refused := fun X right Y hright hY hunknown => copies_error hgrammar hconsistent horderly
      (dangles_of_knows hconsistent hright hY hunknown) }

/-- The brackets go through additions, replacements and removals, of which the fourth call and
the last one fail. -/
theorem attests_after_brackets :
    Parts.brackets.draft.grammar = .ok Parts.brackets.grammar ∧
      let calls : List Call := [.add "T", .set (.nonterminal "S") [[.nonterminal "T"]],
        .remove (.of [.nonterminal "T", .terminal "a"]), .set (.nonterminal "T") [[]],
        .link { chainPrefix := "" }, .wrapper {} "a", .remove (.of [.nonterminal "S"])]
      Attests (opened Parts.brackets.draft Parts.brackets.grammar) calls
        ((opened Parts.brackets.draft Parts.brackets.grammar).after calls)
        (Revision.after { grammar := Parts.brackets.grammar } calls) := by
  have hdraft : Parts.brackets.draft.grammar = .ok Parts.brackets.grammar :=
    Draft.grammar_eq_ok.2 ⟨Parts.brackets, Parts.fit_brackets, rfl, rfl⟩
  exact ⟨hdraft, attests_after hdraft _⟩

end Ledger

end ContextFree
