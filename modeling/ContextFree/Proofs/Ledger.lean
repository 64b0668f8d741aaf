import ContextFree.Proofs.Building
import ContextFree.Proofs.FreshNames

/-! # Edits in place

A grammar may also be kept as a ledger, in which the nonterminals have a table of their own
beside the productions. An edit of a ledger changes the two tables one after the other, and it
may fail between two of its statements. Still it does to the ledger what the edit of the grammar
does to the grammar: it fails with the same fault, and then nothing has changed; otherwise the
two tables fit together again.
-/

namespace ContextFree

/-- A grammar together with a table of its nonterminals. -/
structure Ledger extends Grammar where
  nonterminals : SymbolSet

namespace Ledger

/-- There is an entry in the productions for exactly the nonterminals. -/
def Consistent (l : Ledger) : Prop :=
  ∀ X, X ∈ l.productions ↔ X ∈ l.nonterminals

/-- A computation that edits a ledger. -/
abbrev Work := EStateM Fault Ledger

/-- Whether the symbol is in one of the two vocabularies. -/
def knows (l : Ledger) : Symbol → Bool
  | .nonterminal A => l.nonterminals.contains (.nonterminal A)
  | .terminal a => l.nonterminals.contains (.terminal a) || l.terminals.contains a

/-- Whether a symbol of one of the two vocabularies has the name. -/
def isUsed (l : Ledger) (name : Name) : Bool :=
  l.nonterminals.contains (.nonterminal name) || l.terminals.contains name

/-- Fails if the symbol is in neither vocabulary. -/
def checkSymbol (left : Symbol) (right : RightSide) (X : Symbol) : Work Unit := do
  unless (← get).knows X do
    let rule ← match RawRule.ofSides (.tagged left) (right.map .tagged) with
      | .ok rule => pure rule
      | .error fault => throw fault
    throw (.unknownSymbol rule (.tagged X))

/-- Replaces the right sides of a nonterminal. -/
def setProductions (left : Symbol) (rights : List RightSide) : Work Unit := do
  unless (← get).nonterminals.contains left do
    throw (.notInGrammar left.name)
  rights.forM fun right => right.forM (checkSymbol left right)
  modify fun l => { l with productions := l.productions.insert left (.ofList rights) }

/-- Adds a nonterminal, to one table and then to the other. -/
def addNonterminal (A : Name) : Work Unit := do
  if (← get).isUsed A then
    throw (.nameTaken A)
  modify fun l => { l with nonterminals := l.nonterminals.insert (.nonterminal A) }
  modify fun l => { l with productions := l.productions.insert (.nonterminal A) ∅ }

/-- Removes symbols, all of them from one table and then each of them from the other. -/
def removeNonterminals (symbols : SymbolSet) : Work Unit := do
  if symbols.contains (.nonterminal (← get).start) then
    throw (.startRemoved (← get).start)
  modify fun l => { l with nonterminals := l.nonterminals.filter fun X => !symbols.contains X }
  symbols.toList.forM fun X => modify fun l => { l with productions := l.productions.erase X }

/-- The first index from `index` on whose name is free, when at most `tries` indices are
passed over. -/
def firstUnused (l : Ledger) (series : Nat → Name) : (tries index : Nat) → Nat
  | 0, index => index
  | tries + 1, index =>
    if l.isUsed (series index) then firstUnused l series tries (index + 1) else index

/-- Adds a nonterminal under the first free name of a series. -/
def mint (series : Nat → Name) (index : Nat) : Work Unit := do
  let l ← get
  addNonterminal (series (l.firstUnused series l.symbolCount index))

/-- The ledger of a grammar that was put together from its parts. -/
def opened (d : Draft) (g : Grammar) : Ledger where
  toGrammar := g
  nonterminals := .of (d.nonterminals.filterMap RawSymbol.symbol?)

/-- The ledger that an edit leaves, whether it fails or not. -/
def left (l : Ledger) (work : Work Unit) : Ledger :=
  match work.run l with
  | .ok _ l' => l'
  | .error _ l' => l'

/-- The edit of a ledger does what the edit of a grammar does: on a consistent ledger both give
one grammar, with a table that fits it, or both fail, and then the ledger is as it was. -/
def Follows (work : Work Unit) (edit : Grammar → Except Fault Grammar) : Prop :=
  ∀ l : Ledger, l.Consistent →
    (∀ g, edit l.toGrammar = .ok g →
      ∃ l' : Ledger, work.run l = .ok () l' ∧ l'.toGrammar = g ∧ l'.Consistent) ∧
    ∀ fault, edit l.toGrammar = .error fault → work.run l = .error fault l

variable {l : Ledger}

theorem consistent_opened {d : Draft} {g : Grammar} (h : d.grammar = .ok g) :
    (opened d g).Consistent := by
  obtain ⟨p, hfit, rfl, rfl⟩ := Draft.grammar_eq_ok.1 h
  intro X
  refine hfit.mem_productions.trans ?_
  simp [opened, SymbolSet.of, Std.ExtTreeSet.mem_ofList, Parts.draft, RawSymbol.symbol?, eq_comm]

theorem Consistent.contains (h : l.Consistent) (X : Symbol) :
    l.nonterminals.contains X = l.productions.contains X := by
  rw [Bool.eq_iff_iff, Std.ExtTreeSet.contains_iff_mem, Std.ExtTreeMap.contains_iff_mem, h]

theorem Consistent.knows (h : l.Consistent) (X : Symbol) : l.knows X = l.has X := by
  cases X <;> simp only [Ledger.knows, Grammar.has, h.contains]

theorem Consistent.isUsed (h : l.Consistent) (A : Name) : l.isUsed A = l.uses A := by
  rw [Ledger.isUsed, h.contains, Grammar.uses]

/-- What is left of the ledger by a check that gives no value. -/
def checked {α : Type} (l : Ledger) : Except Fault α → EStateM.Result Fault Ledger Unit
  | .ok _ => .ok () l
  | .error fault => .error fault l

/-- A check of all members of a list fails where they are refused. -/
theorem run_forM {α β : Type} {check : α → Work Unit} {f : α → Except Fault β} {xs : List α}
    (h : ∀ x ∈ xs, (check x).run l = l.checked (f x)) :
    (xs.forM check).run l = l.checked (xs.mapM f) := by
  induction xs with
  | nil => rfl
  | cons x xs ih =>
    have hrest := ih fun y hy => h y (List.mem_cons_of_mem _ hy)
    rw [List.forM_eq_forM] at hrest
    rw [List.forM_eq_forM, List.forM_cons, EStateM.run_bind, h x List.mem_cons_self, List.mapM_cons]
    cases hx : f x with
    | error fault => rfl
    | ok y =>
      simp only [checked, hrest]
      cases xs.mapM f <;> rfl

theorem run_checkSymbol (h : l.Consistent) {left X : Symbol} {right : RightSide} :
    (checkSymbol left right X).run l =
      l.checked (l.resolveIn left (right.map .tagged) (.tagged X)) := by
  rw [Grammar.resolveIn, Grammar.resolve, RawSymbol.symbol?, Option.filter, ← h.knows]
  rw [checkSymbol, EStateM.run_bind, EStateM.run_get]
  cases hX : l.knows X with
  | true => simp [hX, checked]
  | false =>
    cases RawRule.ofSides (.tagged left) (right.map .tagged) <;> simp [hX] <;> rfl

theorem run_checkRights (h : l.Consistent) (left : Symbol) (rights : List RightSide) :
    (rights.forM fun right => right.forM (checkSymbol left right)).run l =
      l.checked ((rights.map fun right => right.map .tagged).mapM (l.resolveRight left)) := by
  rw [List.mapM_map]
  refine run_forM fun right _ => ?_
  rw [Function.comp_apply, Grammar.resolveRight, List.mapM_map]
  exact run_forM fun X _ => run_checkSymbol h

theorem Consistent.insert (h : l.Consistent) {X : Symbol} (hX : X ∈ l.productions)
    {rights : RightSides} :
    Consistent { l with productions := l.productions.insert X rights } := by
  intro Y
  rw [← h Y, Std.ExtTreeMap.mem_insert, Std.LawfulEqOrd.compare_eq_iff_eq]
  exact or_iff_right_of_imp fun heq => heq ▸ hX

theorem follows_setProductions {left : Symbol} {rights : List RightSide} :
    Follows (setProductions left rights) fun g =>
      g.setRights (.tagged left) (rights.map fun right => right.map .tagged) := by
  intro l h
  simp only [Grammar.setRights, Grammar.resolveLeft, RawSymbol.symbol?, Option.filter]
  rw [setProductions, EStateM.run_bind, EStateM.run_get]
  simp only [h.contains]
  cases hleft : l.productions.contains left with
  | false => simp [RawSymbol.name]
  | true =>
    have hX : left ∈ l.productions := Std.ExtTreeMap.contains_iff_mem.1 hleft
    have hchecks := run_checkRights h left rights
    simp only [ite_true, bind_pure_comp, EStateM.run_bind, hchecks]
    cases hsides : (rights.map fun right => right.map RawSymbol.tagged).mapM
        (l.resolveRight left) with
    | error fault => simp [checked, Functor.map, Except.map]
    | ok sides =>
      obtain rfl : rights = sides := by
        obtain ⟨heq, -⟩ := (mapM_eq_ok_iff fun _ _ => Grammar.resolveRight_eq_ok).1 hsides
        exact (List.map_inj_right fun _ _ heq =>
          (List.map_inj_right fun _ _ => RawSymbol.tagged.inj).1 heq).1 heq
      simpa [checked, Functor.map, Except.map] using h.insert hX

theorem follows_addNonterminal {A : Name} :
    Follows (addNonterminal A) fun g => g.addHead (.nonterminal A) := by
  intro l h
  simp only [Grammar.addHead_nonterminal]
  rw [addNonterminal, EStateM.run_bind, EStateM.run_get]
  simp only [h.isUsed]
  cases hA : l.uses A with
  | true => simp
  | false =>
    suffices hboth : Consistent { l with
        productions := l.productions.insert (.nonterminal A) ∅
        nonterminals := l.nonterminals.insert (.nonterminal A) } by simpa using hboth
    intro X
    rw [Std.ExtTreeMap.mem_insert, Std.ExtTreeSet.mem_insert, h]

/-- Entries are removed one after the other. -/
theorem run_erase (Xs : List Symbol) : (Xs.forM fun X => (modify fun l : Ledger =>
    { l with productions := l.productions.erase X } : Work Unit)).run l =
      .ok () { l with productions := Xs.foldl (·.erase ·) l.productions } := by
  induction Xs generalizing l with
  | nil => rfl
  | cons X Xs ih =>
    rw [List.forM_eq_forM] at ih
    rw [List.forM_eq_forM, List.forM_cons, EStateM.run_bind, EStateM.run_modify]
    exact ih

theorem follows_removeNonterminals {symbols : SymbolSet} :
    Follows (removeNonterminals symbols) fun g => g.removeHeads symbols := by
  intro l h
  rw [removeNonterminals, EStateM.run_bind, EStateM.run_get]
  by_cases hstart : .nonterminal l.start ∈ symbols
  · simp [Grammar.removeHeads, hstart]
  · have hboth : Consistent
        ⟨l.without symbols, l.nonterminals.filter fun X => !symbols.contains X⟩ := by
      intro X
      refine Grammar.mem_productions_without.trans ?_
      have hcontains : symbols.contains X = false ↔ X ∉ symbols := by
        rw [← Std.ExtTreeSet.contains_iff_mem, Bool.not_eq_true]
      simp [h X, hcontains]
    have hrest := run_erase (l := ⟨l.toGrammar, l.nonterminals.filter fun X => !symbols.contains X⟩)
      symbols.toList
    rw [List.forM_eq_forM, Grammar.foldl_erase fun X => Std.ExtTreeSet.mem_toList] at hrest
    simpa [Grammar.removeHeads, Grammar.without, hstart, hrest] using hboth

/-- The search for a free name in the two tables is the search in the grammar. -/
theorem Consistent.firstUnused (h : l.Consistent) {series : Nat → Name} {tries index : Nat} :
    l.firstUnused series tries index = l.firstFree series tries index := by
  induction tries generalizing index with
  | zero => rfl
  | succ tries ih => rw [Ledger.firstUnused, Grammar.firstFree, h.isUsed, ih]

theorem follows_mint {series : Nat → Name} {index : Nat} :
    Follows (mint series index) fun g =>
      g.addHead (.nonterminal (series (g.firstFree series g.symbolCount index))) := by
  intro l h
  rw [mint, EStateM.run_bind, EStateM.run_get]
  simp only [h.firstUnused]
  exact follows_addNonterminal l h

end Ledger

end ContextFree
