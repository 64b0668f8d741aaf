import ContextFree.NameSupply
import ContextFree.Proofs.Derivation
import ContextFree.Proofs.Success

/-! # What transformations do to the grammar

The order in which heads were added decides the order of edits, but not their effect. So a
transformation is described by the grammar that it leaves, for any such order; the
descriptions of two transformations are joined when one follows the other.
-/

namespace ContextFree

/-- On the grammar `g` the transformation succeeds with `value` and leaves the grammar `g'`, in
whatever order heads were added before. -/
def Transform.Turns {α : Type} (t : Transform α) (g : Grammar) (value : α) (g' : Grammar) : Prop :=
  ∀ added, ∃ added', t.run ⟨g, added⟩ = .ok value ⟨g', added'⟩

/-- On the grammar `g` and with the supply `s` the minting succeeds with `value` and leaves `g'`
and `s'`. -/
def Minting.Turns {α : Type} (m : Minting α) (g : Grammar) (s : NameSupply) (value : α)
    (g' : Grammar) (s' : NameSupply) : Prop :=
  ∀ added, ∃ added', m.run ⟨⟨g, added⟩, s⟩ = .ok value ⟨⟨g', added'⟩, s'⟩

theorem ofList_toList {α : Type} [Ord α] [Std.TransOrd α] [Std.LawfulEqOrd α] [BEq α] [LawfulBEq α]
    (s : Std.ExtTreeSet α) : Std.ExtTreeSet.ofList s.toList = s := by
  ext x
  simp [Std.ExtTreeSet.mem_ofList]

theorem mem_singleton {α : Type} [Ord α] [Std.TransOrd α] [Std.LawfulEqOrd α] {x y : α} :
    x ∈ ({y} : Std.ExtTreeSet α) ↔ x = y := by
  rw [Std.ExtTreeSet.singleton_eq_insert, Std.ExtTreeSet.mem_insert,
    Std.LawfulEqOrd.compare_eq_iff_eq, or_iff_left Std.ExtTreeSet.not_mem_empty, eq_comm]

theorem nodup_toList {α : Type} [Ord α] [Std.TransOrd α] (s : Std.ExtTreeSet α) :
    s.toList.Nodup := by
  refine s.distinct_toList.imp fun hne heq => hne ?_
  rw [heq, Std.ReflOrd.compare_self]

section InsertMany

variable {α β : Type} [Ord α] [Std.TransOrd α] [Std.LawfulEqOrd α] [BEq α] [LawfulBEq α]
  {t : Std.ExtTreeMap α β} {entries : List (α × β)} {k : α} {v : β}

theorem getElem?_insertMany_of_forall_ne (hne : ∀ v, (k, v) ∉ entries) :
    (t.insertMany entries)[k]? = t[k]? :=
  Std.ExtTreeMap.getElem?_insertMany_list_of_contains_eq_false (by simpa using hne)

theorem getElem?_insertMany_of_mem (hmem : (k, v) ∈ entries)
    (huniq : ∀ v', (k, v') ∈ entries → v' = v) : (t.insertMany entries)[k]? = some v := by
  induction entries generalizing t with
  | nil => cases hmem
  | cons entry entries ih =>
    rw [Std.ExtTreeMap.insertMany_cons]
    by_cases hlater : (k, v) ∈ entries
    · exact ih hlater fun v' hv' => huniq v' (List.mem_cons_of_mem _ hv')
    · have hnone (v' : β) : (k, v') ∉ entries := by
        intro hv'
        obtain rfl := huniq v' (List.mem_cons_of_mem _ hv')
        exact hlater hv'
      obtain rfl := (List.mem_cons.1 hmem).resolve_right hlater
      rw [getElem?_insertMany_of_forall_ne hnone, Std.ExtTreeMap.getElem?_insert_self]

/-- Inserting a rewritten entry for each key rewrites all entries. -/
theorem insertMany_eq_map {f : α → β → β}
    (hmem : ∀ k v, (k, v) ∈ entries ↔ ∃ old, t[k]? = some old ∧ f k old = v) :
    t.insertMany entries = t.map f := by
  ext k : 1
  rw [Std.ExtTreeMap.getElem?_map]
  cases hk : t[k]? with
  | none =>
    rw [getElem?_insertMany_of_forall_ne, hk, Option.map_none]
    intro v hv
    obtain ⟨old, hold, -⟩ := (hmem k v).1 hv
    rw [hk] at hold
    cases hold
  | some old =>
    refine getElem?_insertMany_of_mem ((hmem k _).2 ⟨old, hk, rfl⟩) fun v hv => ?_
    obtain ⟨old', hold', rfl⟩ := (hmem k v).1 hv
    rw [hk] at hold'
    cases hold'
    rfl

end InsertMany

namespace Grammar

variable {g : Grammar}

theorem resolveRight_tagged {X : Symbol} {right : RightSide} (h : ∀ Y ∈ right, g.has Y = true) :
    g.resolveRight X (right.map .tagged) = .ok right := by
  rw [resolveRight, List.mapM_map, mapM_eq_ok (k := id)]
  · simp
  · intro Y hY
    simp [resolveIn, resolve, RawSymbol.symbol?, Option.filter, h Y hY]

theorem setRights_tagged {X : Symbol} {rights : List RightSide} (hX : X ∈ g.productions)
    (h : ∀ right ∈ rights, ∀ Y ∈ right, g.has Y = true) :
    g.setRights (.tagged X) (rights.map fun right => right.map .tagged) =
      .ok { g with productions := g.productions.insert X (.ofList rights) } := by
  have hleft : g.resolveLeft (.tagged X) = some X := by
    simp [resolveLeft, RawSymbol.symbol?, Option.filter, hX]
  have hrights : (rights.map fun right => right.map RawSymbol.tagged).mapM
      (g.resolveRight X) = .ok rights := by
    rw [List.mapM_map, mapM_eq_ok (k := id)]
    · simp
    · exact fun right hright => resolveRight_tagged (h right hright)
  simp only [setRights, hleft, hrights, bind, Except.bind, pure, Except.pure]

/-- The symbols of a grammar are determined by its heads and its terminals. -/
theorem has_congr {g' : Grammar} {Y : Symbol} (hterminals : g'.terminals = g.terminals)
    (hheads : ∀ X, X ∈ g'.productions ↔ X ∈ g.productions) : g'.has Y = g.has Y := by
  have hcontains (X : Symbol) : g'.productions.contains X = g.productions.contains X := by
    rw [Bool.eq_iff_iff, Std.ExtTreeMap.contains_iff_mem, Std.ExtTreeMap.contains_iff_mem, hheads]
  cases Y <;> simp only [has, hcontains, hterminals]

theorem has_insert {X Y : Symbol} {rights : RightSides} (hX : X ∈ g.productions) :
    has { g with productions := g.productions.insert X rights } Y = g.has Y := by
  refine has_congr rfl fun Z => ?_
  rw [Std.ExtTreeMap.mem_insert]
  refine or_iff_right_of_imp fun heq => ?_
  rwa [← Std.LawfulEqOrd.eq_of_compare heq]

/-- The grammar without some heads and their right sides. -/
def without (g : Grammar) (symbols : SymbolSet) : Grammar :=
  { g with productions := g.productions.filter fun X _ => !symbols.contains X }

theorem getElem?_without {symbols : SymbolSet} {X : Symbol} :
    (g.without symbols).productions[X]? = if X ∈ symbols then none else g.productions[X]? := by
  rw [without, Std.ExtTreeMap.getElem?_filter']
  by_cases hX : X ∈ symbols <;> cases g.productions[X]? <;> simp [hX, Option.filter]

/-- Heads may be removed one after the other, in any order and with repetitions. -/
theorem foldl_erase {symbols : SymbolSet} {Xs : List Symbol} (h : ∀ X, X ∈ Xs ↔ X ∈ symbols) :
    Xs.foldl (·.erase ·) g.productions = (g.without symbols).productions := by
  have herase (t : Productions) (X : Symbol) :
      (Xs.foldl (·.erase ·) t)[X]? = if X ∈ Xs then none else t[X]? := by
    clear h
    induction Xs generalizing t with
    | nil => simp
    | cons Y Xs ih =>
      rw [List.foldl_cons, ih, Std.ExtTreeMap.getElem?_erase]
      by_cases hX : X = Y
      · simp [hX]
      · have hne : compare Y X ≠ .eq := fun heq => hX (Std.LawfulEqOrd.eq_of_compare heq).symm
        simp [hX, hne]
  ext X : 1
  rw [herase, getElem?_without]
  simp only [h]

theorem mem_productions_without {symbols : SymbolSet} {X : Symbol} :
    X ∈ (g.without symbols).productions ↔ X ∈ g.productions ∧ X ∉ symbols := by
  rw [Std.ExtTreeMap.mem_iff_isSome_getElem?, getElem?_without,
    Std.ExtTreeMap.mem_iff_isSome_getElem?]
  by_cases hX : X ∈ symbols
  · rw [if_pos hX]
    simp [hX]
  · rw [if_neg hX]
    simp [hX]

theorem mem_rightsOf_without {symbols : SymbolSet} {X : Symbol} {right : RightSide} :
    right ∈ (g.without symbols).rightsOf X ↔ right ∈ g.rightsOf X ∧ X ∉ symbols := by
  rw [mem_rightsOf, mem_rightsOf, getElem?_without]
  by_cases hX : X ∈ symbols <;> simp [hX]

end Grammar

namespace Transform

variable {α β : Type} {g g' g'' : Grammar}

theorem Turns.pure {value : α} : (Pure.pure value : Transform α).Turns g value g :=
  fun added => ⟨added, rfl⟩

theorem Turns.bind {t : Transform α} {f : α → Transform β} {value : α} {result : β}
    (ht : t.Turns g value g') (hf : (f value).Turns g' result g'') :
    (t >>= f).Turns g result g'' := by
  intro added
  obtain ⟨added', hrun⟩ := ht added
  obtain ⟨added'', hrun'⟩ := hf added'
  exact ⟨added'', by rw [EStateM.run_bind, hrun]; exact hrun'⟩

theorem Turns.mapM_cons {f : α → Transform β} {x : α} {xs : List α} {value : β} {values : List β}
    (hx : (f x).Turns g value g') (hxs : (xs.mapM f).Turns g' values g'') :
    ((x :: xs).mapM f).Turns g (value :: values) g'' := by
  rw [List.mapM_cons]
  exact hx.bind (hxs.bind Turns.pure)

theorem turns_current : current.Turns g g g :=
  fun added => ⟨added, rfl⟩

theorem turns_ofExcept {value : α} : (ofExcept (.ok value)).Turns g value g :=
  Turns.pure

theorem turns_edit {f : Grammar → Except Fault Grammar} (h : f g = .ok g') :
    (edit f).Turns g () g' := by
  intro added
  refine ⟨(Revision.update ⟨g, added⟩ g').added, ?_⟩
  simp [edit, EStateM.run, h, Revision.update]

/-- A head gets any right sides of known symbols, in whatever order they are listed. -/
theorem turns_setRights {X : Symbol} {rights : RightSides} {sides : List RightSide}
    (hsides : Std.ExtTreeSet.ofList sides = rights) (hX : X ∈ g.productions)
    (h : ∀ right ∈ rights, ∀ Y ∈ right, g.has Y = true) :
    (edit fun g => g.setRights (.tagged X) (sides.map fun right => right.map .tagged)).Turns g ()
      { g with productions := g.productions.insert X rights } := by
  subst hsides
  refine turns_edit (Grammar.setRights_tagged hX fun right hright => h right ?_)
  simpa [Std.ExtTreeSet.mem_ofList] using hright

theorem turns_assign {X : Symbol} {rights : RightSides} (hX : X ∈ g.productions)
    (h : ∀ right ∈ rights, ∀ Y ∈ right, g.has Y = true) :
    (assign X rights).Turns g () { g with productions := g.productions.insert X rights } :=
  turns_setRights (ofList_toList rights) hX h

section Plan

variable {plan : List (Symbol × RightSides)} {f : Symbol → RightSides → RightSides}

/-- Heads get any right sides of known symbols, one head after the other, by whatever edit
gives them to a single head. -/
theorem turns_forM_assign {give : Symbol → RightSides → Transform Unit}
    (hgive : ∀ {g X rights}, X ∈ g.productions → (∀ right ∈ rights, ∀ Y ∈ right, g.has Y = true) →
      (give X rights).Turns g () { g with productions := g.productions.insert X rights })
    (hheads : ∀ p ∈ plan, p.1 ∈ g.productions)
    (hknown : ∀ p ∈ plan, ∀ right ∈ p.2, ∀ Y ∈ right, g.has Y = true) :
    (plan.forM fun p => give p.1 p.2).Turns g ()
      { g with productions := g.productions.insertMany plan } := by
  induction plan generalizing g with
  | nil => simpa using Turns.pure
  | cons p plan ih =>
    obtain ⟨X, rights⟩ := p
    have hX : X ∈ g.productions := hheads _ List.mem_cons_self
    rw [Std.ExtTreeMap.insertMany_cons, List.forM_eq_forM, List.forM_cons]
    refine (hgive hX (hknown _ List.mem_cons_self)).bind (ih ?_ ?_)
    · intro q hq
      exact Std.ExtTreeMap.mem_insert.2 (.inr (hheads q (List.mem_cons_of_mem _ hq)))
    · intro q hq right hright Y hY
      rw [Grammar.has_insert hX]
      exact hknown q (List.mem_cons_of_mem _ hq) right hright Y hY

/-- A plan with one rewritten entry for each head rewrites every entry. -/
theorem turns_forM_map {give : Symbol → RightSides → Transform Unit}
    (hgive : ∀ {g X rights}, X ∈ g.productions → (∀ right ∈ rights, ∀ Y ∈ right, g.has Y = true) →
      (give X rights).Turns g () { g with productions := g.productions.insert X rights })
    (hplan : ∀ X rights, (X, rights) ∈ plan ↔
      ∃ old, g.productions[X]? = some old ∧ f X old = rights)
    (hknown : ∀ X rights, g.productions[X]? = some rights →
      ∀ right ∈ f X rights, ∀ Y ∈ right, g.has Y = true) :
    (plan.forM fun p => give p.1 p.2).Turns g () { g with productions := g.productions.map f } := by
  rw [← insertMany_eq_map hplan]
  refine turns_forM_assign hgive ?_ ?_
  · rintro ⟨X, rights⟩ hp
    obtain ⟨old, hold, -⟩ := (hplan X rights).1 hp
    simp [Std.ExtTreeMap.mem_iff_isSome_getElem?, hold]
  · rintro ⟨X, rights⟩ hp right hright Y hY
    obtain ⟨old, hold, rfl⟩ := (hplan X rights).1 hp
    exact hknown X old hold right hright Y hY

theorem mem_map_entries {entries : List (Symbol × RightSides)} {X : Symbol} {rights : RightSides}
    (h : ∀ X rights, (X, rights) ∈ entries ↔ g.productions[X]? = some rights) :
    (X, rights) ∈ entries.map (fun (X, rights) => (X, f X rights)) ↔
      ∃ old, g.productions[X]? = some old ∧ f X old = rights := by
  simp only [List.mem_map, Prod.mk.injEq, Prod.exists, h]
  constructor
  · rintro ⟨Y, old, hold, rfl, rfl⟩
    exact ⟨old, hold, rfl⟩
  · rintro ⟨old, hold, rfl⟩
    exact ⟨X, old, hold, rfl, rfl⟩

theorem assignAll_eq_forM : assignAll plan = plan.forM fun p => assign p.1 p.2 := by
  induction plan with
  | nil => rfl
  | cons p plan ih =>
    rw [assignAll, ih]
    rfl

theorem turns_assignAll (hheads : ∀ p ∈ plan, p.1 ∈ g.productions)
    (hknown : ∀ p ∈ plan, ∀ right ∈ p.2, ∀ Y ∈ right, g.has Y = true) :
    (assignAll plan).Turns g () { g with productions := g.productions.insertMany plan } := by
  rw [assignAll_eq_forM]
  exact turns_forM_assign turns_assign hheads hknown

theorem turns_assignAll_map
    (hplan : ∀ X rights, (X, rights) ∈ plan ↔
      ∃ old, g.productions[X]? = some old ∧ f X old = rights)
    (hknown : ∀ X rights, g.productions[X]? = some rights →
      ∀ right ∈ f X rights, ∀ Y ∈ right, g.has Y = true) :
    (assignAll plan).Turns g () { g with productions := g.productions.map f } := by
  rw [assignAll_eq_forM]
  exact turns_forM_map turns_assign hplan hknown

/-- Rewriting the right sides of every head rewrites every entry. -/
theorem turns_assignEach (hknown : ∀ X rights, g.productions[X]? = some rights →
      ∀ right ∈ f X rights, ∀ Y ∈ right, g.has Y = true) :
    (assignEach f).Turns g () { g with productions := g.productions.map f } := fun added =>
  turns_assignAll_map (fun _ _ => mem_map_entries fun _ _ =>
    Revision.mem_entries (r := ⟨g, added⟩)) hknown added

end Plan

theorem turns_remove {symbols : SymbolSet} (hstart : .nonterminal g.start ∉ symbols) :
    (remove symbols).Turns g () (g.without symbols) :=
  turns_edit (by rw [Grammar.removeHeads, if_neg hstart, Grammar.without])

end Transform

namespace Minting

variable {α β : Type} {g g' g'' : Grammar} {s s' s'' : NameSupply}

theorem Turns.pure {value : α} : (Pure.pure value : Minting α).Turns g s value g s :=
  fun added => ⟨added, rfl⟩

theorem Turns.bind {m : Minting α} {f : α → Minting β} {value : α} {result : β}
    (hm : m.Turns g s value g' s') (hf : (f value).Turns g' s' result g'' s'') :
    (m >>= f).Turns g s result g'' s'' := by
  intro added
  obtain ⟨added', hrun⟩ := hm added
  obtain ⟨added'', hrun'⟩ := hf added'
  exact ⟨added'', by rw [EStateM.run_bind, hrun]; exact hrun'⟩

theorem Turns.get_bind {f : Workshop → Minting β} {result : β}
    (hf : ∀ added, (f ⟨⟨g, added⟩, s⟩).Turns g s result g' s') :
    (get >>= f).Turns g s result g' s' :=
  fun added => hf added added

theorem turns_transform {t : Transform α} {value : α} (ht : t.Turns g value g') :
    (transform t).Turns g s value g' s := by
  intro added
  obtain ⟨added', hrun⟩ := ht added
  have hrun' : t ⟨g, added⟩ = .ok value ⟨g', added'⟩ := hrun
  exact ⟨added', by simp [transform, EStateM.run, hrun']⟩

/-- A minting with a supply of its own is a transformation. -/
theorem turns_withSupply {m : Minting α} {value : α} (hm : m.Turns g s value g' s') :
    (withSupply s m).Turns g value g' := by
  intro added
  obtain ⟨added', hrun⟩ := hm added
  have hrun' : m ⟨⟨g, added⟩, s⟩ = .ok value ⟨⟨g', added'⟩, s'⟩ := hrun
  exact ⟨added', by simp [withSupply, EStateM.run, hrun']⟩

end Minting

end ContextFree
