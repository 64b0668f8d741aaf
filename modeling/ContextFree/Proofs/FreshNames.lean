import ContextFree.Proofs.Shape
import Std.Data.String.ToNat

/-! # Minted names are fresh

The names of a series differ from each other, and fewer names are in use than are tried, so the
search for a free name ends at one. Nonterminals that are minted one after the other differ
from each other and from all symbols of the grammar at the beginning.
-/

namespace ContextFree

namespace Grammar

variable {g : Grammar}

/-- The names of the symbols of the grammar. -/
def usedNames (g : Grammar) : List Name :=
  g.heads.map Symbol.name ++ g.terminals.toList

theorem length_usedNames : g.usedNames.length = g.symbolCount := by
  simp [usedNames, symbolCount, heads, Std.ExtTreeMap.length_keys, Std.ExtTreeSet.length_toList]

theorem mem_usedNames_of_uses {A : Name} (h : g.uses A = true) : A ∈ g.usedNames := by
  rw [usedNames, List.mem_append]
  rcases Bool.or_eq_true_iff.1 h with hhead | hterminal
  · exact .inl (List.mem_map.2 ⟨.nonterminal A, mem_heads.2 (by simpa using hhead), rfl⟩)
  · exact .inr (Std.ExtTreeSet.mem_toList.2 (by simpa using hterminal))

/-- All names that the search for a free one passes over are in use. -/
theorem uses_of_lt_firstFree {series : Nat → Name} {tries index i : Nat} (hi : index ≤ i)
    (hlt : i < g.firstFree series tries index) : g.uses (series i) = true := by
  induction tries generalizing index with
  | zero =>
    rw [firstFree] at hlt
    omega
  | succ tries ih =>
    rw [firstFree] at hlt
    by_cases hused : g.uses (series index) = true
    · rw [if_pos hused] at hlt
      rcases Nat.eq_or_lt_of_le hi with rfl | hi
      · exact hused
      · exact ih hi hlt
    · rw [if_neg hused] at hlt
      omega

/-- The search ends at a free name or after all tries. -/
theorem uses_firstFree_or (series : Nat → Name) (tries index : Nat) :
    g.uses (series (g.firstFree series tries index)) = false ∨
      g.firstFree series tries index = index + tries := by
  induction tries generalizing index with
  | zero => exact .inr rfl
  | succ tries ih =>
    rw [firstFree]
    by_cases hused : g.uses (series index) = true
    · rw [if_pos hused]
      exact (ih (index + 1)).imp_right fun h => by omega
    · rw [if_neg hused]
      exact .inl (Bool.not_eq_true _ ▸ hused)

/-- Among as many different names as there are symbols, and one more, a free one is found. -/
theorem uses_firstFree {series : Nat → Name} (hinj : ∀ i j, series i = series j → i = j)
    (index : Nat) : g.uses (series (g.firstFree series g.symbolCount index)) = false := by
  rcases uses_firstFree_or (g := g) series g.symbolCount index with hfree | hlast
  · exact hfree
  · rw [← Bool.not_eq_true]
    intro hused
    -- More names are tried than there are symbols, so they cannot all be used ones.
    let tried := (List.range' index (g.symbolCount + 1)).map series
    have hnodup : tried.Nodup :=
      List.nodup_iff_pairwise_ne.2 (List.pairwise_map.2
        ((List.nodup_iff_pairwise_ne.1 List.nodup_range').imp fun hne heq => hne (hinj _ _ heq)))
    have hsubset : tried ⊆ g.usedNames := by
      intro A hA
      obtain ⟨i, hi, rfl⟩ := List.mem_map.1 hA
      rw [List.mem_range'_1] at hi
      by_cases hlt : i < g.firstFree series g.symbolCount index
      · exact mem_usedNames_of_uses (uses_of_lt_firstFree hi.1 hlt)
      · obtain rfl : i = g.firstFree series g.symbolCount index := by omega
        exact mem_usedNames_of_uses hused
    have hle := hnodup.length_le_of_subset hsubset
    rw [length_usedNames, List.length_map, List.length_range'] at hle
    omega

end Grammar

namespace NameSupply

variable {s : NameSupply} {g : Grammar}

/-- Numbered names are longer than the first one. -/
theorem wrapperSeries_zero_ne {terminal : String} {i : Nat} :
    s.wrapperSeries terminal 0 ≠ s.wrapperSeries terminal (i + 1) := by
  intro h
  have hlength := congrArg String.length h
  have hmark : "_".length = 1 := rfl
  simp only [wrapperSeries, String.length_append] at hlength
  omega

theorem wrapperSeries_injective {terminal : String} {i j : Nat}
    (h : s.wrapperSeries terminal i = s.wrapperSeries terminal j) : i = j := by
  cases i with
  | zero =>
    cases j with
    | zero => rfl
    | succ j => exact absurd h wrapperSeries_zero_ne
  | succ i =>
    cases j with
    | zero => exact absurd h.symm wrapperSeries_zero_ne
    | succ j =>
      rw [wrapperSeries, wrapperSeries, String.append_right_inj] at h
      exact Nat.repr_injective h

theorem chainSeries_injective {i j : Nat} (h : s.chainSeries i = s.chainSeries j) : i = j := by
  rw [chainSeries, chainSeries, String.append_right_inj] at h
  exact Nat.repr_injective h

theorem uses_wrapperName (terminal : String) : g.uses (s.wrapperName g terminal) = false :=
  Grammar.uses_firstFree (fun _ _ => wrapperSeries_injective) 0

theorem uses_nextChain : g.uses (s.chainSeries (s.nextChain g)) = false :=
  Grammar.uses_firstFree (fun _ _ => chainSeries_injective) _

end NameSupply

namespace Grammar

variable {g : Grammar} {names more : List Name} {new : List (Name × RightSides)} {A : Name}

/-- Names that differ from each other and are not in use. -/
structure Fresh (g : Grammar) (names : List Name) : Prop where
  nodup : names.Nodup
  unused : ∀ A ∈ names, g.uses A = false

theorem uses_eq_false : g.uses A = false ↔ .nonterminal A ∉ g.productions ∧ A ∉ g.terminals := by
  rw [uses, Bool.or_eq_false_iff, ← Bool.not_eq_true, ← Bool.not_eq_true,
    Std.ExtTreeMap.contains_iff_mem, Std.ExtTreeSet.contains_iff_mem]

theorem Fresh.notMem_productions (h : g.Fresh names) (hA : A ∈ names) :
    .nonterminal A ∉ g.productions :=
  (uses_eq_false.1 (h.unused A hA)).1

theorem Fresh.notMem_terminals (h : g.Fresh names) (hA : A ∈ names) : A ∉ g.terminals :=
  (uses_eq_false.1 (h.unused A hA)).2

/-- The grammar with further nonterminals and their right sides. -/
def extend (g : Grammar) (new : List (Name × RightSides)) : Grammar :=
  { g with productions := g.productions.insertMany (new.map fun (A, rights) =>
      (.nonterminal A, rights)) }

@[simp] theorem extend_nil : g.extend [] = g := by
  simp [extend]

theorem extend_append {later : List (Name × RightSides)} :
    g.extend (new ++ later) = (g.extend new).extend later := by
  simp [extend, Std.ExtTreeMap.insertMany_append]

theorem extend_cons {rights : RightSides} :
    g.extend ((A, rights) :: new) = (g.extend [(A, rights)]).extend new := by
  rw [← List.singleton_append, extend_append]

theorem mem_productions_extend {X : Symbol} :
    X ∈ (g.extend new).productions ↔
      X ∈ g.productions ∨ ∃ A ∈ new.map Prod.fst, X = .nonterminal A := by
  rw [extend, Std.ExtTreeMap.mem_insertMany_list]
  simp [eq_comm]

theorem uses_extend :
    (g.extend new).uses A = false ↔ g.uses A = false ∧ A ∉ new.map Prod.fst := by
  rw [uses_eq_false, uses_eq_false, mem_productions_extend]
  simp only [Symbol.nonterminal.injEq, exists_eq_right', not_or, extend, and_right_comm]

theorem fresh_singleton : g.Fresh [A] ↔ g.uses A = false :=
  ⟨fun h => h.unused A List.mem_cons_self, fun h => ⟨by simp, by simpa using h⟩⟩

/-- Names minted one after the other are fresh. -/
theorem Fresh.append (h : g.Fresh (new.map Prod.fst)) (hmore : (g.extend new).Fresh more) :
    g.Fresh (new.map Prod.fst ++ more) where
  nodup := by
    refine List.nodup_append.2 ⟨h.nodup, hmore.nodup, ?_⟩
    rintro A hA B hB rfl
    exact (uses_extend.1 (hmore.unused A hB)).2 hA
  unused A hA := by
    rcases List.mem_append.1 hA with hA | hA
    · exact h.unused A hA
    · exact (uses_extend.1 (hmore.unused A hA)).1

theorem fresh_nil : g.Fresh [] :=
  ⟨List.nodup_nil, by simp⟩

/-- The grammar with further nonterminals that have no right sides. -/
def reserve (g : Grammar) (names : List Name) : Grammar :=
  g.extend (names.map fun A => (A, ∅))

@[simp] theorem reserve_nil : g.reserve [] = g :=
  extend_nil

theorem reserve_append : g.reserve (names ++ more) = (g.reserve names).reserve more := by
  rw [reserve, List.map_append, extend_append, reserve, reserve]

theorem mem_productions_reserve {X : Symbol} : X ∈ (g.reserve names).productions ↔
    X ∈ g.productions ∨ ∃ A ∈ names, X = .nonterminal A := by
  rw [reserve, mem_productions_extend, List.map_map]
  simp

theorem map_fst_reserved : (names.map fun A => (A, (∅ : RightSides))).map Prod.fst = names := by
  rw [List.map_map]
  exact List.map_id names

theorem Fresh.append_reserve (h : g.Fresh names) (hmore : (g.reserve names).Fresh more) :
    g.Fresh (names ++ more) := by
  have h' : g.Fresh ((names.map fun A => (A, (∅ : RightSides))).map Prod.fst) := by
    rwa [map_fst_reserved]
  have happend := h'.append hmore
  rwa [map_fst_reserved] at happend

theorem eq_of_mem_of_nodup {κ α : Type} {pairs : List (κ × α)} {k : κ} {x y : α}
    (h : (pairs.map Prod.fst).Nodup) (hx : (k, x) ∈ pairs) (hy : (k, y) ∈ pairs) : x = y := by
  induction pairs with
  | nil => cases hx
  | cons pair pairs ih =>
    obtain ⟨hhead, htail⟩ := List.nodup_cons.1 h
    rcases List.mem_cons.1 hx with rfl | hx' <;> rcases List.mem_cons.1 hy with heq | hy'
    · exact (Prod.mk.inj heq).2.symm
    · exact absurd (List.mem_map.2 ⟨_, hy', rfl⟩) hhead
    · subst heq
      exact absurd (List.mem_map.2 ⟨_, hx', rfl⟩) hhead
    · exact ih htail hx' hy'

/-- The entries of a grammar with further nonterminals under fresh names. -/
theorem getElem?_extend (h : g.Fresh (new.map Prod.fst)) {X : Symbol} {rights : RightSides} :
    (g.extend new).productions[X]? = some rights ↔
      g.productions[X]? = some rights ∨ ∃ A, X = .nonterminal A ∧ (A, rights) ∈ new := by
  by_cases hX : ∃ A rights', X = .nonterminal A ∧ (A, rights') ∈ new
  · obtain ⟨A, rights', rfl, hnew⟩ := hX
    have hA : .nonterminal A ∉ g.productions :=
      h.notMem_productions (List.mem_map.2 ⟨_, hnew, rfl⟩)
    have hentry : (g.extend new).productions[Symbol.nonterminal A]? = some rights' := by
      refine getElem?_insertMany_of_mem (List.mem_map.2 ⟨_, hnew, rfl⟩) fun rights'' hmem => ?_
      obtain ⟨⟨B, old⟩, hB, heq⟩ := List.mem_map.1 hmem
      cases heq
      exact eq_of_mem_of_nodup h.nodup hB hnew
    rw [hentry, Std.ExtTreeMap.getElem?_eq_none hA]
    constructor
    · rintro heq
      cases heq
      exact .inr ⟨A, rfl, hnew⟩
    · rintro (heq | ⟨B, heq, hB⟩)
      · cases heq
      · cases heq
        rw [eq_of_mem_of_nodup h.nodup hB hnew]
  · rw [extend, getElem?_insertMany_of_forall_ne]
    · refine (or_iff_left ?_).symm
      rintro ⟨A, rfl, hA⟩
      exact hX ⟨A, rights, rfl, hA⟩
    · intro rights' hmem
      obtain ⟨⟨A, old⟩, hA, heq⟩ := List.mem_map.1 hmem
      cases heq
      exact hX ⟨A, rights', rfl, hA⟩

theorem mem_rightsOf_extend (h : g.Fresh (new.map Prod.fst)) {X : Symbol} {right : RightSide} :
    right ∈ (g.extend new).rightsOf X ↔
      right ∈ g.rightsOf X ∨
        ∃ A rights, X = .nonterminal A ∧ (A, rights) ∈ new ∧ right ∈ rights := by
  simp only [mem_rightsOf, getElem?_extend h]
  constructor
  · rintro ⟨rights, hentry | ⟨A, rfl, hA⟩, hright⟩
    · exact .inl ⟨rights, hentry, hright⟩
    · exact .inr ⟨A, rights, rfl, hA, hright⟩
  · rintro (⟨rights, hentry, hright⟩ | ⟨A, rights, rfl, hA, hright⟩)
    · exact ⟨rights, .inl hentry, hright⟩
    · exact ⟨rights, .inr ⟨A, rfl, hA⟩, hright⟩

theorem has_extend {Y : Symbol} :
    (g.extend new).has Y = true ↔ g.has Y = true ∨ ∃ A ∈ new.map Prod.fst, Y = .nonterminal A := by
  cases Y with
  | nonterminal B =>
    simp only [has, Std.ExtTreeMap.contains_iff_mem]
    exact mem_productions_extend
  | terminal a =>
    simp only [has, Bool.or_eq_true, Std.ExtTreeMap.contains_iff_mem, mem_productions_extend]
    simp [extend]

theorem WellFormed.extend (h : g.WellFormed) (hfresh : g.Fresh (new.map Prod.fst))
    (hknown : ∀ A rights, (A, rights) ∈ new → ∀ right ∈ rights, ∀ Y ∈ right,
      (g.extend new).has Y = true) : (g.extend new).WellFormed where
  start_mem := mem_productions_extend.2 (.inl h.start_mem)
  heads_nonterminal X hX := by
    rcases mem_productions_extend.1 hX with hX | ⟨A, -, rfl⟩
    · exact h.heads_nonterminal X hX
    · rfl
  disjoint A hA := by
    rcases mem_productions_extend.1 hA with hA | ⟨B, hB, heq⟩
    · exact h.disjoint A hA
    · cases heq
      exact hfresh.notMem_terminals hB
  closed X right hright Y hY := by
    rcases (mem_rightsOf_extend hfresh).1 hright with hright | ⟨A, rights, -, hA, hright⟩
    · exact has_extend.2 (.inl (h.closed X right hright Y hY))
    · exact hknown A rights hA right hright Y hY

theorem has_reserve {Y : Symbol} : (g.reserve names).has Y = true ↔
    g.has Y = true ∨ ∃ A ∈ names, Y = .nonterminal A := by
  rw [reserve, has_extend, map_fst_reserved]

theorem WellFormed.reserve (h : g.WellFormed) (hfresh : g.Fresh names) :
    (g.reserve names).WellFormed := by
  refine h.extend (by rwa [map_fst_reserved]) fun A rights hA right hright => ?_
  obtain ⟨B, -, heq⟩ := List.mem_map.1 hA
  cases heq
  exact absurd hright Std.ExtTreeSet.not_mem_empty

theorem insert_extend {rights : RightSides} :
    { g.extend [(A, ∅)] with
      productions := (g.extend [(A, ∅)]).productions.insert (.nonterminal A) rights } =
        g.extend [(A, rights)] := by
  have hinsert : (g.productions.insert (.nonterminal A) ∅).insert (.nonterminal A) rights =
      g.productions.insert (.nonterminal A) rights := by
    ext X : 1
    simp only [Std.ExtTreeMap.getElem?_insert]
    split <;> rfl
  simp [extend, hinsert]

end Grammar

/-- A nonterminal that was added gets right sides of known symbols. -/
theorem Transform.turns_assign_extend {g : Grammar} {A : Name} {rights : RightSides}
    (h : ∀ right ∈ rights, ∀ Y ∈ right, (g.extend [(A, ∅)]).has Y = true) :
    (assign (.nonterminal A) rights).Turns (g.extend [(A, ∅)]) () (g.extend [(A, rights)]) := by
  have key := turns_assign (Grammar.mem_productions_extend.2 (.inr ⟨A, by simp, rfl⟩)) h
  rwa [Grammar.insert_extend] at key

namespace Minting

open Grammar

variable {g : Grammar} {s : NameSupply} {A : Name}

theorem turns_register (hfree : g.uses A = false) :
    (register A).Turns g s A (g.extend [(A, ∅)]) s := by
  have hadd : g.addHead (.nonterminal A) = .ok (g.extend [(A, ∅)]) := by
    rw [addHead_nonterminal, hfree]
    simp [extend]
  exact (turns_transform (Transform.turns_edit hadd)).bind Turns.pure

theorem turns_wrapper {terminal : String} :
    (wrapper terminal).Turns g s (s.wrapperName g terminal)
      (g.extend [(s.wrapperName g terminal, ∅)]) s :=
  Turns.get_bind fun _ => turns_register (NameSupply.uses_wrapperName terminal)

theorem turns_chain :
    chain.Turns g s (s.chainSeries (s.nextChain g)) (g.reserve [s.chainSeries (s.nextChain g)])
      { s with counter := s.nextChain g } := by
  have hregister : (register (s.chainSeries (s.nextChain g))).Turns g
      { s with counter := s.nextChain g } (s.chainSeries (s.nextChain g))
      (g.reserve [s.chainSeries (s.nextChain g)]) { s with counter := s.nextChain g } :=
    turns_register NameSupply.uses_nextChain
  exact fun added => hregister added

theorem turns_chains (n : Nat) :
    ∃ names counter, names.length = n ∧ g.Fresh names ∧ (∀ A ∈ names, ∃ i, A = s.chainSeries i) ∧
      (chains n).Turns g s names (g.reserve names) { s with counter := counter } := by
  induction n generalizing g s with
  | zero =>
    refine ⟨[], s.counter, rfl, fresh_nil, by simp, ?_⟩
    rw [reserve_nil]
    exact Turns.pure
  | succ n ih =>
    have hfree := NameSupply.uses_nextChain (g := g) (s := s)
    have hchain := turns_chain (g := g) (s := s)
    generalize s.nextChain g = i at hfree hchain
    obtain ⟨names, counter, hlength, hfresh, hseries, hchains⟩ :=
      ih (g := g.reserve [s.chainSeries i]) (s := { s with counter := i })
    refine ⟨s.chainSeries i :: names, counter, by simp [hlength], ?_, ?_, ?_⟩
    · exact (fresh_singleton.2 hfree).append_reserve hfresh
    · rintro A hA
      rcases List.mem_cons.1 hA with rfl | hA
      · exact ⟨i, rfl⟩
      · exact hseries A hA
    · rw [← List.singleton_append, reserve_append]
      exact hchain.bind (hchains.bind Turns.pure)

end Minting

end ContextFree
