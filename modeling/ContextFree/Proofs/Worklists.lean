import ContextFree.Proofs.Fixpoint
import ContextFree.Proofs.Search

/-! # Two loops that read what they grow

A search reads the set of seen nodes while it adds to it, and a pass over candidates asks about the
set that it is growing. Both loops end, and what they find depends neither on the order in which
children or candidates are listed nor on how often. A search fails exactly if it can reach a node
without entry, and a pass exactly if there is a candidate without clauses.
-/

namespace ContextFree

theorem toOption_eq_some {ε β : Type} {result : Except ε β} {value : β} :
    result.toOption = some value ↔ result = .ok value := by
  cases result <;> simp [Except.toOption]

/-- A loop ends with this result, after so many rounds at most. -/
structure EndsWithin {β : Type} (run : Nat → β → Prop) (bound : Nat) (result : β) : Prop where
  ends : ∃ rounds ≤ bound, run rounds result
  only : ∀ rounds other, run rounds other → other = result

namespace Graph

variable {α : Type} [Ord α] [Std.TransOrd α]

/-- A child goes onto the stack, and counts as seen, unless it was seen before. -/
def push (state : Std.ExtTreeSet α × List α) (child : α) : Std.ExtTreeSet α × List α :=
  if state.1.contains child then state else (state.1.insert child, child :: state.2)

/-- The search without a record of the nodes that were visited: as long as there are nodes on the
stack, the last one is taken from it and its children are pushed. The number is that of the nodes
visited. -/
inductive Runs (graph : Graph α) :
    (state : Std.ExtTreeSet α × List α) → (visits : Nat) → Except α (Std.ExtTreeSet α) → Prop where
  | done {seen : Std.ExtTreeSet α} : Runs graph (seen, []) 0 (.ok seen)
  | missing {seen : Std.ExtTreeSet α} {node : α} {stack : List α} : graph[node]? = none →
      Runs graph (seen, node :: stack) 0 (.error node)
  | visit {seen : Std.ExtTreeSet α} {node : α} {stack children : List α} {visits : Nat}
      {result : Except α (Std.ExtTreeSet α)} : graph[node]? = some children →
      Runs graph (children.foldl push (seen, stack)) visits result →
      Runs graph (seen, node :: stack) (visits + 1) result

theorem Runs.unique {graph : Graph α} {state : Std.ExtTreeSet α × List α} {visits visits' : Nat}
    {result result' : Except α (Std.ExtTreeSet α)} (h : graph.Runs state visits result)
    (h' : graph.Runs state visits' result') : result' = result := by
  induction h generalizing visits' with
  | done =>
    cases h' with
    | done => rfl
  | missing hnone =>
    cases h' with
    | missing => rfl
    | visit hentry => cases hnone.symm.trans hentry
  | visit hentry _ ih =>
    cases h' with
    | missing hnone => cases hnone.symm.trans hentry
    | visit hentry' hruns =>
      obtain rfl := Option.some.inj (hentry.symm.trans hentry')
      exact ih hruns

/-- Pushing children adds those that were not seen, each once. -/
theorem foldl_push (seen : Std.ExtTreeSet α) (stack children : List α) :
    children.foldl push (seen, stack) =
      (seen.insertMany (unseen seen children), (unseen seen children).reverse ++ stack) := by
  fun_induction unseen seen children generalizing stack with
  | case1 seen => simp [Std.ExtTreeSet.insertMany_nil]
  | case2 seen x xs hx ih => rw [List.foldl_cons, push, if_pos hx, ih]
  | case3 seen x xs hx ih =>
    rw [List.foldl_cons, push, if_neg hx, ih, Std.ExtTreeSet.insertMany_cons, List.reverse_cons,
      List.append_assoc, List.singleton_append]

variable [Std.LawfulEqOrd α] [DecidableEq α] {graph graph' rest : Graph α} {root : α}
  {seen : Std.ExtTreeSet α}

/-- The record of visited nodes makes no difference, because no node is visited twice. -/
theorem Frontier.runs {stack : List α} (h : Frontier graph rest root seen stack) :
    ∃ visits ≤ rest.size, graph.Runs (seen, stack) visits (explore rest seen stack) := by
  fun_induction explore rest seen stack with
  | case1 rest seen => exact ⟨0, Nat.zero_le _, .done⟩
  | case2 rest seen node stack hnode found ih =>
    have hentry : rest[node]? = some rest[node] := Std.ExtTreeMap.getElem?_eq_some_getElem hnode
    -- A visit takes its entry out of the rest, so there are at most as many visits as entries.
    obtain ⟨visits, hle, hruns⟩ := ih (h.visit hentry)
    have hlt := size_erase_lt hnode
    refine ⟨visits + 1, by omega, .visit (h.pending node List.mem_cons_self ▸ hentry) ?_⟩
    rwa [foldl_push]
  | case3 rest seen node stack hnode =>
    have hentry : graph[node]? = none := by
      rw [← h.pending node List.mem_cons_self]
      exact Std.ExtTreeMap.getElem?_eq_none hnode
    exact ⟨0, Nat.zero_le _, .missing hentry⟩

/-- Two graphs have entries for the same nodes and list the same children for each of them. -/
structure Alike (graph graph' : Graph α) : Prop where
  mem_iff : ∀ x, x ∈ graph ↔ x ∈ graph'
  children_iff : ∀ {x : α} {children children' : List α}, graph[x]? = some children →
    graph'[x]? = some children' → ∀ y, y ∈ children ↔ y ∈ children'

omit [Std.LawfulEqOrd α] [DecidableEq α] in
theorem Alike.symm (h : graph.Alike graph') : graph'.Alike graph where
  mem_iff x := (h.mem_iff x).symm
  children_iff hx hx' y := (h.children_iff hx' hx y).symm

omit [Std.LawfulEqOrd α] [DecidableEq α] in
theorem Alike.reaches (h : graph.Alike graph') {x : α} (hx : graph.Reaches root x) :
    graph'.Reaches root x := by
  induction hx with
  | root => exact .root
  | @step x y children _ hentry hy ih =>
    have hmem : x ∈ graph' :=
      (h.mem_iff x).1 (Std.ExtTreeMap.mem_iff_isSome_getElem?.2 (by simp [hentry]))
    have hentry' : graph'[x]? = some graph'[x] := Std.ExtTreeMap.getElem?_eq_some_getElem hmem
    exact ih.step hentry' ((h.children_iff hentry hentry' y).1 hy)

/-- What the search for the nodes that can be reached from a root does. -/
structure Searches (graph : Graph α) (root : α) : Prop where
  ends : EndsWithin (graph.Runs ({root}, [root])) graph.size (graph.reachableFrom root)
  fails_iff : (∃ x, graph.reachableFrom root = .error x) ↔ ∃ x, graph.Reaches root x ∧ x ∉ graph
  mem_iff : ∀ seen, graph.reachableFrom root = .ok seen → ∀ x, x ∈ seen ↔ graph.Reaches root x
  alike : ∀ graph', graph.Alike graph' →
    (graph'.reachableFrom root).toOption = (graph.reachableFrom root).toOption

theorem reachableFrom_eq_ok_iff : graph.reachableFrom root = .ok seen ↔
    (∀ x, x ∈ seen ↔ graph.Reaches root x) ∧ ∀ x, graph.Reaches root x → x ∈ graph := by
  constructor
  · intro h
    cases h ▸ found_reachableFrom graph root with
    | all hexact hentries => exact ⟨hexact, fun x hx => hentries x ((hexact x).2 hx)⟩
  · rintro ⟨hexact, hentries⟩
    obtain ⟨found, hfound, hmem⟩ := reachableFrom_eq_ok hentries
    obtain rfl : found = seen := Std.ExtTreeSet.ext_mem fun x => (hmem x).trans (hexact x).symm
    exact hfound

theorem searches (graph : Graph α) (root : α) : graph.Searches root where
  ends := by
    obtain ⟨visits, hle, hruns⟩ := (frontier_start graph root).runs
    exact ⟨⟨visits, hle, hruns⟩, fun _ _ hother => hruns.unique hother⟩
  fails_iff := by
    constructor
    · rintro ⟨x, hx⟩
      cases hx ▸ found_reachableFrom graph root with
      | missing hreached hmissing => exact ⟨x, hreached, hmissing⟩
    · rintro ⟨x, hreached, hmissing⟩
      cases hresult : graph.reachableFrom root with
      | ok seen => exact absurd ((reachableFrom_eq_ok_iff.1 hresult).2 x hreached) hmissing
      | error y => exact ⟨y, rfl⟩
  mem_iff seen h := (reachableFrom_eq_ok_iff.1 h).1
  alike graph' h := by
    have hreaches (x : α) : graph'.Reaches root x ↔ graph.Reaches root x :=
      ⟨h.symm.reaches, h.reaches⟩
    refine Option.ext fun seen => ?_
    rw [toOption_eq_some, toOption_eq_some, reachableFrom_eq_ok_iff, reachableFrom_eq_ok_iff]
    simp only [hreaches, h.mem_iff]

end Graph

namespace Fixpoint

variable {α : Type} [Ord α] [Std.TransOrd α]

/-- A pass over the candidates with a judgement that may fail: whether one of them joins the set,
and the set behind it. Each candidate is judged by the set as it is by then. -/
def sweep (judge : α → Std.ExtTreeSet α → Except α Bool) :
    List α → Std.ExtTreeSet α → Except α (Bool × Std.ExtTreeSet α)
  | [], known => .ok (false, known)
  | x :: xs, known =>
    if known.contains x then sweep judge xs known
    else
      match judge x known with
      | .error y => .error y
      | .ok false => sweep judge xs known
      | .ok true =>
        match sweep judge xs (known.insert x) with
        | .error y => .error y
        | .ok (_, grown) => .ok (true, grown)

/-- Passes over all candidates, again and again until no candidate joins the set or a judgement
fails. -/
inductive Settles (judge : α → Std.ExtTreeSet α → Except α Bool) (candidates : List α) :
    (known : Std.ExtTreeSet α) → (passes : Nat) → Except α (Std.ExtTreeSet α) → Prop where
  | fails {known : Std.ExtTreeSet α} {x : α} : sweep judge candidates known = .error x →
      Settles judge candidates known 1 (.error x)
  | rests {known grown : Std.ExtTreeSet α} : sweep judge candidates known = .ok (false, grown) →
      Settles judge candidates known 1 (.ok grown)
  | again {known grown : Std.ExtTreeSet α} {passes : Nat} {result : Except α (Std.ExtTreeSet α)} :
      sweep judge candidates known = .ok (true, grown) →
      Settles judge candidates grown passes result →
      Settles judge candidates known (passes + 1) result

/-- All passes from a set have the same result in the end. -/
theorem Settles.unique {judge : α → Std.ExtTreeSet α → Except α Bool} {candidates : List α}
    {known : Std.ExtTreeSet α} {passes passes' : Nat} {result result' : Except α (Std.ExtTreeSet α)}
    (h : Settles judge candidates known passes result)
    (h' : Settles judge candidates known passes' result') : result' = result := by
  induction h generalizing passes' with
  | fails hsweep =>
    cases h' with
    | fails hsweep' => cases hsweep.symm.trans hsweep'; rfl
    | rests hsweep' => cases hsweep.symm.trans hsweep'
    | again hsweep' => cases hsweep.symm.trans hsweep'
  | rests hsweep =>
    cases h' with
    | fails hsweep' => cases hsweep.symm.trans hsweep'
    | rests hsweep' => cases hsweep.symm.trans hsweep'; rfl
    | again hsweep' => cases hsweep.symm.trans hsweep'
  | again hsweep _ ih =>
    cases h' with
    | fails hsweep' => cases hsweep.symm.trans hsweep'
    | rests hsweep' => cases hsweep.symm.trans hsweep'
    | again hsweep' hsettles =>
      cases hsweep.symm.trans hsweep'
      exact ih hsettles

/-- So the loop ends if it settles within the bound. -/
theorem Settles.endsWithin {judge : α → Std.ExtTreeSet α → Except α Bool} {candidates : List α}
    {known : Std.ExtTreeSet α} {passes bound : Nat} {result : Except α (Std.ExtTreeSet α)}
    (h : Settles judge candidates known passes result) (hle : passes ≤ bound) :
    EndsWithin (Settles judge candidates known) bound result :=
  ⟨⟨passes, hle, h⟩, fun _ _ hother => h.unique hother⟩

/-- The judgement that never fails. -/
def sure (qualifies : α → Std.ExtTreeSet α → Bool) (x : α) (known : Std.ExtTreeSet α) :
    Except α Bool :=
  .ok (qualifies x known)

/-- Who qualifies for a set qualifies for every greater one. -/
def IsMonotone (qualifies : α → Std.ExtTreeSet α → Bool) : Prop :=
  ∀ x known known', (∀ y ∈ known, y ∈ known') → qualifies x known = true → qualifies x known' = true

/-- Every candidate that qualifies for the set is a member of it. -/
def IsClosed (qualifies : α → Std.ExtTreeSet α → Bool) (candidates : List α)
    (closed : Std.ExtTreeSet α) : Prop :=
  ∀ x ∈ candidates, qualifies x closed = true → x ∈ closed

/-- The members of the set are the candidates that qualify for it, and it is the least set with all
candidates that qualify for it. -/
structure IsLeast (qualifies : α → Std.ExtTreeSet α → Bool) (candidates : List α)
    (known : Std.ExtTreeSet α) : Prop where
  mem_iff : ∀ x, x ∈ known ↔ x ∈ candidates ∧ qualifies x known = true
  least : ∀ closed, IsClosed qualifies candidates closed → ∀ x ∈ known, x ∈ closed

variable {qualifies : α → Std.ExtTreeSet α → Bool} {candidates candidates' : List α}
  {known known' : Std.ExtTreeSet α}

/-- Only which candidates there are counts. -/
theorem IsLeast.congr (h : IsLeast qualifies candidates known)
    (hmem : ∀ x, x ∈ candidates ↔ x ∈ candidates') : IsLeast qualifies candidates' known where
  mem_iff x := by rw [h.mem_iff, hmem]
  least closed hclosed := h.least closed fun x hx => hclosed x ((hmem x).1 hx)

variable [Std.LawfulEqOrd α]

theorem IsLeast.unique (h : IsLeast qualifies candidates known)
    (h' : IsLeast qualifies candidates known') : known = known' := by
  refine Std.ExtTreeSet.ext_mem fun x => ⟨h.least known' ?_ x, h'.least known ?_ x⟩
  · exact fun y hy hq => (h'.mem_iff y).2 ⟨hy, hq⟩
  · exact fun y hy hq => (h.mem_iff y).2 ⟨hy, hq⟩

theorem isLeast_least (hmono : IsMonotone qualifies) (candidates : List α) :
    IsLeast qualifies candidates (least qualifies candidates) where
  mem_iff x := by
    constructor
    · refine least_induction (P := fun x => x ∈ candidates ∧ qualifies x _ = true)
        (fun x hx known hknown hq => ⟨hx, hmono x known _ (fun y hy => ?_) hq⟩) x
      exact least_closed (hknown y hy).1 (hknown y hy).2
    · exact fun ⟨hx, hq⟩ => least_closed hx hq
  least closed hclosed :=
    least_induction fun x hx known hknown hq => hclosed x hx (hmono x known closed hknown hq)

/-- What a pass whose judgement never fails does to a set inside a closed one: the set stays inside,
and either it is unchanged and closed itself, or a candidate from outside has joined it. -/
structure Sweeps (qualifies : α → Std.ExtTreeSet α → Bool) (candidates : List α)
    (closed known : Std.ExtTreeSet α) (joined : Bool) (grown : Std.ExtTreeSet α) : Prop where
  sweep_eq : sweep (sure qualifies) candidates known = .ok (joined, grown)
  grows : ∀ y ∈ known, y ∈ grown
  inside : ∀ y ∈ grown, y ∈ closed
  idle : joined = false → grown = known ∧ IsClosed qualifies candidates known
  joins : joined = true → ∃ x ∈ candidates, x ∉ known ∧ x ∈ grown

section Sweeps

variable {closed grown : Std.ExtTreeSet α} {joined : Bool} {x : α} {xs : List α}

omit [Std.LawfulEqOrd α] in
theorem Sweeps.skip (h : Sweeps qualifies xs closed known joined grown)
    (hx : known.contains x = true ∨ qualifies x known = false) :
    Sweeps qualifies (x :: xs) closed known joined grown where
  sweep_eq := by
    rw [sweep, ← h.sweep_eq]
    split
    · rfl
    · next hout => rw [sure, hx.resolve_left hout]
  grows := h.grows
  inside := h.inside
  idle hjoined := by
    obtain ⟨heq, hclosed⟩ := h.idle hjoined
    refine ⟨heq, List.forall_mem_cons.2 ⟨fun hq => ?_, hclosed⟩⟩
    exact Std.ExtTreeSet.contains_iff_mem.1 (hx.resolve_right (by simp [hq]))
  joins hjoined :=
    let ⟨y, hy, hnew⟩ := h.joins hjoined
    ⟨y, List.mem_cons_of_mem _ hy, hnew⟩

omit [Std.LawfulEqOrd α] in
theorem Sweeps.join (h : Sweeps qualifies xs closed (known.insert x) joined grown)
    (hx : ¬known.contains x = true) (hq : qualifies x known = true) :
    Sweeps qualifies (x :: xs) closed known true grown where
  sweep_eq := by rw [sweep, if_neg hx, sure, hq, h.sweep_eq]
  grows y hy := h.grows y (Std.ExtTreeSet.mem_insert.2 (.inr hy))
  inside := h.inside
  idle := nofun
  joins _ := ⟨x, List.mem_cons_self, fun hin => hx (Std.ExtTreeSet.contains_iff_mem.2 hin),
    h.grows x Std.ExtTreeSet.mem_insert_self⟩

theorem exists_sweeps (hmono : IsMonotone qualifies) (hclosed : IsClosed qualifies xs closed)
    (hknown : ∀ y ∈ known, y ∈ closed) :
    ∃ joined grown, Sweeps qualifies xs closed known joined grown := by
  induction xs generalizing known with
  | nil => exact ⟨false, known, rfl, fun _ hy => hy, hknown, fun _ => ⟨rfl, nofun⟩, nofun⟩
  | cons x xs ih =>
    obtain ⟨hhead, htail⟩ := List.forall_mem_cons.1 hclosed
    by_cases hx : known.contains x = true
    · obtain ⟨joined, grown, h⟩ := ih htail hknown
      exact ⟨joined, grown, h.skip (.inl hx)⟩
    · cases hq : qualifies x known with
      | false =>
        obtain ⟨joined, grown, h⟩ := ih htail hknown
        exact ⟨joined, grown, h.skip (.inr hq)⟩
      | true =>
        have hin : x ∈ closed := hhead (hmono x known closed hknown hq)
        obtain ⟨joined, grown, h⟩ := ih htail (forall_mem_insert hin hknown)
        exact ⟨true, grown, h.join hx hq⟩

end Sweeps

/-- The candidates outside a set. -/
def outside (candidates : List α) (known : Std.ExtTreeSet α) : List α :=
  candidates.filter (!known.contains ·)

omit [Std.LawfulEqOrd α] in
theorem length_outside_lt {grown : Std.ExtTreeSet α} (hgrows : ∀ y ∈ known, y ∈ grown)
    (hjoins : ∃ x ∈ candidates, x ∉ known ∧ x ∈ grown) :
    (outside candidates grown).length < (outside candidates known).length := by
  have hsub : outside candidates grown = (outside candidates known).filter (!grown.contains ·) := by
    rw [outside, outside, List.filter_filter]
    refine List.filter_congr fun x _ => ?_
    by_cases hx : x ∈ known
    · simp [Std.ExtTreeSet.contains_iff_mem.2 (hgrows x hx)]
    · simp [Bool.eq_false_iff.2 (mt Std.ExtTreeSet.contains_iff_mem.1 hx)]
  rw [hsub, List.length_filter_lt_length_iff_exists]
  obtain ⟨x, hmem, hout, hin⟩ := hjoins
  have hcontains : known.contains x = false :=
    Bool.eq_false_iff.2 (mt Std.ExtTreeSet.contains_iff_mem.1 hout)
  exact ⟨x, List.mem_filter.2 ⟨hmem, by simp [hcontains]⟩, by simpa using hin⟩

/-- The loop ends with the least fixpoint if it begins inside it. -/
theorem exists_settles (hmono : IsMonotone qualifies)
    (hknown : ∀ y ∈ known, y ∈ least qualifies candidates) :
    ∃ passes ≤ (outside candidates known).length + 1,
      Settles (sure qualifies) candidates known passes (.ok (least qualifies candidates)) := by
  have hleast := isLeast_least hmono candidates
  have hclosed : IsClosed qualifies candidates (least qualifies candidates) :=
    fun x hx hq => least_closed hx hq
  -- The induction is on the number of candidates still outside: a pass that joins none is the last.
  induction hn : (outside candidates known).length using Nat.strongRecOn generalizing known with
  | ind n ih =>
    obtain ⟨joined, grown, h⟩ := exists_sweeps hmono hclosed hknown
    cases joined with
    | false =>
      obtain ⟨rfl, hidle⟩ := h.idle rfl
      have heq : grown = least qualifies candidates :=
        Std.ExtTreeSet.ext_mem fun x => ⟨hknown x, hleast.least grown hidle x⟩
      exact ⟨1, Nat.le_add_left 1 n, heq ▸ .rests h.sweep_eq⟩
    | true =>
      have hlt := length_outside_lt h.grows (h.joins rfl)
      obtain ⟨passes, hle, hsettles⟩ := ih _ (hn ▸ hlt) h.inside rfl
      exact ⟨passes + 1, by omega, .again h.sweep_eq hsettles⟩

/-- What growing a set from nothing does. -/
structure Grows (qualifies : α → Std.ExtTreeSet α → Bool) (candidates : List α) : Prop where
  ends : EndsWithin (Settles (sure qualifies) candidates ∅) (candidates.length + 1)
    (.ok (least qualifies candidates))
  isLeast : IsLeast qualifies candidates (least qualifies candidates)
  congr : ∀ candidates', (∀ x, x ∈ candidates ↔ x ∈ candidates') →
    least qualifies candidates' = least qualifies candidates

theorem grows (hmono : IsMonotone qualifies) (candidates : List α) :
    Grows qualifies candidates where
  ends := by
    have hempty : ∀ y ∈ (∅ : Std.ExtTreeSet α), y ∈ least qualifies candidates :=
      fun y hy => absurd hy Std.ExtTreeSet.not_mem_empty
    obtain ⟨passes, hle, hsettles⟩ := exists_settles hmono hempty
    have hlength : (outside candidates ∅).length ≤ candidates.length := List.length_filter_le ..
    exact hsettles.endsWithin (by omega)
  isLeast := isLeast_least hmono candidates
  congr candidates' hmem :=
    (isLeast_least hmono candidates').unique ((isLeast_least hmono candidates).congr hmem)

end Fixpoint

namespace Clauses

open Fixpoint

variable {α : Type} [Ord α] [Std.TransOrd α] {clauses : Clauses α} {candidates : List α}

/-- Whether some clause of a candidate has all its members in the set. It fails for a candidate
without clauses. -/
def judge (clauses : Clauses α) (x : α) (known : Std.ExtTreeSet α) : Except α Bool :=
  match clauses[x]? with
  | some bodies => .ok (bodies.any fun body => body.all known.contains)
  | none => .error x

theorem isMonotone_holds (clauses : Clauses α) : IsMonotone clauses.holds := by
  intro x known known' hsub h
  obtain ⟨bodies, hentry, body, hbody, hall⟩ := holds_iff.1 h
  exact holds_iff.2 ⟨bodies, hentry, body, hbody, fun y hy => hsub y (hall y hy)⟩

theorem judge_of_mem {x : α} (hx : x ∈ clauses) (known : Std.ExtTreeSet α) :
    clauses.judge x known = sure clauses.holds x known := by
  have hentry : clauses[x]? = some clauses[x] := Std.ExtTreeMap.getElem?_eq_some_getElem hx
  rw [judge, sure, holds, Std.ExtTreeMap.getD_eq_getD_getElem?, hentry, Option.getD_some]

theorem sweep_judge (h : ∀ x ∈ candidates, x ∈ clauses) (known : Std.ExtTreeSet α) :
    sweep clauses.judge candidates known = sweep (sure clauses.holds) candidates known := by
  induction candidates generalizing known with
  | nil => rfl
  | cons x xs ih =>
    obtain ⟨hx, hxs⟩ := List.forall_mem_cons.1 h
    rw [sweep, sweep, judge_of_mem hx, ih hxs, ih hxs]

theorem settles_judge (h : ∀ x ∈ candidates, x ∈ clauses) {known : Std.ExtTreeSet α} {passes : Nat}
    {result : Except α (Std.ExtTreeSet α)}
    (hsettles : Settles (sure clauses.holds) candidates known passes result) :
    Settles clauses.judge candidates known passes result := by
  induction hsettles with
  | fails hsweep => exact .fails ((sweep_judge h _).trans hsweep)
  | rests hsweep => exact .rests ((sweep_judge h _).trans hsweep)
  | again hsweep _ ih => exact .again ((sweep_judge h _).trans hsweep) ih

variable [Std.LawfulEqOrd α]

/-- A candidate without clauses never joins, so the first pass fails at the first such one. -/
theorem sweep_judge_error {known : Std.ExtTreeSet α} {x : α}
    (hknown : ∀ y ∈ known, y ∈ clauses)
    (h : candidates.find? (fun x => !clauses.contains x) = some x) :
    sweep clauses.judge candidates known = .error x := by
  induction candidates generalizing known with
  | nil => cases h
  | cons y ys ih =>
    rw [List.find?_cons] at h
    -- The pass goes on until the first candidate that has no clause, whatever joins before it.
    cases hy : clauses.contains y with
    | true =>
      have hmem : y ∈ clauses := Std.ExtTreeMap.contains_iff_mem.1 hy
      rw [hy] at h
      rw [sweep, judge_of_mem hmem, ih hknown h]
      split
      · rfl
      · cases hq : clauses.holds y known with
        | false => rw [sure, hq]
        | true => rw [sure, hq, ih (forall_mem_insert hmem hknown) h]
    | false =>
      have hmissing : y ∉ clauses :=
        mt Std.ExtTreeMap.contains_iff_mem.2 (Bool.eq_false_iff.1 hy)
      rw [hy] at h
      obtain rfl := Option.some.inj h
      have hout : ¬known.contains y = true := fun hin =>
        hmissing (hknown y (Std.ExtTreeSet.contains_iff_mem.1 hin))
      rw [sweep, if_neg hout, judge, Std.ExtTreeMap.getElem?_eq_none hmissing]

omit [Std.LawfulEqOrd α] in
theorem closure_of_forall (h : ∀ x ∈ candidates, x ∈ clauses) :
    clauses.closure candidates = .ok (Fixpoint.least clauses.holds candidates) := by
  have hnone : (candidates.find? fun x => !clauses.contains x) = none := by
    simpa using h
  rw [closure, hnone]

theorem exists_closure_error (h : ∃ x ∈ candidates, x ∉ clauses) :
    ∃ x, clauses.closure candidates = .error x ∧
      Settles clauses.judge candidates ∅ 1 (.error x) := by
  have hsome : (candidates.find? fun x => !clauses.contains x).isSome := by
    obtain ⟨x, hx, hmissing⟩ := h
    have hcontains : clauses.contains x = false :=
      Bool.eq_false_iff.2 (mt Std.ExtTreeMap.contains_iff_mem.1 hmissing)
    exact List.find?_isSome.2 ⟨x, hx, by rw [hcontains]; rfl⟩
  obtain ⟨x, hx⟩ := Option.isSome_iff_exists.1 hsome
  have hempty : ∀ y ∈ (∅ : Std.ExtTreeSet α), y ∈ clauses :=
    fun y hy => absurd hy Std.ExtTreeSet.not_mem_empty
  exact ⟨x, by rw [closure, hx], .fails (sweep_judge_error hempty hx)⟩

/-- What the closure under clauses does. -/
structure Closes (clauses : Clauses α) (candidates : List α) : Prop where
  ends : EndsWithin (Settles clauses.judge candidates ∅) (candidates.length + 1)
    (clauses.closure candidates)
  fails_iff : (∃ x, clauses.closure candidates = .error x) ↔ ∃ x ∈ candidates, x ∉ clauses
  isLeast : ∀ known, clauses.closure candidates = .ok known →
    IsLeast clauses.holds candidates known
  congr : ∀ candidates', (∀ x, x ∈ candidates ↔ x ∈ candidates') →
    (clauses.closure candidates').toOption = (clauses.closure candidates).toOption

theorem closes (clauses : Clauses α) (candidates : List α) : clauses.Closes candidates := by
  by_cases hall : ∀ x ∈ candidates, x ∈ clauses
  · have hclosure := closure_of_forall hall
    have hgrows := grows (isMonotone_holds clauses) candidates
    refine ⟨?_, ?_, fun known hknown => ?_, fun candidates' hmem => ?_⟩
    · obtain ⟨passes, hle, hsettles⟩ := hgrows.ends.ends
      exact hclosure ▸ (settles_judge hall hsettles).endsWithin hle
    · rw [hclosure]
      exact ⟨fun ⟨x, hx⟩ => (nomatch hx), fun ⟨x, hx, hmissing⟩ => absurd (hall x hx) hmissing⟩
    · obtain rfl := Except.ok.inj (hclosure.symm.trans hknown)
      exact hgrows.isLeast
    · rw [hclosure, closure_of_forall fun x hx => hall x ((hmem x).2 hx), hgrows.congr _ hmem]
  · have hexists : ∃ x ∈ candidates, x ∉ clauses := by simpa using hall
    obtain ⟨x, hclosure, hsettles⟩ := exists_closure_error hexists
    refine ⟨?_, ⟨fun _ => hexists, fun _ => ⟨x, hclosure⟩⟩, fun known hknown => ?_,
      fun candidates' hmem => ?_⟩
    · exact hclosure ▸ hsettles.endsWithin (Nat.le_add_left 1 _)
    · cases hclosure.symm.trans hknown
    · obtain ⟨y, hy, hmissing⟩ := hexists
      obtain ⟨z, hclosure', -⟩ := exists_closure_error ⟨y, (hmem y).1 hy, hmissing⟩
      rw [hclosure, hclosure']
      rfl

end Clauses

/-- A search ends and visits no more nodes than the graph has. It fails exactly if a node without
entry can be reached, and otherwise it finds the nodes that can be reached; how often and in which
order children are listed makes no difference. Growing a set by a monotone predicate ends, too, and
gives the least set with all candidates that qualify for it, in whatever order and however often
they are listed. The same holds of the closure under clauses, which fails exactly if a candidate has
none. -/
theorem worklists_exact {α : Type} [Ord α] [Std.TransOrd α] [Std.LawfulEqOrd α] [DecidableEq α] :
    (∀ (graph : Graph α) (root : α), graph.Searches root) ∧
    (∀ qualifies : α → Std.ExtTreeSet α → Bool, Fixpoint.IsMonotone qualifies →
      ∀ candidates, Fixpoint.Grows qualifies candidates) ∧
    ∀ (clauses : Clauses α) (candidates : List α),
      Fixpoint.IsMonotone clauses.holds ∧ clauses.Closes candidates :=
  ⟨Graph.searches, fun _ => Fixpoint.grows,
    fun clauses candidates => ⟨clauses.isMonotone_holds, clauses.closes candidates⟩⟩

/-- A graph with a cycle, in which `d` leads to a node without entry. -/
def roundabout : Graph String :=
  .ofList [("a", ["b", "b", "a"]), ("b", ["c", "a"]), ("c", []), ("d", ["c", "e"])]

/-- Clauses by which `a`, `b` and `c` join one after the other, and `d` never does. -/
def ladder : Clauses String :=
  .ofList [("a", [[]]), ("b", [["a"]]), ("c", [["d"], ["b", "a"]]), ("d", [["d"]])]

theorem worklists_exact_strings :
    roundabout.Reaches "a" "c" ∧ ¬roundabout.Reaches "a" "d" ∧
    (∃ x, roundabout.Reaches "d" x ∧ x ∉ roundabout) ∧
    Fixpoint.IsMonotone ladder.holds ∧
    Fixpoint.least ladder.holds ["d", "c", "b", "a", "c"] =
      Fixpoint.least ladder.holds ["a", "b", "c", "d"] ∧
    (∃ x, ladder.closure ["c", "z", "a"] = .error x) := by
  obtain ⟨hsearch, hgrow, hclose⟩ := @worklists_exact String _ _ _ _
  obtain ⟨hmono, hclosure⟩ := hclose ladder ["c", "z", "a"]
  have hfound : (roundabout.reachableFrom "a").toOption.any
      (fun seen => seen.contains "c" && !seen.contains "d") = true := by decide +kernel
  obtain ⟨seen, hseen, hmem⟩ := (Option.any_eq_true _ _).1 hfound
  rw [Bool.and_eq_true, Std.ExtTreeSet.contains_iff_mem, Bool.not_eq_true',
    Bool.eq_false_iff, ne_eq, Std.ExtTreeSet.contains_iff_mem] at hmem
  have hreaches := (hsearch roundabout "a").mem_iff seen (toOption_eq_some.1 hseen)
  have hfails : (roundabout.reachableFrom "d").toOption.isNone = true := by decide +kernel
  refine ⟨(hreaches "c").1 hmem.1, mt (hreaches "d").2 hmem.2, ?_, hmono, ?_, ?_⟩
  · rw [← (hsearch roundabout "d").fails_iff]
    cases hresult : roundabout.reachableFrom "d" with
    | ok seen =>
      rw [hresult] at hfails
      cases hfails
    | error x => exact ⟨x, rfl⟩
  · exact (hgrow ladder.holds hmono ["a", "b", "c", "d"]).congr _ fun x => by grind
  · exact hclosure.fails_iff.2 ⟨"z", by simp, by decide +kernel⟩

end ContextFree
