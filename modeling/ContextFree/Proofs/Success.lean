import ContextFree.Fault

/-! # Computations that succeed

A sequence of computations that may fail succeeds exactly if each of them does, and it fails as one
of them does. What is known of the single results is then known of all.
-/

namespace ContextFree

variable {ε α β γ : Type}

theorem bind_eq_ok {x : Except ε α} {f : α → Except ε β} {b : β} :
    x >>= f = .ok b ↔ ∃ a, x = .ok a ∧ f a = .ok b := by
  cases x with
  | error e => simp [bind, Except.bind]
  | ok a => simp [bind, Except.bind]

theorem bind_eq_error {x : Except ε α} {f : α → Except ε β} {e : ε} :
    x >>= f = .error e ↔ x = .error e ∨ ∃ a, x = .ok a ∧ f a = .error e := by
  cases x with
  | error e' => simp [bind, Except.bind]
  | ok a => simp [bind, Except.bind]

theorem mapM_eq_ok {f : α → Except ε β} {k : α → β} {xs : List α}
    (hf : ∀ x ∈ xs, f x = .ok (k x)) : xs.mapM f = .ok (xs.map k) := by
  induction xs with
  | nil => rfl
  | cons x xs ih =>
    rw [List.mapM_cons, hf x List.mem_cons_self, ih fun y hy => hf y (List.mem_cons_of_mem _ hy)]
    rfl

theorem mapM_cons_eq_ok {f : α → Except ε β} {x : α} {xs : List α} {ys : List β} :
    (x :: xs).mapM f = .ok ys ↔ ∃ y ys', f x = .ok y ∧ xs.mapM f = .ok ys' ∧ ys = y :: ys' := by
  rw [List.mapM_cons, bind_eq_ok]
  simp only [bind_eq_ok, pure, Except.pure, Except.ok.injEq]
  constructor
  · rintro ⟨y, hy, ys', hys, rfl⟩
    exact ⟨y, ys', hy, hys, rfl⟩
  · rintro ⟨y, ys', hy, hys, rfl⟩
    exact ⟨y, hy, ys', hys, rfl⟩

/-- Where values determine what they were made from, so do lists of values. -/
theorem mapM_eq_ok_iff {f : α → Except ε β} {k : β → α} {P : β → Prop}
    (hf : ∀ x y, f x = .ok y ↔ x = k y ∧ P y) {xs : List α} {ys : List β} :
    xs.mapM f = .ok ys ↔ xs = ys.map k ∧ ∀ y ∈ ys, P y := by
  induction xs generalizing ys with
  | nil =>
    rw [List.mapM_nil]
    cases ys <;> simp [pure, Except.pure]
  | cons x xs ih =>
    rw [mapM_cons_eq_ok]
    constructor
    · rintro ⟨y, ys, hy, hys, rfl⟩
      obtain ⟨rfl, hP⟩ := (hf x y).1 hy
      obtain ⟨rfl, hall⟩ := ih.1 hys
      exact ⟨rfl, List.forall_mem_cons.2 ⟨hP, hall⟩⟩
    · rintro ⟨hxs, hall⟩
      cases ys with
      | nil => cases hxs
      | cons y ys =>
        obtain ⟨rfl, rfl⟩ := List.cons.inj hxs
        obtain ⟨hP, hall⟩ := List.forall_mem_cons.1 hall
        exact ⟨y, ys, (hf _ y).2 ⟨rfl, hP⟩, ih.2 ⟨rfl, hall⟩, rfl⟩

/-- Where conditions decide about success, all of them have to hold. -/
theorem mapM_eq_ok_iff_forall {f : α → Except ε β} {k : α → β} {P : α → Prop}
    (hf : ∀ x y, f x = .ok y ↔ P x ∧ y = k x) {xs : List α} {ys : List β} :
    xs.mapM f = .ok ys ↔ (∀ x ∈ xs, P x) ∧ ys = xs.map k := by
  induction xs generalizing ys with
  | nil =>
    constructor
    · intro h
      cases h
      exact ⟨by simp, rfl⟩
    · rintro ⟨-, rfl⟩
      rfl
  | cons x xs ih =>
    rw [mapM_cons_eq_ok]
    simp only [hf, ih]
    constructor
    · rintro ⟨y, ys, ⟨hx, rfl⟩, ⟨hxs, rfl⟩, rfl⟩
      exact ⟨List.forall_mem_cons.2 ⟨hx, hxs⟩, rfl⟩
    · rintro ⟨hall, rfl⟩
      obtain ⟨hx, hxs⟩ := List.forall_mem_cons.1 hall
      exact ⟨_, _, ⟨hx, rfl⟩, ⟨hxs, rfl⟩, rfl⟩

theorem exists_of_mapM_eq_ok {f : α → Except ε β} {xs : List α} {ys : List β}
    (h : xs.mapM f = .ok ys) : ∀ y ∈ ys, ∃ x ∈ xs, f x = .ok y := by
  induction xs generalizing ys with
  | nil =>
    cases h
    simp
  | cons x xs ih =>
    obtain ⟨y, ys', hy, hys, rfl⟩ := mapM_cons_eq_ok.1 h
    intro z hz
    rcases List.mem_cons.1 hz with rfl | hz
    · exact ⟨x, List.mem_cons_self, hy⟩
    · obtain ⟨x', hx', hz⟩ := ih hys z hz
      exact ⟨x', List.mem_cons_of_mem _ hx', hz⟩

theorem exists_mem_of_mapM_eq_ok {f : α → Except ε β} {xs : List α} {ys : List β}
    (h : xs.mapM f = .ok ys) : ∀ x ∈ xs, ∃ y ∈ ys, f x = .ok y := by
  induction xs generalizing ys with
  | nil => simp
  | cons x xs ih =>
    obtain ⟨y, ys', hy, hys, rfl⟩ := mapM_cons_eq_ok.1 h
    intro z hz
    rcases List.mem_cons.1 hz with rfl | hz
    · exact ⟨y, List.mem_cons_self, hy⟩
    · obtain ⟨y', hy', hz⟩ := ih hys z hz
      exact ⟨y', List.mem_cons_of_mem _ hy', hz⟩

/-- The values of a list in another order are collected in another order. -/
theorem exists_perm_of_mapM_eq_ok {f : α → Except ε β} {xs xs' : List α} {ys : List β}
    (hperm : xs.Perm xs') (h : xs.mapM f = .ok ys) :
    ∃ ys', xs'.mapM f = .ok ys' ∧ ys.Perm ys' := by
  induction hperm generalizing ys with
  | nil => exact ⟨ys, h, .refl ys⟩
  | cons x _ ih =>
    obtain ⟨y, ys, hy, hys, rfl⟩ := mapM_cons_eq_ok.1 h
    obtain ⟨ys', hys', hperm⟩ := ih hys
    exact ⟨y :: ys', mapM_cons_eq_ok.2 ⟨y, ys', hy, hys', rfl⟩, hperm.cons y⟩
  | swap x x' xs =>
    obtain ⟨y', rest, hy', hrest, rfl⟩ := mapM_cons_eq_ok.1 h
    obtain ⟨y, ys, hy, hys, rfl⟩ := mapM_cons_eq_ok.1 hrest
    have hrest' := mapM_cons_eq_ok.2 ⟨y', ys, hy', hys, rfl⟩
    exact ⟨_, mapM_cons_eq_ok.2 ⟨y, _, hy, hrest', rfl⟩, .swap y y' ys⟩
  | trans _ _ ih ih' =>
    obtain ⟨ys', hys', hperm⟩ := ih h
    obtain ⟨ys'', hys'', hperm'⟩ := ih' hys'
    exact ⟨ys'', hys'', hperm.trans hperm'⟩

theorem forM_eq_ok {f : α → Except ε Unit} {xs : List α} :
    xs.forM f = .ok () ↔ ∀ x ∈ xs, f x = .ok () := by
  induction xs with
  | nil => simp [pure, Except.pure]
  | cons x xs ih =>
    rw [List.forM_eq_forM] at ih
    rw [List.forM_eq_forM, List.forM_cons, bind_eq_ok, List.forall_mem_cons, ← ih]
    constructor
    · rintro ⟨⟨⟩, hx, hxs⟩
      exact ⟨hx, hxs⟩
    · rintro ⟨hx, hxs⟩
      exact ⟨(), hx, hxs⟩

theorem exists_of_forM_eq_error {f : α → Except ε Unit} {xs : List α} {e : ε}
    (h : xs.forM f = .error e) : ∃ x ∈ xs, f x = .error e := by
  induction xs with
  | nil => cases h
  | cons x xs ih =>
    rw [List.forM_eq_forM] at ih h
    rw [List.forM_cons, bind_eq_error] at h
    rcases h with h | ⟨_, -, h⟩
    · exact ⟨x, List.mem_cons_self, h⟩
    · obtain ⟨y, hy, hfy⟩ := ih h
      exact ⟨y, List.mem_cons_of_mem _ hy, hfy⟩

end ContextFree
