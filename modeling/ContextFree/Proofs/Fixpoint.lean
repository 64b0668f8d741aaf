import ContextFree.Fixpoint

/-! # What a least fixpoint holds

The set that grows from nothing has two properties, whatever qualifies a candidate. A property
that passes from the members of a set to whoever qualifies for it holds of all members; and a
candidate that qualifies in the end is a member.
-/

namespace ContextFree

namespace Fixpoint

variable {α : Type} [Ord α] [Std.TransOrd α]
  {qualifies : α → Std.ExtTreeSet α → Bool} {candidates : List α} {known : Std.ExtTreeSet α}
  {P : α → Prop}

theorem mem_pass {x : α} (hx : x ∈ known) : x ∈ (pass qualifies candidates known).2 := by
  fun_induction pass qualifies candidates known with
  | case1 => exact hx
  | case2 y ys known _ ih => exact ih (Std.ExtTreeSet.mem_insert.2 (.inr hx))
  | case3 y ys known _ rest ih => exact ih hx

theorem pass_covers {x : α} (hx : x ∈ candidates) :
    x ∈ (pass qualifies candidates known).1 ∨ x ∈ (pass qualifies candidates known).2 := by
  fun_induction pass qualifies candidates known with
  | case1 => cases hx
  | case2 y ys known _ ih =>
    rcases List.mem_cons.1 hx with rfl | hx
    · exact .inr (mem_pass Std.ExtTreeSet.mem_insert_self)
    · exact ih hx
  | case3 y ys known _ rest ih =>
    rcases List.mem_cons.1 hx with rfl | hx
    · exact .inl List.mem_cons_self
    · exact (ih hx).imp_left (List.mem_cons_of_mem _)

theorem pass_sublist : (pass qualifies candidates known).1.Sublist candidates := by
  fun_induction pass qualifies candidates known with
  | case1 => exact .slnil
  | case2 y ys known _ ih => exact ih.cons y
  | case3 y ys known _ rest ih => exact ih.cons_cons y

/-- When no candidate joins the set, the set is unchanged and none of them qualifies. -/
theorem pass_idle
    (h : candidates.length ≤ (pass qualifies candidates known).1.length) :
    (pass qualifies candidates known).2 = known ∧ ∀ x ∈ candidates, qualifies x known = false := by
  fun_induction pass qualifies candidates known with
  | case1 => exact ⟨rfl, fun _ hx => nomatch hx⟩
  | case2 y ys known _ ih =>
    have hsub : (pass qualifies ys (known.insert y)).1.Sublist ys := pass_sublist
    have hle := hsub.length_le
    rw [List.length_cons] at h
    omega
  | case3 y ys known hy rest ih =>
    simp only [List.length_cons, Nat.add_le_add_iff_right] at h
    obtain ⟨hknown, hys⟩ := ih h
    refine ⟨hknown, fun x hx => ?_⟩
    rcases List.mem_cons.1 hx with rfl | hx
    · simp only [Bool.or_eq_true, not_or, Bool.not_eq_true] at hy
      exact hy.2
    · exact hys x hx

theorem mem_grow {x : α} (hx : x ∈ known) : x ∈ grow qualifies candidates known := by
  fun_induction grow qualifies candidates known with
  | case1 candidates known next _ ih => exact ih (mem_pass hx)
  | case2 candidates known next _ => exact mem_pass hx

theorem grow_closed {x : α} (hx : x ∈ candidates)
    (hq : qualifies x (grow qualifies candidates known) = true) :
    x ∈ grow qualifies candidates known := by
  fun_induction grow qualifies candidates known with
  | case1 candidates known next _ ih =>
    have hcovers : x ∈ next.1 ∨ x ∈ next.2 := pass_covers hx
    rcases hcovers with hrest | hmem
    · exact ih hrest hq
    · exact mem_grow hmem
  | case2 candidates known next hidle =>
    obtain ⟨hsame, hnone⟩ := pass_idle (Nat.not_lt.1 hidle)
    have hfalse := hnone x hx
    simp only [next, hsame, hfalse, Bool.false_eq_true] at hq

variable [Std.LawfulEqOrd α]

theorem forall_mem_insert {x : α} (hx : P x) (hknown : ∀ y ∈ known, P y) :
    ∀ y ∈ known.insert x, P y := by
  intro y hy
  rcases Std.ExtTreeSet.mem_insert.1 hy with heq | hy
  · exact Std.LawfulEqOrd.eq_of_compare heq ▸ hx
  · exact hknown y hy

theorem forall_mem_pass
    (hstep : ∀ x ∈ candidates, ∀ known, (∀ y ∈ known, P y) → qualifies x known = true → P x)
    (hknown : ∀ y ∈ known, P y) : ∀ y ∈ (pass qualifies candidates known).2, P y := by
  fun_induction pass qualifies candidates known with
  | case1 => exact hknown
  | case2 x xs known hx ih =>
    refine ih (fun y hy => hstep y (List.mem_cons_of_mem _ hy)) (forall_mem_insert ?_ hknown)
    rcases Bool.or_eq_true _ _ ▸ hx with hmem | hq
    · exact hknown x (Std.ExtTreeSet.contains_iff_mem.1 hmem)
    · exact hstep x List.mem_cons_self known hknown hq
  | case3 x xs known _ rest ih => exact ih (fun y hy => hstep y (List.mem_cons_of_mem _ hy)) hknown

theorem forall_mem_grow
    (hstep : ∀ x ∈ candidates, ∀ known, (∀ y ∈ known, P y) → qualifies x known = true → P x)
    (hknown : ∀ y ∈ known, P y) : ∀ y ∈ grow qualifies candidates known, P y := by
  fun_induction grow qualifies candidates known with
  | case1 candidates known next _ ih =>
    exact ih (fun x hx => hstep x (pass_sublist.subset hx)) (forall_mem_pass hstep hknown)
  | case2 candidates known next _ => exact forall_mem_pass hstep hknown

/-- A property that passes from the members of any set to whoever qualifies for it holds of all
members of the fixpoint. -/
theorem least_induction
    (hstep : ∀ x ∈ candidates, ∀ known, (∀ y ∈ known, P y) → qualifies x known = true → P x) :
    ∀ x ∈ least qualifies candidates, P x :=
  forall_mem_grow hstep fun _ hy => absurd hy Std.ExtTreeSet.not_mem_empty

omit [Std.LawfulEqOrd α] in
/-- Every candidate that qualifies for the fixpoint is a member of it. -/
theorem least_closed {x : α} (hx : x ∈ candidates)
    (hq : qualifies x (least qualifies candidates) = true) : x ∈ least qualifies candidates :=
  grow_closed hx hq

theorem least_subset {x : α} (hx : x ∈ least qualifies candidates) : x ∈ candidates :=
  least_induction (P := (· ∈ candidates)) (fun _ hx _ _ _ => hx) x hx

end Fixpoint

namespace Clauses

variable {α : Type} [Ord α] [Std.TransOrd α] {clauses : Clauses α} {x : α}
  {known : Std.ExtTreeSet α}

theorem holds_iff : clauses.holds x known = true ↔
    ∃ bodies, clauses[x]? = some bodies ∧ ∃ body ∈ bodies, ∀ y ∈ body, y ∈ known := by
  rw [holds, Std.ExtTreeMap.getD_eq_getD_getElem?]
  cases clauses[x]? <;> simp

end Clauses

end ContextFree
