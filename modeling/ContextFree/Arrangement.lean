/-! # Arranging by a key

The members of a list are put in the ascending order of a key. Members with the same key keep
the order in which they stand, so a list that is in order is left as it is.
-/

namespace ContextFree

variable {α κ : Type} [Ord κ]

/-- Puts a member in front of the first one whose key is not less. -/
def placeBy (key : α → κ) (x : α) : List α → List α
  | [] => [x]
  | y :: ys =>
    if (compare (key x) (key y)).isLE then x :: y :: ys else y :: placeBy key x ys

/-- The members of a list in the ascending order of a key. -/
def arrangeBy (key : α → κ) : List α → List α
  | [] => []
  | x :: xs => placeBy key x (arrangeBy key xs)

/-- Placing a member adds it and nothing else. -/
theorem placeBy_perm (key : α → κ) (x : α) (ys : List α) : (placeBy key x ys).Perm (x :: ys) := by
  induction ys with
  | nil => exact .refl _
  | cons y ys ih =>
    rw [placeBy]
    split
    · exact .refl _
    · exact (ih.cons y).trans (.swap x y ys)

/-- Arranging loses and repeats no member. -/
theorem arrangeBy_perm (key : α → κ) (xs : List α) : (arrangeBy key xs).Perm xs := by
  induction xs with
  | nil => exact .refl _
  | cons x xs ih => exact (placeBy_perm key x _).trans (ih.cons x)

@[simp] theorem mem_arrangeBy {key : α → κ} {x : α} {xs : List α} :
    x ∈ arrangeBy key xs ↔ x ∈ xs :=
  (arrangeBy_perm key xs).mem_iff

/-- A list in the order of the key is left as it is. -/
theorem arrangeBy_of_pairwise {key : α → κ} {xs : List α}
    (h : xs.Pairwise fun x y => (compare (key x) (key y)).isLE) : arrangeBy key xs = xs := by
  induction h with
  | nil => rfl
  | @cons x xs first _ ih =>
    rw [arrangeBy, ih]
    cases xs with
    | nil => rfl
    | cons y ys => rw [placeBy, if_pos (first y (List.mem_cons_self ..))]

/-- An arranged list is in the order of the key. -/
theorem pairwise_arrangeBy [Std.TransOrd κ] (key : α → κ) (xs : List α) :
    (arrangeBy key xs).Pairwise fun x y => (compare (key x) (key y)).isLE := by
  induction xs with
  | nil => exact .nil
  | cons x xs ih =>
    rw [arrangeBy]
    generalize arrangeBy key xs = ys at ih
    induction ih with
    | nil => exact .cons (by simp) .nil
    | @cons y ys first rest ih =>
      rw [placeBy]
      split
      · next le =>
        refine .cons (fun z hz => ?_) (.cons first rest)
        rcases List.mem_cons.1 hz with rfl | hz
        · exact le
        · exact Std.TransCmp.isLE_trans le (first z hz)
      · next gt =>
        refine .cons (fun z hz => ?_) ih
        rcases List.mem_cons.1 ((placeBy_perm key x ys).mem_iff.1 hz) with rfl | hz
        · have : compare (key z) (key y) = .gt := by
            cases order : compare (key z) (key y) <;> simp_all
          rw [Std.OrientedCmp.gt_iff_lt.1 this]
          rfl
        · exact first z hz

end ContextFree
