/-! # Blank characters, stripping and fields

The characters that count as blank, and the three ways in which the library cuts a
text at chosen characters: taking the blanks off both ends, cutting at every separator,
and keeping the non-empty runs between blanks.
-/

namespace ContextFree.Text

/-- The blank characters: the white space of Unicode together with the four
information separators. -/
def isBlank (c : Char) : Bool :=
  let n := c.toNat
  (0x09 ≤ n && n ≤ 0x0D) || (0x1C ≤ n && n ≤ 0x20) || n == 0x85 || n == 0xA0 ||
    n == 0x1680 || (0x2000 ≤ n && n ≤ 0x200A) || n == 0x2028 || n == 0x2029 ||
    n == 0x202F || n == 0x205F || n == 0x3000

/-- A text without the blanks at its two ends. -/
def strip (cs : List Char) : List Char :=
  ((cs.dropWhile isBlank).reverse.dropWhile isBlank).reverse

/-- The pieces of a list between the separators that `p` selects: one more than there
are separators, in order, and possibly empty. -/
def pieces {α : Type} (p : α → Bool) : List α → List (List α)
  | [] => [[]]
  | x :: xs => if p x then [] :: pieces p xs else (pieces p xs).modifyHead (x :: ·)

/-- The maximal runs of characters that are not blank, in order. -/
def fields (cs : List Char) : List (List Char) :=
  (pieces isBlank cs).filter fun piece => !piece.isEmpty

@[simp] theorem strip_nil : strip [] = [] := rfl

/-- There is always a first piece. -/
theorem pieces_ne_nil {α : Type} (p : α → Bool) (xs : List α) : pieces p xs ≠ [] := by
  cases xs with
  | nil => simp [pieces]
  | cons x xs =>
    cases h : p x with
    | true => simp [pieces, h]
    | false => simpa [pieces, h] using pieces_ne_nil p xs

/-- Cutting loses nothing but the separators. -/
theorem flatten_pieces {α : Type} (p : α → Bool) (xs : List α) :
    (pieces p xs).flatten = xs.filter (!p ·) := by
  induction xs with
  | nil => rfl
  | cons x xs ih =>
    cases h : p x with
    | true => simp [pieces, h, ih]
    | false =>
      cases hp : pieces p xs with
      | nil => exact absurd hp (pieces_ne_nil p xs)
      | cons y ys => simp_all [pieces]

end ContextFree.Text
