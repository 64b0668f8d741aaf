import ContextFree.Text.Blank
import ContextFree.Text.Lines

/-! # Cutting texts

What was joined by separators is cut into its parts again, provided that the parts hold no
separator. Blanks separate fields, and line ends separate lines.
-/

namespace ContextFree.Text

section Pieces

variable {α : Type} {p : α → Bool} {xs piece : List α} {x : α}

theorem pieces_eq_splitOnP : pieces p xs = xs.splitOnP p := by
  induction xs with
  | nil => rfl
  | cons x xs ih => rw [pieces, ih, List.splitOnP_cons_eq_if_modifyHead]

theorem mem_of_mem_pieces (h : piece ∈ pieces p xs) (hx : x ∈ piece) : x ∈ xs ∧ p x = false := by
  have hflat : x ∈ (pieces p xs).flatten := List.mem_flatten.2 ⟨piece, h, hx⟩
  simpa [flatten_pieces] using hflat

end Pieces

/-- What opens a text and holds no separator stands before the first separator. -/
theorem prefix_of_prefix_append_cons {α : Type} {x : α} {xs ys zs : List α}
    (h : xs <+: ys ++ x :: zs) (hx : x ∉ xs) : xs <+: ys := by
  rcases List.prefix_or_prefix_of_prefix h (List.prefix_append ys _) with hle | ⟨tail, rfl⟩
  · exact hle
  · cases tail with
    | nil => simp
    | cons y tail =>
      rw [List.prefix_append_right_inj, List.cons_prefix_cons] at h
      exact absurd (by simp [h.1]) hx

theorem mem_or_of_mem_intercalate {α : Type} {x : α} {sep : List α} {parts : List (List α)}
    (h : x ∈ sep.intercalate parts) : x ∈ sep ∨ ∃ part ∈ parts, x ∈ part := by
  induction parts with
  | nil => cases h
  | cons part parts ih =>
    cases parts with
    | nil => exact .inr ⟨part, List.mem_cons_self, by simpa using h⟩
    | cons next parts =>
      rw [List.intercalate_cons_cons, List.mem_append, List.mem_append] at h
      rcases h with (h | h) | h
      · exact .inr ⟨part, List.mem_cons_self, h⟩
      · exact .inl h
      · exact (ih h).imp_right fun ⟨part', hpart', hx⟩ =>
          ⟨part', List.mem_cons_of_mem _ hpart', hx⟩

variable {c : Char} {cs xs ys : List Char}

/-- The text is not empty and holds no blank. -/
structure IsField (cs : List Char) : Prop where
  ne_nil : cs ≠ []
  solid : ∀ c ∈ cs, isBlank c = false

instance (cs : List Char) : Decidable (IsField cs) :=
  decidable_of_iff (cs ≠ [] ∧ cs.all (!isBlank ·))
    ⟨fun h => ⟨h.1, by simpa using h.2⟩, fun h => ⟨h.ne_nil, by simpa using h.solid⟩⟩

theorem isField_iff : IsField cs ↔ ¬(cs.isEmpty || cs.any isBlank) = true := by
  constructor
  · intro h
    simpa [h.ne_nil] using h.solid
  · intro h
    simp only [Bool.or_eq_true, List.isEmpty_iff, List.any_eq_true, not_or, not_exists, not_and,
      Bool.not_eq_true] at h
    exact ⟨h.1, h.2⟩

theorem isField_of_mem_fields (h : cs ∈ fields xs) : IsField cs := by
  obtain ⟨hpiece, hne⟩ := List.mem_filter.1 h
  exact ⟨by simpa using hne, fun c hc => (mem_of_mem_pieces hpiece hc).2⟩

theorem fields_cons_blank (hc : isBlank c = true) : fields (c :: cs) = fields cs := by
  simp [fields, pieces, hc]

theorem fields_append_cons (h : IsField xs) (hc : isBlank c = true) :
    fields (xs ++ c :: ys) = xs :: fields ys := by
  rw [fields, pieces_eq_splitOnP, List.splitOnP_append_cons_of_forall_mem h.solid c hc,
    ← pieces_eq_splitOnP]
  simp [fields, h.ne_nil]

theorem fields_eq_singleton (h : IsField cs) : fields cs = [cs] := by
  rw [fields, pieces_eq_splitOnP, List.splitOnP_eq_singleton h.solid]
  simp [h.ne_nil]

/-- Fields with spaces between them are found again. -/
theorem fields_intercalate {words : List (List Char)} (h : ∀ word ∈ words, IsField word) :
    fields ([' '].intercalate words) = words := by
  induction words with
  | nil => rfl
  | cons word words ih =>
    obtain ⟨hword, hwords⟩ := List.forall_mem_cons.1 h
    cases words with
    | nil => rw [List.intercalate_singleton, fields_eq_singleton hword]
    | cons next words =>
      rw [List.intercalate_cons_cons, List.append_assoc, List.singleton_append,
        fields_append_cons hword (by decide), ih hwords]

section Strip

theorem strip_cons (hc : isBlank c = true) : strip (c :: cs) = strip cs := by
  simp [strip, hc]

theorem strip_concat (hc : isBlank c = true) : strip (cs ++ [c]) = strip cs := by
  rw [strip, List.dropWhile_append]
  split
  next h => simp [strip, List.isEmpty_iff.1 h, hc]
  next => simp [strip, hc]

/-- The text is not empty, and it neither begins nor ends with a blank. -/
structure IsTrimmed (cs : List Char) : Prop where
  ne_nil : cs ≠ []
  head : ∀ c ∈ cs.head?, isBlank c = false
  last : ∀ c ∈ cs.getLast?, isBlank c = false

instance (cs : List Char) : Decidable (IsTrimmed cs) :=
  decidable_of_iff (cs ≠ [] ∧ cs.head?.all (!isBlank ·) ∧ cs.getLast?.all (!isBlank ·))
    ⟨fun h => ⟨h.1, by simpa [Option.all_eq_true] using h.2.1,
        by simpa [Option.all_eq_true] using h.2.2⟩,
      fun h => ⟨h.ne_nil, by simpa [Option.all_eq_true] using h.head,
        by simpa [Option.all_eq_true] using h.last⟩⟩

theorem IsField.isTrimmed (h : IsField cs) : IsTrimmed cs :=
  ⟨h.ne_nil, fun c hc => h.solid c (List.mem_of_mem_head? hc),
    fun c hc => h.solid c (List.mem_of_mem_getLast? hc)⟩

/-- Only the ends count. -/
theorem IsTrimmed.append (hxs : IsTrimmed xs) (hys : IsTrimmed ys) :
    IsTrimmed (xs ++ cs ++ ys) := by
  refine ⟨by simp [hxs.ne_nil], fun c hc => hxs.head c ?_, fun c hc => hys.last c ?_⟩
  · rw [List.append_assoc, List.head?_append, List.head?_eq_some_head hxs.ne_nil] at hc
    rwa [List.head?_eq_some_head hxs.ne_nil]
  · rw [List.getLast?_append, List.getLast?_eq_some_getLast hys.ne_nil] at hc
    rwa [List.getLast?_eq_some_getLast hys.ne_nil]

theorem IsTrimmed.intercalate {words : List (List Char)} (hne : words ≠ [])
    (h : ∀ word ∈ words, IsTrimmed word) : IsTrimmed (cs.intercalate words) := by
  induction words with
  | nil => exact absurd rfl hne
  | cons word words ih =>
    obtain ⟨hword, hwords⟩ := List.forall_mem_cons.1 h
    cases words with
    | nil => rwa [List.intercalate_singleton]
    | cons next words =>
      rw [List.intercalate_cons_cons]
      exact hword.append (ih (List.cons_ne_nil _ _) hwords)

theorem IsTrimmed.strip_eq (h : IsTrimmed cs) : strip cs = cs := by
  have hkept (xs : List Char) (h : ∀ c ∈ xs.head?, isBlank c = false) :
      xs.dropWhile isBlank = xs := by
    cases xs with
    | nil => rfl
    | cons c xs => simp [h c rfl]
  rw [strip, hkept cs h.head, hkept cs.reverse (by simpa using h.last), List.reverse_reverse]

theorem mem_of_mem_strip (h : c ∈ strip cs) : c ∈ cs := by
  rw [strip, List.mem_reverse] at h
  have hrest := (List.dropWhile_suffix _).subset h
  rw [List.mem_reverse] at hrest
  exact (List.dropWhile_suffix _).subset hrest

theorem strip_prefix_dropWhile (cs : List Char) : strip cs <+: cs.dropWhile isBlank := by
  rw [strip, ← List.reverse_suffix, List.reverse_reverse]
  exact List.dropWhile_suffix _

theorem isBlank_of_strip_eq_cons (h : strip cs = c :: xs) : isBlank c = false := by
  obtain ⟨rest, hrest⟩ := strip_prefix_dropWhile cs
  have hhead := List.head?_dropWhile_not isBlank cs
  rw [← hrest, h] at hhead
  exact hhead

theorem isTrimmed_strip (h : strip cs ≠ []) : IsTrimmed (strip cs) where
  ne_nil := h
  head c hc := by
    obtain ⟨d, ds, hcons⟩ := List.exists_cons_of_ne_nil h
    rw [hcons] at hc
    cases hc
    exact isBlank_of_strip_eq_cons hcons
  last c hc := by
    rw [strip, List.getLast?_reverse] at hc
    have hhead := List.head?_dropWhile_not isBlank (cs.dropWhile isBlank).reverse
    rw [hc] at hhead
    exact hhead

/-- From a text that does not begin with a blank, only the end is taken off. -/
theorem strip_prefix (hhead : ∀ c ∈ cs.head?, isBlank c = false) : strip cs <+: cs := by
  have hprefix := strip_prefix_dropWhile cs
  cases cs with
  | nil => exact hprefix
  | cons c cs => simpa [hhead c rfl] using hprefix

section Apply

variable {β : Type} {f : List Char → β}
  (hconcat : ∀ b cs, isBlank b = true → f (cs ++ [b]) = f cs)
include hconcat

/-- What does not depend on a blank at the end does not depend on stripping a text that does not
begin with a blank. -/
theorem apply_strip_of_head (hhead : ∀ c ∈ cs.head?, isBlank c = false) : f (strip cs) = f cs := by
  have hback (cs : List Char) : f (cs.dropWhile isBlank).reverse = f cs.reverse := by
    induction cs with
    | nil => rfl
    | cons c cs ih =>
      by_cases hc : isBlank c = true
      · rw [List.dropWhile_cons_of_pos hc, ih, List.reverse_cons, hconcat c _ hc]
      · rw [List.dropWhile_cons_of_neg hc]
  have hfront : cs.dropWhile isBlank = cs := by
    cases cs with
    | nil => rfl
    | cons c cs => simp [hhead c rfl]
  rw [strip, hfront, hback, List.reverse_reverse]

/-- What does not depend on a blank at either end does not depend on stripping. -/
theorem apply_strip (hcons : ∀ b cs, isBlank b = true → f (b :: cs) = f cs) (cs : List Char) :
    f (strip cs) = f cs := by
  induction cs with
  | nil => rfl
  | cons c cs ih =>
    by_cases hc : isBlank c = true
    · rw [strip_cons hc, ih, hcons c cs hc]
    · refine apply_strip_of_head hconcat fun d hd => ?_
      cases hd
      simpa using hc

end Apply

theorem strip_strip (cs : List Char) : strip (strip cs) = strip cs :=
  apply_strip (fun _ _ hb => strip_concat hb) (fun _ _ hb => strip_cons hb) cs

theorem mem_strip (hc : isBlank c = false) (hmem : c ∈ cs) : c ∈ strip cs := by
  have hother (b : Char) (hb : isBlank b = true) : c ≠ b := by
    rintro rfl
    rw [hc] at hb
    cases hb
  have hstrip : decide (c ∈ strip cs) = decide (c ∈ cs) :=
    apply_strip (f := fun cs => decide (c ∈ cs)) (fun b cs hb => by simp [hother b hb])
      (fun b cs hb => by simp [hother b hb]) cs
  rw [decide_eq_decide] at hstrip
  exact hstrip.2 hmem

section Parts

variable {p : Char → Bool} {b : Char} (hp : ∀ c, isBlank c = true → p c = false)
include hp

theorem map_strip_pieces_cons (hb : isBlank b = true) :
    (pieces p (b :: cs)).map strip = (pieces p cs).map strip := by
  rw [pieces, hp b hb]
  cases pieces p cs with
  | nil => rfl
  | cons piece rest => simp [strip_cons hb]

theorem map_strip_pieces_concat (hb : isBlank b = true) :
    (pieces p (cs ++ [b])).map strip = (pieces p cs).map strip := by
  -- Only the last piece is longer, also where it is the first one too.
  have hlast : ∃ before last, pieces p cs = before ++ [last] ∧
      pieces p (cs ++ [b]) = before ++ [last ++ [b]] := by
    induction cs with
    | nil => exact ⟨[], [], rfl, by simp [pieces, hp b hb]⟩
    | cons c cs ih =>
      obtain ⟨before, last, hcs, hconcat⟩ := ih
      rw [List.cons_append, pieces, pieces, hcs, hconcat]
      cases p c with
      | true => exact ⟨[] :: before, last, rfl, rfl⟩
      | false =>
        cases before with
        | nil => exact ⟨[], c :: last, rfl, rfl⟩
        | cons piece before => exact ⟨(c :: piece) :: before, last, rfl, rfl⟩
  obtain ⟨before, last, hcs, hconcat⟩ := hlast
  rw [hcs, hconcat, List.map_append, List.map_append, List.map_singleton, List.map_singleton,
    strip_concat hb]

/-- Blanks around a text do not count for its pieces. -/
theorem map_strip_pieces_strip (cs : List Char) :
    (pieces p (strip cs)).map strip = (pieces p cs).map strip :=
  apply_strip (f := fun cs => (pieces p cs).map strip)
    (fun _ _ hb => map_strip_pieces_concat hp hb) (fun _ _ hb => map_strip_pieces_cons hp hb) cs

end Parts

/-- Blanks around a separator do not count. -/
theorem map_strip_pieces_intercalate {sep b : Char} (hsep : isBlank sep = false)
    (hb : isBlank b = true) {words : List (List Char)} (hne : words ≠ [])
    (h : ∀ word ∈ words, IsTrimmed word ∧ sep ∉ word) :
    (pieces (· = sep) ([b, sep, b].intercalate words)).map strip = words := by
  have hblanks : ∀ c, isBlank c = true → decide (c = sep) = false := by
    intro c hc
    rw [decide_eq_false_iff_not]
    rintro rfl
    rw [hsep] at hc
    cases hc
  induction words with
  | nil => exact absurd rfl hne
  | cons word words ih =>
    obtain ⟨⟨htrimmed, hfree⟩, hwords⟩ := List.forall_mem_cons.1 h
    cases words with
    | nil =>
      have hkept : pieces (· = sep) word = [word] := by
        rw [pieces_eq_splitOnP, List.splitOnP_eq_singleton]
        intro c hc
        simpa using fun heq : c = sep => hfree (heq ▸ hc)
      rw [List.intercalate_singleton, hkept, List.map_singleton, htrimmed.strip_eq]
    | cons next words =>
      -- The blanks around a separator go with the words on either side of it.
      have hjoin : [b, sep, b].intercalate (word :: next :: words) =
          (word ++ [b]) ++ sep :: b :: [b, sep, b].intercalate (next :: words) := by simp
      have hsolid : ∀ c ∈ word ++ [b], decide (c = sep) = false := by
        intro c hc
        rcases List.mem_append.1 hc with hc | hc
        · simpa using fun heq : c = sep => hfree (heq ▸ hc)
        · rw [List.mem_singleton.1 hc]
          exact hblanks b hb
      rw [hjoin, pieces_eq_splitOnP, List.splitOnP_append_cons_of_forall_mem hsolid sep (by simp),
        ← pieces_eq_splitOnP, List.map_cons, map_strip_pieces_cons hblanks hb,
        ih (List.cons_ne_nil _ _) hwords, strip_concat hb, htrimmed.strip_eq]

end Strip

section Lines

theorem isBlank_of_isLineEnd (h : isLineEnd c = true) : isBlank c = true := by
  simp only [isLineEnd, isBlank, Bool.or_eq_true, Bool.and_eq_true, decide_eq_true_eq,
    beq_iff_eq] at h ⊢
  omega

/-- The text holds no line end. -/
def OneLine (cs : List Char) : Prop :=
  ∀ c ∈ cs, isLineEnd c = false

instance (cs : List Char) : Decidable (OneLine cs) :=
  List.decidableBAll (fun c => isLineEnd c = false) cs

theorem IsField.oneLine (h : IsField cs) : OneLine cs := by
  intro c hc
  rw [← Bool.not_eq_true]
  intro hend
  have hblank := isBlank_of_isLineEnd hend
  rw [h.solid c hc] at hblank
  cases hblank

theorem OneLine.append (hxs : OneLine xs) (hys : OneLine ys) : OneLine (xs ++ ys) :=
  List.forall_mem_append.2 ⟨hxs, hys⟩

theorem OneLine.intercalate (hcs : OneLine cs) {words : List (List Char)}
    (h : ∀ word ∈ words, OneLine word) : OneLine (cs.intercalate words) := by
  intro c hc
  rcases mem_or_of_mem_intercalate hc with hc | ⟨word, hword, hc⟩
  · exact hcs c hc
  · exact h word hword c hc

theorem lines_append_cons (h : OneLine xs) :
    lines (xs ++ '\n' :: ys) = xs :: lines ys := by
  induction xs with
  | nil => simp [lines, isLineEnd]
  | cons c xs ih =>
    obtain ⟨hc, hxs⟩ := List.forall_mem_cons.1 h
    have hreturn : c ≠ '\r' := by
      rintro rfl
      cases hc
    rw [List.cons_append, lines, hc, ih hxs]
    · simp
    · simp [hreturn]

/-- Lines that are ended by line feeds are found again. -/
theorem lines_flatMap {ls : List (List Char)} (h : ∀ l ∈ ls, OneLine l) :
    lines (ls.flatMap (· ++ ['\n'])) = ls := by
  induction ls with
  | nil => exact lines_nil
  | cons l ls ih =>
    obtain ⟨hl, hls⟩ := List.forall_mem_cons.1 h
    rw [List.flatMap_cons, List.append_assoc, List.singleton_append, lines_append_cons hl, ih hls]

theorem lines_eq_singleton (h : OneLine cs) (hne : cs ≠ []) : lines cs = [cs] := by
  induction cs with
  | nil => exact absurd rfl hne
  | cons c cs ih =>
    obtain ⟨hc, hcs⟩ := List.forall_mem_cons.1 h
    have hreturn : c ≠ '\r' := by
      rintro rfl
      cases hc
    rw [lines, hc]
    · cases cs with
      | nil => simp
      | cons d ds => simp [ih hcs (List.cons_ne_nil d ds)]
    · simp [hreturn]

/-- Lines with line feeds between them are found again, apart from an empty one at the end. -/
theorem lines_intercalate {ls : List (List Char)} (h : ∀ l ∈ ls, OneLine l) :
    lines (['\n'].intercalate ls) = ls ∨ ls = lines (['\n'].intercalate ls) ++ [[]] := by
  induction ls with
  | nil => exact .inl lines_nil
  | cons l ls ih =>
    obtain ⟨hl, hls⟩ := List.forall_mem_cons.1 h
    cases ls with
    | nil =>
      rw [List.intercalate_singleton]
      by_cases hne : l = []
      · subst hne
        exact .inr rfl
      · exact .inl (lines_eq_singleton hl hne)
    | cons next ls =>
      rw [List.intercalate_cons_cons, List.append_assoc, List.singleton_append,
        lines_append_cons hl, List.cons_append]
      exact (ih hls).imp (congrArg (l :: ·)) (congrArg (l :: ·))

end Lines

end ContextFree.Text
