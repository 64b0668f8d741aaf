import ContextFree.Event.Value
import ContextFree.Proofs.Texts
import Mathlib.Data.List.Forall2
import Std.Data.String.ToInt

/-! # Structured data are written unambiguously

The written form of a value tells which value it is, up to the order in which the fields of an
object stand, and it also tells where it ends when more follows. So items with commas between them
can be told apart, at any depth. No line end stands in it, since those of a text are escaped.

Numbers of double precision are left out: they have several representations.
-/

namespace ContextFree

namespace Text

variable {α β : Type} {xs ys us vs : List α}

/-- Two lists are cut at the same place if the members in front of the cut satisfy a predicate and
the one behind it does not. -/
theorem append_cancel_of_forall {p : α → Prop} (hxs : ∀ x ∈ xs, p x) (hys : ∀ y ∈ ys, p y)
    (hus : ∀ u ∈ us.head?, ¬p u) (hvs : ∀ v ∈ vs.head?, ¬p v) (h : xs ++ us = ys ++ vs) :
    xs = ys ∧ us = vs := by
  induction xs generalizing ys with
  | nil =>
    cases ys with
    | nil => exact ⟨rfl, h⟩
    | cons y ys =>
      rw [List.nil_append] at h
      exact absurd (hys y List.mem_cons_self) (hus y (by simp [h]))
  | cons x xs ih =>
    cases ys with
    | nil =>
      rw [List.nil_append] at h
      exact absurd (hxs x List.mem_cons_self) (hvs x (by simp [← h]))
    | cons y ys =>
      obtain ⟨rfl, htail⟩ := List.cons.inj h
      obtain ⟨rfl, hrest⟩ := ih (List.forall_mem_cons.1 hxs).2 (List.forall_mem_cons.1 hys).2 htail
      exact ⟨rfl, hrest⟩

theorem intercalate_cons_eq_flatMap {sep : α} {parts : List (List α)} :
    [sep].intercalate (xs :: parts) = xs ++ parts.flatMap (sep :: ·) := by
  induction parts generalizing xs with
  | nil => simp
  | cons part parts ih => rw [List.intercalate_cons_cons, ih]; simp

end Text

/-! ## Members of an arranged list -/

section Arranged

variable {α β κ : Type} [Ord κ] {key : α → κ} {xs ys : List α}

theorem placeBy_map {f : β → α} (x : β) (zs : List β) :
    placeBy key (f x) (zs.map f) = (placeBy (fun z => key (f z)) x zs).map f := by
  induction zs with
  | nil => rfl
  | cons z zs ih =>
    rw [List.map_cons, placeBy, placeBy]
    split
    · rfl
    · rw [ih, List.map_cons]

/-- What is made of each member alone may be made before or after they are arranged. -/
theorem arrangeBy_map {f : β → α} (zs : List β) :
    arrangeBy key (zs.map f) = (arrangeBy (fun z => key (f z)) zs).map f := by
  induction zs with
  | nil => rfl
  | cons z zs ih => rw [List.map_cons, arrangeBy, ih, placeBy_map, arrangeBy]

variable [Std.LawfulEqOrd κ] [DecidableEq κ]

/-- Only members with another key are passed over when a member finds its place. -/
theorem filter_placeBy (x : α) (k : κ) :
    (placeBy key x xs).filter (key · = k) = (x :: xs).filter (key · = k) := by
  induction xs with
  | nil => rfl
  | cons y ys ih =>
    rw [placeBy]
    split
    · rfl
    · next hgt =>
      have hne : key x ≠ key y := fun heq => hgt (by simp [heq])
      by_cases hx : key x = k
      · have hy : key y ≠ k := fun hy => hne (hx.trans hy.symm)
        simp [ih, hx, hy]
      · simp [List.filter_cons, ih, hx]

theorem filter_arrangeBy (k : κ) :
    (arrangeBy key xs).filter (key · = k) = xs.filter (key · = k) := by
  induction xs with
  | nil => rfl
  | cons x xs ih => rw [arrangeBy, filter_placeBy, List.filter_cons, ih, List.filter_cons]

omit [Ord κ] [Std.LawfulEqOrd κ] in
theorem mem_iff_of_filter_eq (h : ∀ k, xs.filter (key · = k) = ys.filter (key · = k)) (z : α) :
    z ∈ xs ↔ z ∈ ys := by
  have hz : z ∈ xs.filter (key · = key z) ↔ z ∈ ys.filter (key · = key z) := by rw [h (key z)]
  simpa using hz

/-- A list in the order of a key is determined by its members with each key. -/
theorem eq_of_filter_eq [Std.TransOrd κ]
    (hxs : xs.Pairwise fun x y => (compare (key x) (key y)).isLE)
    (hys : ys.Pairwise fun x y => (compare (key x) (key y)).isLE)
    (h : ∀ k, xs.filter (key · = k) = ys.filter (key · = k)) : xs = ys := by
  induction hxs generalizing ys with
  | nil =>
    cases ys with
    | nil => rfl
    | cons y ys => exact absurd ((mem_iff_of_filter_eq h y).2 List.mem_cons_self) List.not_mem_nil
  | @cons x xs hx _ ih =>
    cases hys with
    | nil => exact absurd ((mem_iff_of_filter_eq h x).1 List.mem_cons_self) List.not_mem_nil
    | @cons y ys hy hys =>
      -- Each head is a member of the other list, so neither key is less than the other one.
      have hle : (compare (key x) (key y)).isLE := by
        rcases List.mem_cons.1 ((mem_iff_of_filter_eq h y).2 List.mem_cons_self) with rfl | hin
        · simp
        · exact hx y hin
      have hge : (compare (key y) (key x)).isLE := by
        rcases List.mem_cons.1 ((mem_iff_of_filter_eq h x).1 List.mem_cons_self) with rfl | hin
        · simp
        · exact hy x hin
      have hkey : key x = key y :=
        Std.LawfulEqOrd.eq_of_compare (Std.OrientedCmp.isLE_antisymm hle hge)
      have hheads := h (key x)
      simp only [List.filter_cons, hkey, decide_true, if_true, List.cons.injEq] at hheads
      obtain ⟨rfl, -⟩ := hheads
      have htails (k : κ) : xs.filter (key · = k) = ys.filter (key · = k) := by
        have hk := h k
        rw [List.filter_cons, List.filter_cons] at hk
        split at hk
        · exact (List.cons.inj hk).2
        · exact hk
      rw [ih hys htails]

end Arranged

namespace Event.Value

open Text

variable {v w : Value} {us vs : List Char}

/-- The values under one key of an object, in order. -/
def under (key : String) (fields : List (String × Value)) : List Value :=
  (fields.filter (·.1 = key)).map Prod.snd

/-- Two values are the same. Arrays have the same items in the same order, and objects have the same
values under each key, wherever the key stands. -/
inductive Same : Value → Value → Prop
  | null : Same null null
  | bool (b : Bool) : Same (bool b) (bool b)
  | int (n : Int) : Same (int n) (int n)
  | text (s : String) : Same (text s) (text s)
  | array {items items' : List Value} : List.Forall₂ Same items items' →
      Same (array items) (array items')
  | object {fields fields' : List (String × Value)} :
      (∀ key, List.Forall₂ Same (under key fields) (under key fields')) →
      Same (object fields) (object fields')

/-- No number of double precision occurs in the value, at any depth. -/
inductive Plain : Value → Prop
  | null : Plain null
  | bool (b : Bool) : Plain (bool b)
  | int (n : Int) : Plain (int n)
  | text (s : String) : Plain (text s)
  | array {items : List Value} : (∀ item ∈ items, Plain item) → Plain (array items)
  | object {fields : List (String × Value)} : (∀ field ∈ fields, Plain field.2) →
      Plain (object fields)

/-! ## The written forms as lists of characters -/

theorem writeItems_eq (items : List Value) : writeItems items = items.map write := by
  induction items with
  | nil => rfl
  | cons item items ih => rw [writeItems, ih, List.map_cons]

theorem writeFields_eq (fields : List (String × Value)) :
    writeFields fields = fields.map fun field => (field.1, write field.2) := by
  induction fields with
  | nil => rfl
  | cons field fields ih => rw [writeFields, ih, List.map_cons]

theorem toList_writeText (s : String) :
    (writeText s).toList = '\x22' :: (s.toList.flatMap escapeChar ++ ['\x22']) := by
  rw [writeText, String.toList_ofList]

/-- The written form of a field. -/
def cell (field : String × Value) : List Char :=
  (writeText field.1).toList ++ ':' :: (write field.2).toList

theorem toList_write_array (items : List Value) : (write (array items)).toList =
    '[' :: ([','].intercalate (items.map fun item => (write item).toList) ++ [']']) := by
  simp [write, writeItems_eq, enclose, String.toList_intercalate, Char.toString, Function.comp_def]

theorem toList_write_object (fields : List (String × Value)) : (write (object fields)).toList =
    '\x7B' :: ([','].intercalate ((arrangeBy Prod.fst fields).map cell) ++ ['\x7D']) := by
  have harranged : arrangeBy Prod.fst (writeFields fields) =
      (arrangeBy Prod.fst fields).map fun field => (field.1, write field.2) := by
    rw [writeFields_eq, arrangeBy_map]
  simp [write, harranged, enclose, String.toList_intercalate, Char.toString, Function.comp_def]
  rfl

/-! ## Texts -/

/-- The number for which a lower-case hexadecimal digit stands. -/
def hexDigitValue (c : Char) : Nat :=
  if c.isDigit then c.toNat - 48 else c.toNat - 87

/-- Reads the first character of a written text off its escaped form. A quotation mark is the end of
the text, and no character of it. -/
def unescape : List Char → Option (Char × List Char)
  | '\x22' :: _ => none
  | '\x5C' :: 'n' :: cs => some ('\n', cs)
  | '\x5C' :: 'r' :: cs => some ('\r', cs)
  | '\x5C' :: 't' :: cs => some ('\t', cs)
  | '\x5C' :: 'b' :: cs => some ('\x08', cs)
  | '\x5C' :: 'f' :: cs => some ('\x0C', cs)
  | '\x5C' :: 'u' :: '0' :: '0' :: high :: low :: cs =>
    some (Char.ofNat (16 * hexDigitValue high + hexDigitValue low), cs)
  | '\x5C' :: c :: cs => some (c, cs)
  | c :: cs => some (c, cs)
  | [] => none

theorem hexDigitValue_hexDigit {n : Nat} (h : n < 16) : hexDigitValue (hexDigit n) = n := by
  revert n
  decide

theorem newline_ne_hexDigit {n : Nat} (h : n < 16) : '\n' ≠ hexDigit n := by
  revert n
  decide

theorem unescape_cons {c : Char} (hquote : c ≠ '\x22') (hslash : c ≠ '\x5C') (cs : List Char) :
    unescape (c :: cs) = some (c, cs) := by
  rw [unescape.eq_def]
  split <;> simp_all

/-- How a character is escaped: by a mark in front of it, by a mark and a letter, by its number, or
not at all. -/
inductive Escapes : Char → List Char → Prop
  | mark {c : Char} : c ∈ ['\x22', '\x5C'] → Escapes c ['\x5C', c]
  | letter {c letter : Char} :
      (c, letter) ∈ [('\n', 'n'), ('\r', 'r'), ('\t', 't'), ('\x08', 'b'), ('\x0C', 'f')] →
      Escapes c ['\x5C', letter]
  | number {high low : Nat} : high < 16 → low < 16 →
      Escapes (Char.ofNat (16 * high + low)) ['\x5C', 'u', '0', '0', hexDigit high, hexDigit low]
  | plain {c : Char} : c ∉ ['\x22', '\x5C', '\n'] → Escapes c [c]

theorem escapes_escapeChar (c : Char) : Escapes c (escapeChar c) := by
  have hletter {letter : Char} (h : (c, letter) ∈
      [('\n', 'n'), ('\r', 'r'), ('\t', 't'), ('\x08', 'b'), ('\x0C', 'f')]) :
      Escapes c ['\x5C', letter] := .letter h
  unfold escapeChar
  split
  next h => exact .mark (by simpa using h)
  next hmark =>
    split
    next h => exact hletter (by simp [h])
    next hnewline =>
      split
      next h => exact hletter (by simp [h])
      split
      next h => exact hletter (by simp [h])
      split
      next h => exact hletter (by simp [h])
      split
      next h => exact hletter (by simp [h])
      split
      next hlow =>
        have hdigits : Escapes (Char.ofNat (16 * (c.toNat / 16) + c.toNat % 16)) _ :=
          .number (by omega) (by omega)
        rwa [Nat.div_add_mod, Char.ofNat_toNat] at hdigits
      next => exact .plain (by simpa [hnewline] using hmark)

/-- Every character is read again, whatever follows. -/
theorem unescape_escapeChar (c : Char) (cs : List Char) :
    unescape (escapeChar c ++ cs) = some (c, cs) := by
  have hescapes := escapes_escapeChar c
  generalize escapeChar c = form at hescapes ⊢
  cases hescapes with
  | mark h =>
    simp only [List.mem_cons, List.not_mem_nil, or_false] at h
    rcases h with rfl | rfl <;> rfl
  | letter h =>
    simp only [List.mem_cons, List.not_mem_nil, or_false, Prod.mk.injEq] at h
    rcases h with ⟨rfl, rfl⟩ | ⟨rfl, rfl⟩ | ⟨rfl, rfl⟩ | ⟨rfl, rfl⟩ | ⟨rfl, rfl⟩ <;> rfl
  | number hhigh hlow =>
    simp only [List.cons_append, List.nil_append, unescape, hexDigitValue_hexDigit hhigh,
      hexDigitValue_hexDigit hlow]
  | plain h =>
    simp only [List.mem_cons, List.not_mem_nil, or_false, not_or] at h
    exact unescape_cons h.1 h.2.1 cs

/-- A text ends at the first quotation mark that is not part of an escaped character. -/
theorem escaped_cancel {cs ds us vs : List Char}
    (h : cs.flatMap escapeChar ++ '\x22' :: us = ds.flatMap escapeChar ++ '\x22' :: vs) :
    cs = ds ∧ us = vs := by
  induction cs generalizing ds with
  | nil =>
    cases ds with
    | nil => exact ⟨rfl, (List.cons.inj h).2⟩
    | cons d ds =>
      have hread := congrArg unescape h
      rw [List.flatMap_cons, List.append_assoc, unescape_escapeChar] at hread
      cases hread
  | cons c cs ih =>
    have hread := congrArg unescape h
    rw [List.flatMap_cons, List.append_assoc, unescape_escapeChar] at hread
    cases ds with
    | nil => cases hread
    | cons d ds =>
      rw [List.flatMap_cons, List.append_assoc, unescape_escapeChar] at hread
      obtain ⟨rfl, htail⟩ := Prod.mk.inj (Option.some.inj hread)
      obtain ⟨rfl, hrest⟩ := ih htail
      exact ⟨rfl, hrest⟩

theorem writeText_cancel {s t : String}
    (h : (writeText s).toList ++ us = (writeText t).toList ++ vs) : s = t ∧ us = vs := by
  simp only [toList_writeText, List.cons_append, List.append_assoc, List.nil_append,
    List.cons.injEq, true_and] at h
  obtain ⟨hlist, hrest⟩ := escaped_cancel h
  exact ⟨String.toList_inj.1 hlist, hrest⟩

/-! ## Where a value ends -/

/-- What may follow a value: nothing, or one of the marks behind an item or a field. -/
def Stops (cs : List Char) : Prop :=
  ∀ c ∈ cs.head?, c ∈ [',', ']', '\x7D']

/-- A character of the written form of an integer. -/
def IsIntegral (c : Char) : Prop :=
  c.isDigit = true ∨ c = '-'

theorem toList_toString_int (n : Int) : ∃ m, (toString n).toList = Nat.toDigits 10 m ∨
    (toString n).toList = '-' :: Nat.toDigits 10 m := by
  cases n with
  | ofNat m => exact ⟨m, .inl Nat.toList_repr⟩
  | negSucc m => exact ⟨m + 1, .inr (by simp [toString, Int.repr])⟩

theorem isIntegral_of_mem_toString {n : Int} {c : Char} (hc : c ∈ (toString n).toList) :
    IsIntegral c := by
  have hdigit {m : Nat} (hc : c ∈ Nat.toDigits 10 m) : c.isDigit = true :=
    Nat.isDigit_of_mem_toDigits (by decide) (by decide) hc
  obtain ⟨m, heq | heq⟩ := toList_toString_int n
  · exact .inl (hdigit (heq ▸ hc))
  · rcases List.mem_cons.1 (heq ▸ hc) with hmark | hc
    · exact .inr hmark
    · exact .inl (hdigit hc)

theorem Stops.not_isIntegral (h : Stops us) : ∀ c ∈ us.head?, ¬IsIntegral c := by
  intro c hc
  have hmark := h c hc
  revert hmark
  simp only [List.mem_cons, List.not_mem_nil, or_false, IsIntegral]
  rintro (rfl | rfl | rfl) <;> decide

/-- An integer ends where no digit follows. -/
theorem toString_cancel {n m : Int} (hus : Stops us) (hvs : Stops vs)
    (h : (toString n).toList ++ us = (toString m).toList ++ vs) : n = m ∧ us = vs := by
  obtain ⟨hlist, hrest⟩ := append_cancel_of_forall (fun _ => isIntegral_of_mem_toString)
    (fun _ => isIntegral_of_mem_toString) hus.not_isIntegral hvs.not_isIntegral h
  exact ⟨Int.repr_injective (String.toList_inj.1 hlist), hrest⟩

/-- What kind of value the first character of a written form announces. -/
inductive Kind where
  | null | bool | int | text | array | object
  deriving DecidableEq

def Kind.ofFirst? (c : Char) : Option Kind :=
  if c = 'n' then some null
  else if c = 't' ∨ c = 'f' then some bool
  else if c = '\x22' then some text
  else if c = '[' then some array
  else if c = '\x7B' then some object
  else if c.isDigit ∨ c = '-' then some int
  else none

/-- The kind of a value, if it has one of its own first characters. -/
def kind? : Value → Option Kind
  | null => some .null
  | bool _ => some .bool
  | int _ => some .int
  | double _ => none
  | text _ => some .text
  | array _ => some .array
  | object _ => some .object

theorem IsIntegral.ofFirst? {c : Char} (h : IsIntegral c) : Kind.ofFirst? c = some .int := by
  have hother (d : Char) (hd : ¬IsIntegral d) : c ≠ d := fun heq => hd (heq ▸ h)
  rw [Kind.ofFirst?, if_neg (hother _ (by simp [IsIntegral])),
    if_neg (by simp [hother 't' (by simp [IsIntegral]), hother 'f' (by simp [IsIntegral])]),
    if_neg (hother _ (by simp [IsIntegral])), if_neg (hother _ (by simp [IsIntegral])),
    if_neg (hother _ (by simp [IsIntegral]))]
  exact if_pos h

/-- The first character of a written form announces the kind of the value. -/
theorem Plain.exists_first (hv : v.Plain) :
    ∃ c cs, (write v).toList = c :: cs ∧ Kind.ofFirst? c = v.kind? ∧ v.kind?.isSome := by
  cases hv with
  | null => exact ⟨'n', _, rfl, rfl, rfl⟩
  | bool b =>
    cases b with
    | true => exact ⟨'t', _, rfl, rfl, rfl⟩
    | false => exact ⟨'f', _, rfl, rfl, rfl⟩
  | int n =>
    cases hlist : (toString n).toList with
    | nil =>
      obtain ⟨m, heq | heq⟩ := toList_toString_int n
      · exact absurd (heq.symm.trans hlist) Nat.toDigits_ne_nil
      · cases heq.symm.trans hlist
    | cons c cs =>
      have hc : IsIntegral c := isIntegral_of_mem_toString (hlist ▸ List.mem_cons_self)
      exact ⟨c, cs, hlist, hc.ofFirst?, rfl⟩
  | text s => exact ⟨_, _, toList_writeText s, rfl, rfl⟩
  | array => exact ⟨_, _, toList_write_array _, rfl, rfl⟩
  | object => exact ⟨_, _, toList_write_object _, rfl, rfl⟩

theorem Plain.kind?_eq (hv : v.Plain) (hw : w.Plain)
    (h : (write v).toList ++ us = (write w).toList ++ vs) : v.kind? = w.kind? := by
  obtain ⟨c, cs, hc, hkind, -⟩ := hv.exists_first
  obtain ⟨d, ds, hd, hkind', -⟩ := hw.exists_first
  rw [hc, hd] at h
  rw [← hkind, ← hkind', (List.cons.inj h).1]

theorem Plain.append_ne_cons (hv : v.Plain) {last : Char} (hlast : last ∈ [',', ']', '\x7D']) :
    (write v).toList ++ us ≠ last :: vs := by
  obtain ⟨c, cs, hc, hkind, hsome⟩ := hv.exists_first
  rw [hc]
  intro h
  have hmark : Kind.ofFirst? last = none := by
    revert hlast
    simp only [List.mem_cons, List.not_mem_nil, or_false]
    rintro (rfl | rfl | rfl) <;> decide
  rw [(List.cons.inj h).1, hmark] at hkind
  simp [← hkind] at hsome

section Items

variable {α : Type} {f : α → List Char} {R : α → α → Prop} {xs ys : List α} {last : Char}

/-- Members of the two lists are told apart by what is written of them, and so are their ends: where
two written forms begin the same text, the members are related and the same rest follows. -/
def ToldApart (f : α → List Char) (R : α → α → Prop) (xs ys : List α) : Prop :=
  ∀ x ∈ xs, ∀ y ∈ ys, ∀ us vs, Stops us → Stops vs → f x ++ us = f y ++ vs → R x y ∧ us = vs

theorem ToldApart.tail {x y : α} (h : ToldApart f R (x :: xs) (y :: ys)) : ToldApart f R xs ys :=
  fun x hx y hy => h x (List.mem_cons_of_mem _ hx) y (List.mem_cons_of_mem _ hy)

theorem stops_flatMap (hlast : last ∈ [',', ']', '\x7D']) :
    Stops (xs.flatMap (fun x => ',' :: f x) ++ last :: us) := by
  intro c hc
  cases xs with
  | nil => simpa [← Option.mem_some.1 hc] using hlast
  | cons x xs => simp [← Option.mem_some.1 hc]

/-- Items that are told apart one by one are told apart behind commas, too. -/
theorem flatMap_cancel (hlast : last ∈ [']', '\x7D']) (hcut : ToldApart f R xs ys)
    (h : xs.flatMap (fun x => ',' :: f x) ++ last :: us =
      ys.flatMap (fun y => ',' :: f y) ++ last :: vs) :
    List.Forall₂ R xs ys ∧ us = vs := by
  have hcomma : ',' ≠ last := by
    rintro rfl
    revert hlast
    decide
  have hmark : last ∈ [',', ']', '\x7D'] := List.mem_cons_of_mem _ hlast
  induction xs generalizing ys with
  | nil =>
    cases ys with
    | nil => exact ⟨.nil, (List.cons.inj h).2⟩
    | cons y ys => exact absurd (List.cons.inj h).1.symm hcomma
  | cons x xs ih =>
    cases ys with
    | nil => exact absurd (List.cons.inj h).1 hcomma
    | cons y ys =>
      simp only [List.flatMap_cons, List.cons_append, List.append_assoc, List.cons.injEq,
        true_and] at h
      obtain ⟨hxy, htail⟩ := hcut x List.mem_cons_self y List.mem_cons_self _ _
        (stops_flatMap hmark) (stops_flatMap hmark) h
      obtain ⟨hrest, heq⟩ := ih hcut.tail htail
      exact ⟨.cons hxy hrest, heq⟩

/-- Items with commas between them and a mark behind them are told apart. -/
theorem intercalate_cancel (hlast : last ∈ [']', '\x7D'])
    (hopen : ∀ x, x ∈ xs ∨ x ∈ ys → ∀ {us vs}, f x ++ us ≠ last :: vs)
    (hcut : ToldApart f R xs ys)
    (h : [','].intercalate (xs.map f) ++ last :: us = [','].intercalate (ys.map f) ++ last :: vs) :
    List.Forall₂ R xs ys ∧ us = vs := by
  have hmark : last ∈ [',', ']', '\x7D'] := List.mem_cons_of_mem _ hlast
  cases xs with
  | nil =>
    cases ys with
    | nil => exact ⟨.nil, (List.cons.inj h).2⟩
    | cons y ys =>
      rw [List.map_cons, intercalate_cons_eq_flatMap, List.append_assoc] at h
      exact absurd h.symm (hopen y (.inr List.mem_cons_self))
  | cons x xs =>
    rw [List.map_cons, intercalate_cons_eq_flatMap, List.append_assoc, List.flatMap_map] at h
    cases ys with
    | nil => exact absurd h (hopen x (.inl List.mem_cons_self))
    | cons y ys =>
      rw [List.map_cons, intercalate_cons_eq_flatMap, List.append_assoc, List.flatMap_map] at h
      obtain ⟨hxy, htail⟩ := hcut x List.mem_cons_self y List.mem_cons_self _ _
        (stops_flatMap hmark) (stops_flatMap hmark) h
      obtain ⟨hrest, heq⟩ := flatMap_cancel hlast hcut.tail htail
      exact ⟨.cons hxy hrest, heq⟩

end Items

/-! ## The values that are written alike -/

section Under

variable {fields fields' : List (String × Value)}

theorem under_cons (key : String) (field : String × Value) :
    under key (field :: fields) =
      if field.1 = key then field.2 :: under key fields else under key fields := by
  rw [under, List.filter_cons]
  split <;> simp_all [under]

theorem filter_writeFields (key : String) :
    (writeFields fields).filter (·.1 = key) = ((under key fields).map write).map (key, ·) := by
  induction fields with
  | nil => rfl
  | cons field fields ih =>
    rw [writeFields, List.filter_cons, ih, under_cons]
    by_cases hk : field.1 = key <;> simp [hk]

theorem under_arrangeBy (key : String) (fields : List (String × Value)) :
    under key (arrangeBy Prod.fst fields) = under key fields := by
  rw [under, filter_arrangeBy, under]

theorem forall₂_under
    (h : List.Forall₂ (fun field field' => field.1 = field'.1 ∧ field.2.Same field'.2) fields
      fields') (key : String) : List.Forall₂ Same (under key fields) (under key fields') := by
  induction h with
  | nil => exact .nil
  | @cons field field' _ _ hfield _ ih =>
    obtain ⟨hkey, hsame⟩ := hfield
    by_cases hk : field.1 = key
    · have hk' : field'.1 = key := hkey ▸ hk
      rw [under_cons, under_cons, if_pos hk, if_pos hk']
      exact .cons hsame ih
    · have hk' : field'.1 ≠ key := hkey ▸ hk
      rwa [under_cons, under_cons, if_neg hk, if_neg hk']

end Under

theorem toList_cell (field : String × Value) (cs : List Char) :
    cell field ++ cs = (writeText field.1).toList ++ ':' :: ((write field.2).toList ++ cs) := by
  rw [cell, List.append_assoc, List.cons_append]

theorem array_cancel {items items' : List Value} (hitems : ∀ item ∈ items, item.Plain)
    (hitems' : ∀ item ∈ items', item.Plain)
    (hcut : ToldApart (fun item => (write item).toList) Same items items')
    (h : (write (array items)).toList ++ us = (write (array items')).toList ++ vs) :
    (array items).Same (array items') ∧ us = vs := by
  simp only [toList_write_array, List.cons_append, List.append_assoc, List.nil_append,
    List.cons.injEq, true_and] at h
  have hopen (item : Value) (hitem : item ∈ items ∨ item ∈ items') :
      ∀ {us vs}, (write item).toList ++ us ≠ ']' :: vs :=
    (hitem.elim (hitems item) (hitems' item)).append_ne_cons (by decide)
  obtain ⟨hall, hrest⟩ := intercalate_cancel (by decide) hopen hcut h
  exact ⟨.array hall, hrest⟩

/-- A key ends with a quotation mark, so fields are told apart if their values are. -/
theorem cell_toldApart {fields fields' : List (String × Value)}
    (hcut : ToldApart (fun field => (write field.2).toList) (fun field field' =>
      field.2.Same field'.2) fields fields') :
    ToldApart cell (fun field field' => field.1 = field'.1 ∧ field.2.Same field'.2) fields
      fields' := by
  intro field hfield field' hfield' us vs hus hvs heq
  rw [toList_cell, toList_cell] at heq
  obtain ⟨hkey, hcolon⟩ := writeText_cancel heq
  obtain ⟨hsame, hend⟩ := hcut field hfield field' hfield' us vs hus hvs (List.cons.inj hcolon).2
  exact ⟨⟨hkey, hsame⟩, hend⟩

theorem object_cancel {fields fields' : List (String × Value)}
    (hcut : ToldApart (fun field => (write field.2).toList) (fun field field' =>
      field.2.Same field'.2) fields fields')
    (h : (write (object fields)).toList ++ us = (write (object fields')).toList ++ vs) :
    (object fields).Same (object fields') ∧ us = vs := by
  simp only [toList_write_object, List.cons_append, List.append_assoc, List.nil_append,
    List.cons.injEq, true_and] at h
  have hopen (field : String × Value) (us vs : List Char) : cell field ++ us ≠ '\x7D' :: vs := by
    simp [toList_cell, toList_writeText]
  have harranged : ToldApart _ _ (arrangeBy Prod.fst fields) (arrangeBy Prod.fst fields') :=
    cell_toldApart fun field hfield field' hfield' =>
      hcut field (mem_arrangeBy.1 hfield) field' (mem_arrangeBy.1 hfield')
  obtain ⟨hall, hrest⟩ := intercalate_cancel (by decide) (fun field _ => hopen field _ _)
    harranged h
  refine ⟨.object fun key => ?_, hrest⟩
  -- What is written is in the order of the keys, but under one key nothing changes its place.
  rw [← under_arrangeBy key fields, ← under_arrangeBy key fields']
  exact forall₂_under hall key

/-- A value and the place where it ends can be read off any text that begins with its written
form. -/
theorem Plain.write_cancel (hv : v.Plain) (hw : w.Plain) (hus : Stops us) (hvs : Stops vs)
    (h : (write v).toList ++ us = (write w).toList ++ vs) : v.Same w ∧ us = vs := by
  -- The values are of one kind, so each case of the induction leaves a single case of `w`.
  have hkind : v.kind? = w.kind? := hv.kind?_eq hw h
  induction hv generalizing w us vs with
  | null =>
    cases hw with
    | null => exact ⟨.null, List.append_cancel_left h⟩
    | _ => cases hkind
  | bool b =>
    cases hw with
    | bool b' =>
      cases b <;> cases b'
      · exact ⟨.bool _, List.append_cancel_left h⟩
      · cases h
      · cases h
      · exact ⟨.bool _, List.append_cancel_left h⟩
    | _ => cases hkind
  | int n =>
    cases hw with
    | int m =>
      obtain ⟨rfl, hrest⟩ := toString_cancel hus hvs h
      exact ⟨.int n, hrest⟩
    | _ => cases hkind
  | text s =>
    cases hw with
    | text t =>
      obtain ⟨rfl, hrest⟩ := writeText_cancel h
      exact ⟨.text s, hrest⟩
    | _ => cases hkind
  | array hitems ih =>
    cases hw with
    | array hitems' =>
      refine array_cancel hitems hitems' (fun item hitem item' hitem' us vs hus hvs heq => ?_) h
      have hplain : item'.Plain := hitems' item' hitem'
      exact ih item hitem hplain hus hvs heq ((hitems item hitem).kind?_eq hplain heq)
    | _ => cases hkind
  | object hfields ih =>
    cases hw with
    | object hfields' =>
      refine object_cancel (fun field hfield field' hfield' us vs hus hvs heq => ?_) h
      have hplain : field'.2.Plain := hfields' field' hfield'
      exact ih field hfield hplain hus hvs heq ((hfields field hfield).kind?_eq hplain heq)
    | _ => cases hkind

theorem map_write_eq {items items' : List Value} (h : List.Forall₂ Same items items')
    (hwrite : ∀ item ∈ items, ∀ {w}, item.Same w → write item = write w) :
    items.map write = items'.map write := by
  induction h with
  | nil => rfl
  | @cons item item' _ _ hitem _ ih =>
    rw [List.map_cons, List.map_cons, hwrite item List.mem_cons_self hitem,
      ih fun item hmem => hwrite item (List.mem_cons_of_mem _ hmem)]

/-- The same values are written alike. -/
theorem Plain.write_eq_of_same (hv : v.Plain) (h : v.Same w) : write v = write w := by
  induction hv generalizing w with
  | null => cases h; rfl
  | bool b => cases h; rfl
  | int n => cases h; rfl
  | text s => cases h; rfl
  | array _ ih =>
    cases h with
    | array hall => rw [write, write, writeItems_eq, writeItems_eq, map_write_eq hall ih]
  | @object fields _ ih =>
    cases h with
    | @object _ fields' hall =>
      have harranged : arrangeBy Prod.fst (writeFields fields) =
          arrangeBy Prod.fst (writeFields fields') := by
        refine eq_of_filter_eq (pairwise_arrangeBy _ _) (pairwise_arrangeBy _ _) fun key => ?_
        rw [filter_arrangeBy, filter_arrangeBy, filter_writeFields, filter_writeFields,
          map_write_eq (hall key)]
        intro item hitem w hw
        obtain ⟨field, hfield, rfl⟩ := List.mem_map.1 hitem
        exact ih field (List.mem_of_mem_filter hfield) hw
      rw [write, write, harranged]

/-- Values are written alike exactly if they are the same. -/
theorem Plain.write_eq_iff (hv : v.Plain) (hw : w.Plain) : write v = write w ↔ v.Same w := by
  constructor
  · intro h
    have hstops : Stops [] := fun _ hc => nomatch hc
    have hlist : (write v).toList ++ [] = (write w).toList ++ [] := by rw [h]
    exact (hv.write_cancel hw hstops hstops hlist).1
  · exact hv.write_eq_of_same

/-! ## Line ends -/

theorem newline_notMem_escapeChar (c : Char) : '\n' ∉ escapeChar c := by
  have hescapes := escapes_escapeChar c
  generalize escapeChar c = form at hescapes ⊢
  cases hescapes with
  | mark h =>
    simp only [List.mem_cons, List.not_mem_nil, or_false] at h
    rcases h with rfl | rfl <;> decide
  | letter h =>
    simp only [List.mem_cons, List.not_mem_nil, or_false, Prod.mk.injEq] at h
    rcases h with ⟨rfl, rfl⟩ | ⟨rfl, rfl⟩ | ⟨rfl, rfl⟩ | ⟨rfl, rfl⟩ | ⟨rfl, rfl⟩ <;> decide
  | number hhigh hlow => simp [newline_ne_hexDigit hhigh, newline_ne_hexDigit hlow]
  | plain h =>
    simp only [List.mem_cons, List.not_mem_nil, or_false, not_or] at h
    simpa using Ne.symm h.2.2

/-- No line end stands in a written form, though there may be some in the texts. -/
theorem Plain.newline_notMem_write (hv : v.Plain) : '\n' ∉ (write v).toList := by
  have hjoined {parts : List (List Char)} (h : ∀ part ∈ parts, '\n' ∉ part) :
      '\n' ∉ [','].intercalate parts := by
    intro hmem
    rcases mem_or_of_mem_intercalate hmem with hcomma | ⟨part, hpart, hin⟩
    · revert hcomma
      decide
    · exact h part hpart hin
  have htext (s : String) : '\n' ∉ (writeText s).toList := by
    simp [toList_writeText, newline_notMem_escapeChar]
  induction hv with
  | null => decide
  | bool b => cases b <;> decide
  | int n =>
    intro hmem
    rcases isIntegral_of_mem_toString hmem with hdigit | hmark
    · revert hdigit
      decide
    · revert hmark
      decide
  | text s => exact htext s
  | array _ ih =>
    have hitems := hjoined (List.forall_mem_map.2 ih)
    simp [toList_write_array, hitems]
  | @object fields _ ih =>
    have hcells : '\n' ∉ [','].intercalate ((arrangeBy Prod.fst fields).map cell) := by
      refine hjoined (List.forall_mem_map.2 fun field hfield => ?_)
      simp [cell, htext, ih field (mem_arrangeBy.1 hfield)]
    simp [toList_write_object, hcells]

end Event.Value

end ContextFree
