import ContextFree.Event.Sink
import ContextFree.Proofs.Values

/-! # The file of events can be read back

A type without spaces and a time stamp stand in front of the data of an event, so what belongs to
which of the three can be told, and line ends stand between events only. Two files are the same
exactly if their events agree one by one.
-/

namespace ContextFree

namespace Text

/-- Separators behind all parts are separators between them and an empty last one. -/
theorem intercalate_concat_nil {α : Type} {sep : α} {parts : List (List α)} :
    [sep].intercalate (parts ++ [[]]) = parts.flatMap (· ++ [sep]) := by
  induction parts with
  | nil => simp
  | cons part parts ih =>
    obtain ⟨next, rest, hnext⟩ :=
      List.exists_cons_of_ne_nil (List.concat_ne_nil [] parts)
    rw [List.cons_append, hnext, List.intercalate_cons_cons, ← hnext, ih, List.flatMap_cons]

variable {cs ds : List Char}

/-- The text holds neither a space nor a line end. -/
def IsUnbroken (cs : List Char) : Prop :=
  ∀ c ∈ cs, c ≠ ' ' ∧ c ≠ '\n'

instance (cs : List Char) : Decidable (IsUnbroken cs) :=
  List.decidableBAll (fun c => c ≠ ' ' ∧ c ≠ '\n') cs

theorem IsUnbroken.append (hcs : IsUnbroken cs) (hds : IsUnbroken ds) : IsUnbroken (cs ++ ds) :=
  List.forall_mem_append.2 ⟨hcs, hds⟩

theorem IsUnbroken.sublist (hds : IsUnbroken ds) (h : cs.Sublist ds) : IsUnbroken cs :=
  fun c hc => hds c (h.subset hc)

theorem isUnbroken_toDigits (n : Nat) : IsUnbroken (Nat.toDigits 10 n) := by
  intro c hc
  have hdigit : c.isDigit = true := Nat.isDigit_of_mem_toDigits (by decide) (by decide) hc
  constructor <;> rintro rfl <;> revert hdigit <;> decide

theorem isUnbroken_zeros (n : Nat) : IsUnbroken (List.replicate n '0') := by
  intro c hc
  rw [List.eq_of_mem_replicate hc]
  decide

end Text

open Text

/-! ## Time stamps -/

namespace Decimal

variable {digits : List Char}

theorem isUnbroken_positional (h : IsUnbroken digits) (point : Int) :
    IsUnbroken (positional digits point) := by
  have hzero {cs : List Char} (hcs : IsUnbroken cs) :
      IsUnbroken (if cs.isEmpty then ['0'] else cs) := by
    split
    · decide
    · exact hcs
  have hwhole := (h.sublist (List.take_sublist point.toNat digits)).append
    (isUnbroken_zeros (point.toNat - (digits.take point.toNat).length))
  have hgap : IsUnbroken ('.' :: List.replicate (-point).toNat '0') :=
    List.forall_mem_cons.2 ⟨by decide, isUnbroken_zeros _⟩
  exact ((hzero hwhole).append hgap).append (hzero (h.sublist (List.drop_sublist _ _)))

theorem isUnbroken_scientific (h : IsUnbroken digits) (exponent : Int) :
    IsUnbroken (scientific digits exponent) := by
  have hplaces : IsUnbroken (if (digits.drop 1).isEmpty then [] else '.' :: digits.drop 1) := by
    split
    · decide
    · exact List.forall_mem_cons.2 ⟨by decide, h.sublist (List.drop_sublist _ _)⟩
  have hsign : IsUnbroken ['e', if exponent < 0 then '-' else '+'] := by
    split <;> decide
  have hpower := (isUnbroken_zeros (2 - (Nat.toDigits 10 exponent.natAbs).length)).append
    (isUnbroken_toDigits exponent.natAbs)
  have hall := ((h.sublist (List.take_sublist 1 digits)).append hplaces).append
    (hsign.append hpower)
  simpa [scientific] using hall

theorem isUnbroken_text (d : Decimal) : IsUnbroken d.text.toList := by
  rw [text, String.toList_ofList]
  split
  · exact isUnbroken_positional (isUnbroken_toDigits _) _
  · exact isUnbroken_scientific (isUnbroken_toDigits _) _

end Decimal

theorem Double.isUnbroken_text (d : Double) : IsUnbroken d.text.toList := by
  have hmark (negative : Bool) : IsUnbroken (mark negative).toList := by
    cases negative <;> decide
  cases d with
  | finite negative x =>
    rw [text, String.toList_append]
    refine (hmark negative).append ?_
    rw [Magnitude.text]
    split
    · decide
    · exact x.shortest.isUnbroken_text
  | infinite negative =>
    rw [text, String.toList_append]
    exact (hmark negative).append (by decide)
  | undefined => decide

namespace Event

theorem Stamp.isUnbroken_text (s : Stamp) : IsUnbroken s.text.toList :=
  s.seconds.isUnbroken_text

/-! ## Lines -/

namespace Record

variable {e e' : Record} {stamp stamp' : Stamp}

/-- The type of the event is one word, and its data hold no numbers of double precision. -/
structure Loggable (e : Record) : Prop where
  unbroken : IsUnbroken e.type.toList
  plain : ∀ data ∈ e.data, data.Plain

/-- The events have the same type, the same written time stamp and the same data, where no data
count as null. -/
structure Agrees (logged logged' : Stamp × Record) : Prop where
  type_eq : logged.2.type = logged'.2.type
  stamp_eq : logged.1.text = logged'.1.text
  same : (logged.2.data.getD .null).Same (logged'.2.data.getD .null)

theorem Loggable.plain_getD (h : e.Loggable) : (e.data.getD .null).Plain := by
  cases hdata : e.data with
  | none => exact .null
  | some data => exact h.plain data hdata

end Record

/-- What is written of the data behind the time stamp. -/
def Value.ending : Value → List Char
  | null => []
  | data => ' ' :: data.write.toList

theorem Value.ending_of_ne_null {v : Value} (h : v ≠ null) : v.ending = ' ' :: v.write.toList := by
  cases v with
  | null => exact absurd rfl h
  | _ => rfl

/-- Null leaves no ending, every other value one that begins with a space. -/
theorem Value.Plain.ending_eq_iff {v w : Value} (hv : v.Plain) (hw : w.Plain) :
    v.ending = w.ending ↔ v.Same w := by
  by_cases hvnull : v = .null
  · subst hvnull
    by_cases hwnull : w = .null
    · subst hwnull
      exact ⟨fun _ => .null, fun _ => rfl⟩
    · rw [ending_of_ne_null hwnull]
      refine ⟨(nomatch ·), fun h => ?_⟩
      cases h
      exact absurd rfl hwnull
  · by_cases hwnull : w = .null
    · subst hwnull
      rw [ending_of_ne_null hvnull]
      refine ⟨(nomatch ·), fun h => ?_⟩
      cases h
      exact absurd rfl hvnull
    · rw [ending_of_ne_null hvnull, ending_of_ne_null hwnull, List.cons.injEq, String.toList_inj,
        hv.write_eq_iff hw]
      exact and_iff_right rfl

namespace Record

variable {e e' : Record} {stamp stamp' : Stamp} {events others : List (Stamp × Record)}

theorem toList_line : (e.line stamp).toList =
    e.type.toList ++ ' ' :: (stamp.text.toList ++ (e.data.getD .null).ending) := by
  have hending : ((written e.data).toList.map Value.write).flatMap (fun s => ' ' :: s.toList) =
      (e.data.getD .null).ending := by
    rcases e.data with _ | (_ | _) <;> simp [written, Value.ending]
  rw [line, String.toList_intercalate, List.cons_append, List.singleton_append, List.map_cons,
    List.map_cons, show " ".toList = [' '] from rfl, intercalate_cons_eq_flatMap, List.flatMap_cons,
    List.flatMap_map, hending, List.cons_append]

/-- What stands in front of the first space is the type, and what stands between the first space and
the second one, or the end, is the time stamp. -/
theorem Loggable.line_eq_iff (he : e.Loggable) (he' : e'.Loggable) :
    e.line stamp = e'.line stamp' ↔ Agrees (stamp, e) (stamp', e') := by
  have hspace {cs : List Char} (hcs : IsUnbroken cs) : ∀ c ∈ cs, c ≠ ' ' := fun c hc => (hcs c hc).1
  have hending (v : Value) : ∀ c ∈ v.ending.head?, ¬c ≠ ' ' := by
    intro c hc
    cases v with
    | null => cases hc
    | _ => simpa using (Option.mem_some.1 hc).symm
  rw [← String.toList_inj, toList_line, toList_line]
  constructor
  · intro h
    obtain ⟨htype, hrest⟩ := append_cancel_of_forall (hspace he.unbroken) (hspace he'.unbroken)
      (by simp) (by simp) h
    obtain ⟨hstamp, hdata⟩ := append_cancel_of_forall (hspace stamp.isUnbroken_text)
      (hspace stamp'.isUnbroken_text) (hending _) (hending _) (List.cons.inj hrest).2
    exact ⟨String.toList_inj.1 htype, String.toList_inj.1 hstamp,
      (he.plain_getD.ending_eq_iff he'.plain_getD).1 hdata⟩
  · rintro ⟨htype, hstamp, hsame⟩
    rw [htype, hstamp, (he.plain_getD.ending_eq_iff he'.plain_getD).2 hsame]

theorem Loggable.newline_notMem_line (he : e.Loggable) : '\n' ∉ (e.line stamp).toList := by
  have hword {cs : List Char} (hcs : IsUnbroken cs) : '\n' ∉ cs := fun hmem => (hcs _ hmem).2 rfl
  have hending : '\n' ∉ (e.data.getD .null).ending := by
    by_cases hnull : e.data.getD .null = .null
    · simp [hnull, Value.ending]
    · rw [Value.ending_of_ne_null hnull]
      simp [he.plain_getD.newline_notMem_write]
  simp [toList_line, hword he.unbroken, hword stamp.isUnbroken_text, hending]

/-! ## The file -/

/-- The lines of a list of events. -/
def lines (events : List (Stamp × Record)) : List String :=
  events.map fun logged => logged.2.line logged.1

theorem file_eq_join (events : List (Stamp × Record)) :
    file events = String.join ((lines events).map (· ++ "\n")) := by
  rw [file, lines, List.map_map]
  rfl

theorem foldlM_log (text : String) :
    events.foldlM (fun sink logged => sink.log logged.1 logged.2) (Sink.file text) =
      .ok (.file (text ++ file events)) := by
  induction events generalizing text with
  | nil => simp [file, pure, Except.pure]
  | cons logged events ih =>
    have hlog : (Sink.file text).log logged.1 logged.2 =
        .ok (.file (text ++ logged.2.line logged.1 ++ "\n")) := rfl
    have hfile : file (logged :: events) = logged.2.line logged.1 ++ "\n" ++ file events := by
      simp [file]
    rw [List.foldlM_cons, hlog]
    change events.foldlM _ (Sink.file _) = _
    rw [ih, hfile, String.append_assoc, String.append_assoc, String.append_assoc]

/-- Line ends cut the file into the lines of the events, and nothing stands behind the last one. -/
theorem splitOn_file (h : ∀ logged ∈ events, logged.2.Loggable) :
    (file events).toList.splitOn '\n' = (lines events).map String.toList ++ [[]] := by
  have hfile : (file events).toList =
      ['\n'].intercalate ((lines events).map String.toList ++ [[]]) := by
    rw [intercalate_concat_nil, file_eq_join, String.toList_join, List.flatMap_map,
      List.flatMap_map]
    simp
  rw [hfile]
  refine List.splitOn_intercalate _ (fun line hline => ?_) (by simp)
  rcases List.mem_append.1 hline with hline | hline
  · obtain ⟨text, htext, rfl⟩ := List.mem_map.1 hline
    obtain ⟨logged, hlogged, rfl⟩ := List.mem_map.1 htext
    exact (h logged hlogged).newline_notMem_line
  · simp [List.mem_singleton.1 hline]

theorem file_eq_iff (h : ∀ logged ∈ events, logged.2.Loggable)
    (hothers : ∀ logged ∈ others, logged.2.Loggable) :
    file events = file others ↔ lines events = lines others := by
  constructor
  · intro heq
    have hsplit := splitOn_file h
    rw [heq, splitOn_file hothers] at hsplit
    have hlists := (List.append_cancel_right hsplit).symm
    exact List.map_injective_iff.2 (fun _ _ => String.toList_inj.1) hlists
  · intro heq
    rw [file_eq_join, file_eq_join, heq]

theorem lines_eq_iff (h : ∀ logged ∈ events, logged.2.Loggable)
    (hothers : ∀ logged ∈ others, logged.2.Loggable) :
    lines events = lines others ↔ List.Forall₂ Agrees events others := by
  induction events generalizing others with
  | nil => cases others <;> simp [lines]
  | cons logged events ih =>
    cases others with
    | nil => simp [lines]
    | cons other others =>
      obtain ⟨hlogged, hevents⟩ := List.forall_mem_cons.1 h
      obtain ⟨hother, hothers⟩ := List.forall_mem_cons.1 hothers
      rw [List.forall₂_cons, ← hlogged.line_eq_iff hother, ← ih hevents hothers]
      simp [lines]

/-- A receiver of texts that is handed events adds one line for each of them, in order, to what it
holds: cut at the line ends, the file consists of these lines and an empty rest. Two lists of events
give the same file exactly if they agree event by event in the type, the written time stamp and the
data. -/
theorem file_unambiguous (h : ∀ logged ∈ events, logged.2.Loggable) :
    (∀ text, events.foldlM (fun sink logged => sink.log logged.1 logged.2) (Sink.file text) =
      .ok (.file (text ++ file events))) ∧
    (file events).toList.splitOn '\n' =
      (events.map fun logged => (logged.2.line logged.1).toList) ++ [[]] ∧
    ∀ others : List (Stamp × Record), (∀ logged ∈ others, logged.2.Loggable) →
      (file events = file others ↔ List.Forall₂ Agrees events others) := by
  refine ⟨foldlM_log, ?_, fun others hothers => ?_⟩
  · rw [splitOn_file h, lines, List.map_map]
    rfl
  · rw [file_eq_iff h hothers, lines_eq_iff h hothers]

/-- Data with a line end in a text and a value `d` inside an inner object. -/
def noteData (d : Value) : Value :=
  .object [("b", .text "x\nnote 0.0"), ("a", .object [("d", d), ("c", .array [.null, .bool true])])]

/-- The same data with all keys in another order. -/
def rearrangedData (d : Value) : Value :=
  .object [("a", .object [("c", .array [.null, .bool true]), ("d", d)]), ("b", .text "x\nnote 0.0")]

/-- An event with data and one without a type. -/
def notes (data : Value) (last : Option Value) : List (Stamp × Record) :=
  [(⟨1500000⟩, { type := "note", data := some data }), (⟨0⟩, { type := "", data := last })]

theorem loggable_notes {data : Value} {last : Option Value} (hdata : data.Plain)
    (hlast : ∀ v ∈ last, v.Plain) : ∀ logged ∈ notes data last, logged.2.Loggable := by
  have hnote : IsUnbroken "note".toList := by decide
  have hempty : IsUnbroken "".toList := by decide
  exact List.forall_mem_cons.2 ⟨⟨hnote, by simpa using hdata⟩,
    List.forall_mem_singleton.2 ⟨hempty, hlast⟩⟩

theorem plain_list : (Value.array [.null, .bool true]).Plain :=
  .array (by simpa using ⟨.null, .bool true⟩)

theorem plain_noteData {d : Value} (hd : d.Plain) : (noteData d).Plain := by
  have hinner : (Value.object [("d", d), ("c", .array [.null, .bool true])]).Plain :=
    .object (by simpa using ⟨hd, plain_list⟩)
  exact .object (by simpa using ⟨.text _, hinner⟩)

theorem plain_rearrangedData {d : Value} (hd : d.Plain) : (rearrangedData d).Plain := by
  have hinner : (Value.object [("c", .array [.null, .bool true]), ("d", d)]).Plain :=
    .object (by simpa using ⟨plain_list, hd⟩)
  exact .object (by simpa using ⟨hinner, .text _⟩)

/-- Two fields with different keys may change places. -/
theorem same_swap {k k' : String} {v v' w w' : Value} (hne : k ≠ k') (hv : v.Same w)
    (hv' : v'.Same w') : (Value.object [(k, v), (k', v')]).Same (.object [(k', w'), (k, w)]) := by
  refine .object fun key => ?_
  simp only [Value.under_cons]
  by_cases hk : k = key
  · subst hk
    simpa [hne.symm, Value.under] using hv
  · by_cases hk' : k' = key <;> simp [hk, hk', Value.under, hv']

/-- The events keep their file when keys change places and null data are left out, and they do not
keep it when an integer inside the data becomes a text with the same digits. -/
theorem file_unambiguous_notes :
    (∀ logged ∈ notes (noteData (.int (-1))) (some .null), logged.2.Loggable) ∧
    ((file (notes (noteData (.int (-1))) (some .null))).toList.splitOn '\n').length = 3 ∧
    file (notes (noteData (.int (-1))) (some .null)) =
      file (notes (rearrangedData (.int (-1))) none) ∧
    file (notes (noteData (.int (-1))) (some .null)) ≠
      file (notes (noteData (.text "-1")) (some .null)) := by
  have hloggable : ∀ logged ∈ notes (noteData (.int (-1))) (some .null), logged.2.Loggable :=
    loggable_notes (plain_noteData (.int _)) (by simpa using .null)
  obtain ⟨-, hsplit, hsame⟩ := file_unambiguous hloggable
  refine ⟨hloggable, by rw [hsplit]; rfl, (hsame _ ?_).2 ?_, fun hfile => ?_⟩
  · exact loggable_notes (plain_rearrangedData (.int _)) (by simp)
  · have hlist : (Value.array [.null, .bool true]).Same (.array [.null, .bool true]) :=
      .array (.cons .null (.cons (.bool true) .nil))
    refine .cons ⟨rfl, rfl, ?_⟩ (.cons ⟨rfl, rfl, .null⟩ .nil)
    exact same_swap (by decide) (.text _) (same_swap (by decide) (.int _) hlist)
  · have hother : ∀ logged ∈ notes (noteData (.text "-1")) (some .null), logged.2.Loggable :=
      loggable_notes (plain_noteData (.text "-1")) (by simpa using .null)
    have hagree := (hsame _ hother).1 hfile
    cases hagree with
    | cons hfirst _ =>
      cases hfirst.same with
      | object hkeys =>
        cases hkeys "a" with
        | cons hinner _ =>
          cases hinner with
          | object hkeys => cases hkeys "d" with
            | cons hvalue _ => cases hvalue

end Record

end Event

end ContextFree
