import ContextFree.Proofs.Faults
import ContextFree.Proofs.Reading
import Mathlib.Logic.Relation

/-! # Listings that say the same

The lines of a listing may change places, blank lines and comments may be put in or taken out, and
two rule lines for one left side may be joined to one. All that is taken from the position of a line
is the number of a faulty one and the start symbol of a listing that declares none.
-/

namespace ContextFree.Listing

open Text

namespace Line

/-- The texts before and behind the first arrow of a line, without the blanks around them. -/
def sides? (line : List Char) : Option (List Char × List Char) :=
  (splitArrow (strip line)).map fun (before, after) => (strip before, strip after)

/-- The line is blank, or the first character that is no blank opens a comment. -/
def Idle (line : List Char) : Prop :=
  ∀ c ∈ (strip line).head?, c = '#'

/-- The line is neither idle nor a declaration, so that it has to be a rule. -/
structure IsRule (line : List Char) : Prop where
  busy : ¬Idle line
  undeclared : declaration? (strip line) = none

instance (line : List Char) : Decidable (Idle line) :=
  decidable_of_iff ((strip line).head?.all (· = '#')) (by simp [Idle, Option.all_eq_true])

instance (line : List Char) : Decidable (IsRule line) :=
  decidable_of_iff (¬Idle line ∧ declaration? (strip line) = none)
    ⟨fun h => ⟨h.1, h.2⟩, fun h => ⟨h.busy, h.undeclared⟩⟩

/-- The texts between the bars of a right side, without the blanks around them. -/
def partsOf (right : List Char) : List (List Char) :=
  (pieces (· = '|') right).map strip

variable {line line' cs xs ys before after left right : List Char} {said : Line} {heading : Heading}

theorem sides?_eq_some : sides? line = some (left, right) ↔ ∃ before after,
    splitArrow (strip line) = some (before, after) ∧ strip before = left ∧ strip after = right := by
  simp [sides?]

theorem read_of_idle (h : Idle line) : read line = .ok .blank := by
  cases hline : strip line with
  | nil =>
    rw [read, hline]
  | cons c cs =>
    have hc : c = '#' := h c (by simp [hline])
    subst hc
    exact read_comment hline

section Left

theorem exists_of_splitArrow (h : splitArrow cs = some (before, after)) :
    ∃ c rest, cs = before ++ c :: rest ∧ (c = '-' ∨ c = '→') := by
  fun_induction splitArrow cs generalizing before with
  | case1 => cases h
  | case2 cs =>
    cases h
    exact ⟨_, _, rfl, .inl rfl⟩
  | case3 cs =>
    cases h
    exact ⟨_, _, rfl, .inr rfl⟩
  | case4 c cs hpair hc ih =>
    obtain ⟨⟨left, right⟩, hcs, heq⟩ := Option.map_eq_some_iff.1 h
    cases heq
    obtain ⟨d, rest, rfl, hd⟩ := ih hcs
    exact ⟨d, rest, rfl, hd⟩

theorem declaration?_eq_none_iff : declaration? cs = none ↔
    ∀ h, (declarationOf h cs).isSome = false := by
  rw [declaration?, List.findSome?_eq_none_iff]
  constructor
  · intro hnone h
    rw [hnone h (by cases h <;> simp)]
    rfl
  · intro hnone h _
    simpa using hnone h

/-- Whether a text is a declaration is decided when the first character that is neither a blank nor
part of the heading comes. -/
theorem isSome_declarationOf_append (hhead : ∀ c ∈ ys.head?, c ∉ heading.word.toList)
    (hcolon : ∀ c ∈ (ys.dropWhile isBlank).head?, c ≠ ':') :
    (declarationOf heading (xs ++ ys)).isSome = (declarationOf heading xs).isSome := by
  have hword : heading.word.toList <+: xs ++ ys ↔ heading.word.toList <+: xs := by
    constructor
    · intro h
      cases ys with
      | nil => simpa using h
      | cons y ys => exact prefix_of_prefix_append_cons h (hhead y rfl)
    · exact fun h => h.trans (List.prefix_append xs ys)
  rw [declarationOf, declarationOf]
  simp only [List.isPrefixOf_iff_prefix, hword]
  split
  next hopen =>
    obtain ⟨tail, rfl⟩ := hopen
    rw [List.append_assoc, List.drop_left, List.drop_left, List.dropWhile_append]
    -- The colon could come from `ys` only where blanks alone follow the word.
    cases htail : tail.dropWhile isBlank with
    | nil =>
      cases hys : ys.dropWhile isBlank with
      | nil => rfl
      | cons c rest =>
        have hc : c ≠ ':' := hcolon c (by rw [hys]; rfl)
        simp [hc]
    | cons c rest =>
      by_cases hc : c = ':'
      · subst hc
        rfl
      · simp [hc]
  next => rfl

theorem splitArrow_append_right (h : splitArrow cs = some (before, after)) :
    splitArrow (cs ++ xs) = some (before, after ++ xs) := by
  fun_induction splitArrow cs generalizing before with
  | case1 => cases h
  | case2 cs =>
    cases h
    rfl
  | case3 cs =>
    cases h
    simp [splitArrow]
  | case4 c cs hpair hc ih =>
    obtain ⟨⟨left, right⟩, hcs, heq⟩ := Option.map_eq_some_iff.1 h
    cases heq
    rw [List.cons_append, splitArrow, if_neg hc, ih hcs]
    · rfl
    · intro cs' hc' hcs'
      cases cs with
      | nil => cases hcs
      | cons d cs => exact hpair cs hc' (by simpa using (List.cons.inj hcs').1)

section Cut

variable (hcut : splitArrow (strip line) = some (before, after))
include hcut

theorem isBlank_of_head_cut : ∀ c ∈ before.head?, isBlank c = false := by
  obtain ⟨d, rest, hline, -⟩ := exists_of_splitArrow hcut
  intro c hc
  cases before with
  | nil => cases hc
  | cons e before =>
    cases hc
    exact isBlank_of_strip_eq_cons hline

theorem idle_iff : Idle line ↔ (strip before).head? = some '#' := by
  obtain ⟨c, rest, hline, hc⟩ := exists_of_splitArrow hcut
  have hhash : c ≠ '#' := by rcases hc with rfl | rfl <;> decide
  have hstrip : decide ((strip before).head? = some '#') = decide (before.head? = some '#') := by
    refine apply_strip_of_head (f := fun cs => decide (cs.head? = some '#')) ?_
      (isBlank_of_head_cut hcut)
    intro b cs hb
    cases cs with
    | nil =>
      have hne : b ≠ '#' := by
        rintro rfl
        cases hb
      simp [hne]
    | cons d cs => rfl
  rw [decide_eq_decide] at hstrip
  rw [hstrip, Idle, hline]
  cases before with
  | nil => simp [hhash]
  | cons d before => simp

theorem isSome_declarationOf_strip : (declarationOf heading (strip line)).isSome =
    (declarationOf heading (strip before)).isSome := by
  obtain ⟨c, rest, hline, hc⟩ := exists_of_splitArrow hcut
  have hblank : isBlank c = false := by rcases hc with rfl | rfl <;> decide
  have hcolon : c ≠ ':' := by rcases hc with rfl | rfl <;> decide
  have hword : c ∉ heading.word.toList := by
    rcases hc with rfl | rfl <;> cases heading <;> decide
  have hfield : IsField heading.word.toList := by cases heading <;> decide
  have hstrip : (declarationOf heading (strip before)).isSome =
      (declarationOf heading before).isSome := by
    refine apply_strip_of_head (f := fun cs => (declarationOf heading cs).isSome) ?_
      (isBlank_of_head_cut hcut)
    intro b cs hb
    refine isSome_declarationOf_append ?_ (by simp [hb])
    rintro _ ⟨⟩ hmem
    rw [hfield.solid b hmem] at hb
    cases hb
  rw [hstrip, hline]
  exact isSome_declarationOf_append (by simpa using hword) (by simpa [hblank] using hcolon)

end Cut

theorem isRule_iff (h : sides? line = some (left, right)) : IsRule line ↔
    left.head? ≠ some '#' ∧ ∀ heading, (declarationOf heading left).isSome = false := by
  obtain ⟨before, after, hcut, rfl, rfl⟩ := sides?_eq_some.1 h
  constructor
  · rintro ⟨hbusy, hundeclared⟩
    rw [declaration?_eq_none_iff] at hundeclared
    refine ⟨mt (idle_iff hcut).2 hbusy, fun heading => ?_⟩
    rw [← isSome_declarationOf_strip hcut, hundeclared]
  · rintro ⟨hleft, hnone⟩
    refine ⟨mt (idle_iff hcut).1 hleft, declaration?_eq_none_iff.2 fun heading => ?_⟩
    rw [isSome_declarationOf_strip hcut, hnone]

theorem IsRule.congr (hrule : IsRule line) (h : sides? line = some (left, right))
    (h' : sides? line' = some (left, ys)) : IsRule line' :=
  (isRule_iff h').2 ((isRule_iff h).1 hrule)

end Left

section Right

theorem IsRule.read_eq_ok (hrule : IsRule line) (h : sides? line = some (left, right))
    (hmarker : String.ofList right ≠ emptyMarker) : read line = .ok said ↔
      IsField left ∧ (∀ part ∈ partsOf right, part ≠ []) ∧
        said = .rule (String.ofList left) ((partsOf right).map String.ofList) := by
  obtain ⟨before, after, hcut, rfl, rfl⟩ := sides?_eq_some.1 h
  obtain ⟨c, cs, hline, hc⟩ : ∃ c cs, strip line = c :: cs ∧ c ≠ '#' := by
    cases hline : strip line with
    | nil => exact absurd (by simp [Idle, hline]) hrule.busy
    | cons c cs => exact ⟨c, cs, rfl, by simpa [Idle, hline] using hrule.busy⟩
  rw [read_of_strip_eq hline hc, ← hline, hrule.undeclared, Option.elim_none, ruleOf_eq_ok]
  simp only [hcut, Option.some.injEq, Prod.mk.injEq]
  constructor
  · rintro ⟨_, _, alts, ⟨rfl, rfl⟩, hfield, halts, rfl⟩
    obtain ⟨rfl, hne⟩ := (alternatives_eq_ok hmarker).1 halts
    exact ⟨hfield, hne, rfl⟩
  · rintro ⟨hfield, hne, rfl⟩
    exact ⟨before, after, _, ⟨rfl, rfl⟩, hfield, (alternatives_eq_ok hmarker).2 ⟨rfl, hne⟩, rfl⟩

theorem partsOf_strip : partsOf (strip cs) = partsOf cs := by
  refine map_strip_pieces_strip ?_ cs
  intro c hc
  rw [decide_eq_false_iff_not]
  rintro rfl
  cases hc

theorem partsOf_append_cons : partsOf (xs ++ '|' :: ys) = partsOf xs ++ partsOf ys := by
  rw [partsOf, pieces_eq_splitOnP, List.splitOnP_append_cons xs ys (by simp), List.map_append,
    ← pieces_eq_splitOnP, ← pieces_eq_splitOnP]
  rfl

theorem ofList_strip_ne_emptyMarker : String.ofList (strip (xs ++ '|' :: ys)) ≠ emptyMarker := by
  intro heq
  have hbar : '|' ∈ strip (xs ++ '|' :: ys) := mem_strip (by decide) (by simp)
  rw [← String.toList_ofList (l := strip (xs ++ '|' :: ys)), heq] at hbar
  revert hbar
  decide

end Right

/-- A right side goes behind a line with an arrow and a bar. -/
theorem sides?_append (h : sides? line = some (left, right)) (hxs : strip xs = xs) :
    ∃ after, right = strip after ∧
      sides? (strip line ++ '|' :: xs) = some (left, strip (after ++ '|' :: xs)) := by
  obtain ⟨before, after, hcut, rfl, rfl⟩ := sides?_eq_some.1 h
  have hline : strip line ≠ [] := by
    intro hnil
    rw [hnil] at hcut
    cases hcut
  have hbar : IsTrimmed ('|' :: xs) := by
    by_cases hnil : xs = []
    · subst hnil
      decide
    · have htrimmed : IsTrimmed xs := hxs ▸ isTrimmed_strip (hxs.symm ▸ hnil)
      have hboth : IsTrimmed (['|'] ++ [] ++ xs) := IsTrimmed.append (by decide) htrimmed
      exact hboth
  have hkept : strip (strip line ++ '|' :: xs) = strip line ++ '|' :: xs := by
    have htrimmed : IsTrimmed (strip line ++ [] ++ '|' :: xs) := (isTrimmed_strip hline).append hbar
    rw [List.append_nil] at htrimmed
    exact htrimmed.strip_eq
  refine ⟨after, rfl, sides?_eq_some.2 ⟨before, after ++ '|' :: xs, ?_, rfl, rfl⟩⟩
  rw [hkept]
  exact splitArrow_append_right hcut

end Line

open Line

/-- One step that leaves alone what a listing says: its lines are permuted, or an idle line is put
in, or two rule lines with the same left side are joined to one whose right side is that of both
with a bar between them. A right side that is the empty marker alone is not joined. Where one of the
lines is a rule, so are the others, because their left side decides that. -/
inductive Recasts : List (List Char) → List (List Char) → Prop where
  | perm {ls ls' : List (List Char)} : ls.Perm ls' → Recasts ls ls'
  | idle {l : List Char} {ls : List (List Char)} : Idle l → Recasts ls (l :: ls)
  | join {l l' joined left xs ys : List Char} {ls : List (List Char)} : IsRule l →
    sides? l = some (left, strip xs) → sides? l' = some (left, strip ys) →
      sides? joined = some (left, strip (xs ++ '|' :: ys)) →
        String.ofList (strip xs) ≠ emptyMarker → String.ofList (strip ys) ≠ emptyMarker →
          Recasts (l :: l' :: ls) (joined :: ls)

/-- Two rule lines with the same left side can always be joined: the right side of the second one
goes behind the first one. -/
theorem recasts_append {l l' left right right' : List Char} {ls : List (List Char)}
    (hrule : IsRule l) (h : sides? l = some (left, right)) (h' : sides? l' = some (left, right'))
    (hright : String.ofList right ≠ emptyMarker) (hright' : String.ofList right' ≠ emptyMarker) :
    Recasts (l :: l' :: ls) ((strip l ++ '|' :: right') :: ls) := by
  have hkept : strip right' = right' := by
    obtain ⟨_, after, -, -, rfl⟩ := sides?_eq_some.1 h'
    exact strip_strip after
  obtain ⟨after, rfl, hjoined⟩ := sides?_append h hkept
  rw [← hkept] at h' hright'
  exact .join hrule h h' hjoined hright hright'

/-- Lines that say the same: they declare the same, and have rules for the same left sides with the
same alternatives. -/
structure Alike (said said' : List Line) : Prop where
  unrepeated : Unrepeated said ↔ Unrepeated said'
  declarations : ∀ h names, .declaration h names ∈ said ↔ .declaration h names ∈ said'
  lefts : ∀ A, (∃ alts, .rule A alts ∈ said) ↔ ∃ alts, .rule A alts ∈ said'
  texts : ∀ A text, (∃ alts, .rule A alts ∈ said ∧ text ∈ alts) ↔
    ∃ alts, .rule A alts ∈ said' ∧ text ∈ alts

/-- Where the first lines can be read, so can the second ones, and they say the same. -/
def Echoes (ls ls' : List (List Char)) : Prop :=
  ∀ said, ls.mapM Line.read = .ok said → ∃ said', ls'.mapM Line.read = .ok said' ∧ Alike said said'

variable {said said' said'' : List Line} {ls ls' ls'' : List (List Char)}

namespace Alike

theorem refl (said : List Line) : Alike said said :=
  ⟨.rfl, fun _ _ => .rfl, fun _ => .rfl, fun _ _ => .rfl⟩

theorem symm (h : Alike said said') : Alike said' said where
  unrepeated := h.unrepeated.symm
  declarations heading names := (h.declarations heading names).symm
  lefts A := (h.lefts A).symm
  texts A text := (h.texts A text).symm

theorem trans (h : Alike said said') (h' : Alike said' said'') : Alike said said'' where
  unrepeated := h.unrepeated.trans h'.unrepeated
  declarations heading names := (h.declarations heading names).trans (h'.declarations heading names)
  lefts A := (h.lefts A).trans (h'.lefts A)
  texts A text := (h.texts A text).trans (h'.texts A text)

theorem of_perm (h : said.Perm said') : Alike said said' where
  unrepeated := (h.filterMap Line.heading?).nodup_iff
  declarations _ _ := h.mem_iff
  lefts A := by simp only [h.mem_iff]
  texts A text := by simp only [h.mem_iff]

theorem blank_cons (said : List Line) : Alike said (.blank :: said) := by
  refine ⟨?_, by simp, by simp, by simp⟩
  simp [unrepeated_cons, Line.heading?]

/-- Two rules for one left side are as good as one. -/
theorem rule_cons (A : Name) (alts alts' : List String) (said : List Line) :
    Alike (.rule A alts :: .rule A alts' :: said) (.rule A (alts ++ alts') :: said) := by
  refine ⟨?_, by simp, fun B => ?_, fun B text => ?_⟩
  · simp [unrepeated_cons, Line.heading?]
  · simp only [List.mem_cons, Line.rule.injEq]
    grind
  · simp only [List.mem_cons, Line.rule.injEq]
    grind

end Alike

theorem Echoes.refl (ls : List (List Char)) : Echoes ls ls :=
  fun said h => ⟨said, h, .refl said⟩

theorem Echoes.trans (h : Echoes ls ls') (h' : Echoes ls' ls'') : Echoes ls ls'' := by
  intro said hread
  obtain ⟨said', hread', halike⟩ := h said hread
  obtain ⟨said'', hread'', halike'⟩ := h' said' hread'
  exact ⟨said'', hread'', halike.trans halike'⟩

theorem echoes_of_perm (h : ls.Perm ls') : Echoes ls ls' := by
  intro said hread
  obtain ⟨said', hread', hperm⟩ := exists_perm_of_mapM_eq_ok h hread
  exact ⟨said', hread', .of_perm hperm⟩

section Join

variable {l l' joined left xs ys : List Char} (hrule : IsRule l)
  (hl : sides? l = some (left, strip xs)) (hl' : sides? l' = some (left, strip ys))
  (hjoined : sides? joined = some (left, strip (xs ++ '|' :: ys)))
  (hxs : String.ofList (strip xs) ≠ emptyMarker) (hys : String.ofList (strip ys) ≠ emptyMarker)
include hrule hl hl' hjoined hxs hys

/-- The joined line can be read exactly if both lines can, and it gives the alternatives of both. -/
theorem read_joined {line : Line} : Line.read joined = .ok line ↔ ∃ alts alts',
    Line.read l = .ok (.rule (String.ofList left) alts) ∧
      Line.read l' = .ok (.rule (String.ofList left) alts') ∧
        line = .rule (String.ofList left) (alts ++ alts') := by
  rw [(hrule.congr hl hjoined).read_eq_ok hjoined ofList_strip_ne_emptyMarker]
  simp only [hrule.read_eq_ok hl hxs, (hrule.congr hl hl').read_eq_ok hl' hys, partsOf_strip,
    partsOf_append_cons, List.map_append]
  constructor
  · rintro ⟨hfield, hne, rfl⟩
    obtain ⟨hfirst, hsecond⟩ := List.forall_mem_append.1 hne
    exact ⟨_, _, ⟨hfield, hfirst, rfl⟩, ⟨hfield, hsecond, rfl⟩, rfl⟩
  · rintro ⟨alts, alts', ⟨hfield, hfirst, heq⟩, ⟨-, hsecond, heq'⟩, rfl⟩
    cases heq
    cases heq'
    exact ⟨hfield, List.forall_mem_append.2 ⟨hfirst, hsecond⟩, rfl⟩

theorem echoes_join : Echoes (l :: l' :: ls) (joined :: ls) := by
  intro said hread
  obtain ⟨line, rest, hline, hrest, rfl⟩ := mapM_cons_eq_ok.1 hread
  obtain ⟨line', said, hline', hsaid, rfl⟩ := mapM_cons_eq_ok.1 hrest
  obtain ⟨-, -, rfl⟩ := (hrule.read_eq_ok hl hxs).1 hline
  obtain ⟨-, -, rfl⟩ := ((hrule.congr hl hl').read_eq_ok hl' hys).1 hline'
  have hboth := (read_joined hrule hl hl' hjoined hxs hys).2 ⟨_, _, hline, hline', rfl⟩
  exact ⟨_, mapM_cons_eq_ok.2 ⟨_, _, hboth, hsaid, rfl⟩, .rule_cons _ _ _ said⟩

theorem echoes_split : Echoes (joined :: ls) (l :: l' :: ls) := by
  intro said hread
  obtain ⟨line, said, hline, hsaid, rfl⟩ := mapM_cons_eq_ok.1 hread
  obtain ⟨alts, alts', hfirst, hsecond, rfl⟩ :=
    (read_joined hrule hl hl' hjoined hxs hys).1 hline
  have hrest := mapM_cons_eq_ok.2 ⟨_, _, hsecond, hsaid, rfl⟩
  exact ⟨_, mapM_cons_eq_ok.2 ⟨_, _, hfirst, hrest, rfl⟩, (Alike.rule_cons _ _ _ said).symm⟩

end Join

section Idle

variable {l : List Char} (hidle : Idle l)
include hidle

theorem echoes_idle : Echoes ls (l :: ls) := by
  intro said hread
  have hread' := mapM_cons_eq_ok.2 ⟨_, _, read_of_idle hidle, hread, rfl⟩
  exact ⟨_, hread', .blank_cons said⟩

theorem echoes_of_idle : Echoes (l :: ls) ls := by
  intro said hread
  obtain ⟨line, said, hl, hrest, rfl⟩ := mapM_cons_eq_ok.1 hread
  rw [read_of_idle hidle] at hl
  cases hl
  exact ⟨said, hrest, (Alike.blank_cons said).symm⟩

end Idle

/-- No step changes what the lines say, in either direction. -/
theorem Recasts.echoes (h : Recasts ls ls') : Echoes ls ls' ∧ Echoes ls' ls := by
  cases h with
  | perm hperm => exact ⟨echoes_of_perm hperm, echoes_of_perm hperm.symm⟩
  | idle hidle => exact ⟨echoes_idle hidle, echoes_of_idle hidle⟩
  | join hrule hl hl' hjoined hxs hys =>
    exact ⟨echoes_join hrule hl hl' hjoined hxs hys, echoes_split hrule hl hl' hjoined hxs hys⟩

/-- Nor does any number of steps. -/
theorem echoes_of_recasts (h : Relation.EqvGen Recasts ls ls') : Echoes ls ls' ∧ Echoes ls' ls := by
  induction h with
  | rel _ _ h => exact h.echoes
  | refl ls => exact ⟨.refl ls, .refl ls⟩
  | symm _ _ _ ih => exact ih.symm
  | trans _ _ _ _ _ ih ih' => exact ⟨ih.1.trans ih'.1, ih'.2.trans ih.2⟩

section Spelled

variable {start? : Option Name} {g : Grammar} {terminals : List Name}

namespace Alike

variable (h : Alike said said') (hnodup : Unrepeated said)
include h hnodup

theorem declared?_eq (heading : Heading) : declared? said heading = declared? said' heading := by
  ext names
  rw [declared?_eq_some hnodup, declared?_eq_some (h.unrepeated.1 hnodup), h.declarations]

theorem mem_nonterminalsOf {A : Name} : A ∈ nonterminalsOf said ↔ A ∈ nonterminalsOf said' := by
  rw [nonterminalsOf, nonterminalsOf, ← h.declared?_eq hnodup]
  cases declared? said .nonterminals with
  | some names => rfl
  | none => simpa [mem_rulesOf] using h.lefts A

theorem spells (hspells : (spellingOf said terminals).Spells g) :
    (spellingOf said' terminals).Spells g := by
  have hspells' : Spelling.Spells
      ⟨nonterminalsOf said', terminals, rulesOf said, epsilonMarker⟩ g :=
    hspells.congr_nonterminals fun A => h.mem_nonterminalsOf hnodup
  refine hspells'.congr ?_ ?_
  · simpa [mem_rulesOf] using h.lefts
  · simpa [mem_rulesOf] using h.texts

theorem startOf?_eq {names : List Name} (hstart : .declaration .start names ∈ said) :
    startOf? said' = startOf? said := by
  have hdeclared := (declared?_eq_some hnodup).2 hstart
  rw [startOf?, startOf?, ← h.declared?_eq hnodup, hdeclared]
  cases names with
  | nil => rfl
  | cons name names => cases names <;> rfl

end Alike

/-- If the lines can be read, one of them declares the start symbol, unless it is given. -/
def StartGiven (start? : Option Name) (ls : List (List Char)) : Prop :=
  start?.isSome ∨ ∀ said, ls.mapM Line.read = .ok said → ∃ names, .declaration .start names ∈ said

theorem Echoes.startGiven (h : Echoes ls' ls) (hstart : StartGiven start? ls) :
    StartGiven start? ls' := by
  refine hstart.imp_right fun hsaid said' hread => ?_
  obtain ⟨said, hread, halike⟩ := h said' hread
  obtain ⟨names, hnames⟩ := hsaid said hread
  exact ⟨names, (halike.declarations _ _).2 hnames⟩

/-- A text whose lines are echoed is read as the same grammar. -/
theorem Echoes.read_eq_ok {text text' : String}
    (h : Echoes (lines text.toList) (lines text'.toList))
    (hstart : StartGiven start? (lines text.toList)) (hread : read text start? = .ok g) :
    read text' start? = .ok g := by
  obtain ⟨said, terminals, hsaid, hnodup, hterminals, hfirst, hspells⟩ := Listing.read_eq_ok.1 hread
  obtain ⟨said', hsaid', halike⟩ := h said hsaid
  refine Listing.read_eq_ok.2 ⟨said', terminals, hsaid', halike.unrepeated.1 hnodup, ?_, ?_,
    halike.spells hnodup hspells⟩
  · rw [← halike.declared?_eq hnodup, hterminals]
  · rcases hstart with hgiven | hdeclared
    · obtain ⟨start, rfl⟩ := Option.isSome_iff_exists.1 hgiven
      exact hfirst
    · obtain ⟨names, hnames⟩ := hdeclared said hsaid
      rw [halike.startOf?_eq hnodup hnames, hfirst]

end Spelled

/-- The text that consists of lines. -/
def textOf (ls : List (List Char)) : String :=
  String.ofList (['\n'].intercalate ls)

/-- Only an empty line at the end gets lost. -/
theorem recasts_lines (h : ∀ l ∈ ls, OneLine l) :
    Relation.EqvGen Recasts (lines (textOf ls).toList) ls := by
  rw [textOf, String.toList_ofList]
  rcases lines_intercalate h with heq | heq
  · rw [heq]
    exact .refl ls
  · have hidle : Idle [] := by simp [Idle]
    have hperm : ([] :: lines (['\n'].intercalate ls)).Perm ls := by
      conv => rhs; rw [heq]
      exact (List.perm_append_singleton _ _).symm
    exact .trans _ _ _ (.rel _ _ (.idle hidle)) (.rel _ _ (.perm hperm))

/-- The outcome of reading a text does not depend on its layout, provided that the start symbol is
given or declared: lines may be permuted, idle lines be added and taken out, and rule lines be
joined and split, in any number of steps. Both texts are refused as no grammars, or both are read as
the same grammar. -/
theorem read_recast {ls ls' : List (List Char)} {start? : Option Name}
    (h : Relation.EqvGen Recasts ls ls') (hls : ∀ l ∈ ls, OneLine l) (hls' : ∀ l ∈ ls', OneLine l)
    (hstart : start?.isSome ∨
      ∃ l ∈ ls, ∃ names, Line.read l = .ok (.declaration .start names)) :
    (∃ g, read (textOf ls) start? = .ok g ∧ read (textOf ls') start? = .ok g) ∨
      ∃ fault fault', read (textOf ls) start? = .error fault ∧ fault.kind = .grammar ∧
        read (textOf ls') start? = .error fault' ∧ fault'.kind = .grammar := by
  have hgiven : StartGiven start? ls := by
    refine hstart.imp_right ?_
    rintro ⟨l, hl, names, hread⟩ said hsaid
    obtain ⟨line, hline, hread'⟩ := exists_mem_of_mapM_eq_ok hsaid l hl
    rw [hread] at hread'
    cases hread'
    exact ⟨names, hline⟩
  obtain ⟨hto, hfrom⟩ := echoes_of_recasts
    (.trans _ _ _ (recasts_lines hls) (.trans _ _ _ h (.symm _ _ (recasts_lines hls'))))
  have hgiven' := (echoes_of_recasts (recasts_lines hls)).1.startGiven hgiven
  have hiff (g : Grammar) : read (textOf ls) start? = .ok g ↔ read (textOf ls') start? = .ok g :=
    ⟨hto.read_eq_ok hgiven', hfrom.read_eq_ok (hfrom.startGiven hgiven')⟩
  cases hread : read (textOf ls) start? with
  | ok g => exact .inl ⟨g, rfl, (hiff g).1 hread⟩
  | error fault =>
    cases hread' : read (textOf ls') start? with
    | ok g =>
      rw [(hiff g).2 hread'] at hread
      cases hread
    | error fault' =>
      exact .inr ⟨fault, fault', rfl, vetted_read fault hread, rfl, vetted_read fault' hread'⟩

/-- A listing whose start symbol is declared behind two rules for it. -/
def spread : List (List Char) :=
  ["S -> aA".toList, "S → ε".toList, "start: S".toList, "A -> a".toList, "terminals: a".toList]

/-- The same listing with a comment and with the two rules in one line. -/
def gathered : List (List Char) :=
  ["# all of it".toList, "terminals: a".toList, "start: S".toList, "A -> a".toList,
    "S -> aA|ε".toList]

theorem recasts_spread : Relation.EqvGen Recasts spread gathered := by
  have hsides : sides? "S -> aA".toList = some ("S".toList, "aA".toList) := rfl
  have hsides' : sides? "S → ε".toList = some ("S".toList, "ε".toList) := rfl
  have hjoin : Recasts spread ("S -> aA|ε".toList :: spread.drop 2) :=
    recasts_append (by decide) hsides hsides' (by decide) (by decide)
  have hidle : Recasts ("S -> aA|ε".toList :: spread.drop 2)
      ("# all of it".toList :: "S -> aA|ε".toList :: spread.drop 2) := .idle (by decide)
  have hperm : ("# all of it".toList :: "S -> aA|ε".toList :: spread.drop 2).Perm gathered := by
    decide
  exact .trans _ _ _ (.rel _ _ hjoin) (.trans _ _ _ (.rel _ _ hidle) (.rel _ _ (.perm hperm)))

/-- Both listings are read as the same grammar. -/
theorem read_recast_spread : Relation.EqvGen Recasts spread gathered ∧
    ∃ g, read (textOf spread) none = .ok g ∧ read (textOf gathered) none = .ok g := by
  have hread : (read (textOf spread) none).toOption.isSome = true := by decide +kernel
  have hstart : (none : Option Name).isSome ∨ ∃ l ∈ spread, ∃ names,
      Line.read l = .ok (.declaration .start names) :=
    .inr ⟨"start: S".toList, by decide, ["S"], rfl⟩
  refine ⟨recasts_spread, ?_⟩
  rcases read_recast recasts_spread (by decide) (by decide) hstart with
    hsame | ⟨fault, -, hfault, -⟩
  · exact hsame
  · rw [hfault] at hread
    cases hread

end ContextFree.Listing
