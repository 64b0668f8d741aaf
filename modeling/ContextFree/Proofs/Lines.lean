import ContextFree.Grammar.Layout
import ContextFree.Listing.Line
import ContextFree.Listing.Writer
import ContextFree.Proofs.Texts

/-! # What a line says

A rule line is cut at its first arrow, so the left side holds none, and a line that opens with a
heading and a colon is a declaration. What is left to a rule line are lefts without arrows and
headings and alternatives without bars, and all of these are read again when they are written.
-/

namespace ContextFree.Listing

/-- The name holds no arrow and does not begin like a declaration. -/
structure Plain (A : Name) : Prop where
  dash : ¬"->".toList <:+: A.toList
  arrow : '→' ∉ A.toList
  heading : ∀ h : Heading, ¬(h.word ++ ":").toList <+: A.toList

/-- The name begins like a comment. -/
def IsComment (A : Name) : Prop :=
  "#".toList <+: A.toList

instance (A : Name) : Decidable (IsComment A) :=
  inferInstanceAs (Decidable ("#".toList <+: A.toList))

namespace Line

open Text

variable {cs before after rest : List Char}

section Arrow

theorem splitArrow_eq_none_iff : splitArrow cs = none ↔ ¬"->".toList <:+: cs ∧ '→' ∉ cs := by
  fun_induction splitArrow cs with
  | case1 => simp
  | case2 cs => simp [List.infix_cons_iff]
  | case3 cs => simp
  | case4 c cs hpair hc ih =>
    have hhead : ¬"->".toList <+: c :: cs := by
      rintro ⟨rest, hrest⟩
      obtain ⟨rfl, rfl⟩ := List.cons.inj hrest
      exact hpair rest rfl rfl
    rw [Option.map_eq_none_iff, ih, List.infix_cons_iff, or_iff_right hhead, List.mem_cons,
      or_iff_right (Ne.symm hc)]

/-- A text is cut at its first arrow, so none stands before it. -/
theorem splitArrow_eq_some (h : splitArrow cs = some (before, after)) :
    before <+: cs ∧ splitArrow before = none := by
  fun_induction splitArrow cs generalizing before with
  | case1 => cases h
  | case2 cs =>
    cases h
    exact ⟨List.nil_prefix, rfl⟩
  | case3 cs =>
    cases h
    exact ⟨List.nil_prefix, rfl⟩
  | case4 c cs hpair hc ih =>
    obtain ⟨⟨left, right⟩, hcs, heq⟩ := Option.map_eq_some_iff.1 h
    cases heq
    obtain ⟨hbegin, hnone⟩ := ih hcs
    have hbegin' : c :: left <+: c :: cs := List.cons_prefix_cons.2 ⟨rfl, hbegin⟩
    refine ⟨hbegin', ?_⟩
    rw [splitArrow_eq_none_iff] at hnone ⊢
    rw [List.infix_cons_iff, List.mem_cons]
    refine ⟨?_, ?_⟩
    -- An arrow in front would have been split off at once.
    · rintro (hdash | hdash)
      · obtain ⟨rest, hrest⟩ := hdash.trans hbegin'
        obtain ⟨rfl, rfl⟩ := List.cons.inj hrest
        exact hpair rest rfl rfl
      · exact hnone.1 hdash
    · rintro (harrow | harrow)
      · exact hc harrow.symm
      · exact hnone.2 harrow

theorem splitArrow_append (h : splitArrow cs = none) :
    splitArrow (cs ++ ' ' :: '→' :: rest) = some (cs ++ [' '], rest) := by
  fun_induction splitArrow cs with
  | case1 => simp [splitArrow]
  | case2 cs => cases h
  | case3 cs => cases h
  | case4 c cs hpair hc ih =>
    rw [Option.map_eq_none_iff] at h
    rw [List.cons_append, splitArrow, if_neg hc, ih h]
    · rfl
    · intro cs' hc' hcs'
      cases cs with
      | nil => cases hcs'
      | cons d cs => exact hpair cs hc' (by simpa using (List.cons.inj hcs').1)

end Arrow

section Declaration

variable {h : Heading}

theorem declarationOf_append : declarationOf h ((h.word ++ ":").toList ++ rest) =
    some (.declaration h ((fields rest).map String.ofList)) := by
  have hcs : (h.word ++ ":").toList ++ rest = h.word.toList ++ ':' :: rest := by simp
  have hprefix : h.word.toList.isPrefixOf (h.word.toList ++ ':' :: rest) = true :=
    List.isPrefixOf_iff_prefix.2 (List.prefix_append _ _)
  rw [hcs, declarationOf, if_pos hprefix, List.drop_left]
  rfl

/-- The headings differ at their beginnings, so only one of them can open a text. -/
theorem declaration?_append : declaration? ((h.word ++ ":").toList ++ rest) =
    some (.declaration h ((fields rest).map String.ofList)) := by
  have hself : declarationOf h ((h.word ++ ":").toList ++ rest) =
      some (.declaration h ((fields rest).map String.ofList)) := declarationOf_append
  -- The headings are tried in their order, and no one of them opens with another.
  cases h with
  | nonterminals => rw [declaration?, List.findSome?_cons, hself]
  | terminals =>
    have hfirst : declarationOf .nonterminals ((Heading.terminals.word ++ ":").toList ++ rest) =
        none := rfl
    rw [declaration?, List.findSome?_cons, hfirst, List.findSome?_cons, hself]
  | start =>
    have hfirst : declarationOf .nonterminals ((Heading.start.word ++ ":").toList ++ rest) =
        none := rfl
    have hsecond : declarationOf .terminals ((Heading.start.word ++ ":").toList ++ rest) =
        none := rfl
    rw [declaration?, List.findSome?_cons, hfirst, List.findSome?_cons, hsecond,
      List.findSome?_cons, hself]

theorem declaration?_eq_some {said : Line} (hsaid : declaration? cs = some said) :
    ∃ h names, said = .declaration h names ∧ ∀ name ∈ names, IsField name.toList := by
  obtain ⟨h, -, hh⟩ := List.exists_of_findSome?_eq_some hsaid
  rw [declarationOf] at hh
  split at hh
  · split at hh
    next rest hrest =>
      cases hh
      refine ⟨h, _, rfl, fun name hname => ?_⟩
      obtain ⟨field, hfield, rfl⟩ := List.mem_map.1 hname
      simpa using isField_of_mem_fields hfield
    next => cases hh
  · cases hh

/-- A text that opens with a field is a declaration only if a heading and a colon open the
field. -/
theorem declaration?_eq_none (hleft : IsField before)
    (hplain : ∀ h : Heading, ¬(h.word ++ ":").toList <+: before) :
    declaration? (before ++ ' ' :: '→' :: rest) = none := by
  rw [declaration?, List.findSome?_eq_none_iff]
  intro h _
  rw [declarationOf, ite_eq_right_iff]
  intro hword
  have hsolid : ' ' ∉ h.word.toList := by cases h <;> decide
  obtain ⟨tail, rfl⟩ :=
    prefix_of_prefix_append_cons (List.isPrefixOf_iff_prefix.1 hword) hsolid
  rw [List.append_assoc, List.drop_left]
  cases tail with
  | nil => rfl
  | cons c tail =>
    have hc : isBlank c = false := hleft.solid c (by simp)
    rw [List.cons_append, List.dropWhile_cons_of_neg (by simp [hc])]
    split
    next heq =>
      obtain ⟨rfl, -⟩ := List.cons.inj heq
      exact absurd ⟨tail, by simp⟩ (hplain h)
    next => rfl

end Declaration

section Rule

variable {line right : List Char} {left : Name} {alts : List String} {said : Line}

/-- Alternatives are what stands between bars, unless the empty marker stands alone. -/
theorem alternatives_eq_ok (hmarker : String.ofList right ≠ emptyMarker) :
    alternatives line right = .ok alts ↔
      alts = ((pieces (· = '|') right).map strip).map String.ofList ∧
        ∀ part ∈ (pieces (· = '|') right).map strip, part ≠ [] := by
  rw [alternatives, if_neg hmarker]
  dsimp only
  split
  next hany =>
    obtain ⟨part, hpart, hnil⟩ := List.any_eq_true.1 hany
    simp only [reduceCtorEq, false_iff, not_and]
    exact fun _ hne => hne part hpart (List.isEmpty_iff.1 hnil)
  next hany =>
    have hne : ∀ part ∈ (pieces (· = '|') right).map strip, part ≠ [] := by simpa using hany
    rw [Except.ok.injEq, and_iff_left hne]
    exact eq_comm

theorem ruleOf_eq_ok : ruleOf cs = .ok said ↔ ∃ before after alts,
    splitArrow cs = some (before, after) ∧ IsField (strip before) ∧
      alternatives cs (strip after) = .ok alts ∧
        said = .rule (String.ofList (strip before)) alts := by
  rw [ruleOf]
  cases hcut : splitArrow cs with
  | none => simp
  | some cut =>
    obtain ⟨before, after⟩ := cut
    simp only [Option.some.injEq, Prod.mk.injEq]
    split
    next hbad =>
      simp only [reduceCtorEq, false_iff]
      rintro ⟨_, _, alts, ⟨rfl, rfl⟩, hfield, -⟩
      exact isField_iff.1 hfield hbad
    next hgood =>
      constructor
      · intro h
        cases halts : alternatives cs (strip after) with
        | error cause =>
          rw [halts] at h
          cases h
        | ok alts =>
          rw [halts] at h
          cases h
          exact ⟨before, after, alts, ⟨rfl, rfl⟩, isField_iff.2 hgood, halts, rfl⟩
      · rintro ⟨_, _, alts, ⟨rfl, rfl⟩, -, halts, rfl⟩
        rw [halts]
        rfl

/-- A line that is neither empty nor a comment is a declaration if it can be one, and a rule
otherwise. -/
theorem read_of_strip_eq {c : Char} (h : strip line = c :: cs) (hc : c ≠ '#') :
    read line = (declaration? (c :: cs)).elim (ruleOf (c :: cs)) .ok := by
  rw [read, h]
  split
  next heq => cases heq
  next heq => cases heq; exact absurd rfl hc
  next => cases declaration? (c :: cs) <;> rfl

theorem read_comment (h : strip line = '#' :: cs) : read line = .ok .blank := by
  rw [read, h]
  rfl

theorem alternatives_bars (h : alternatives line right = .ok alts) :
    ∀ alt ∈ alts, alt ≠ "" ∧ '|' ∉ alt.toList := by
  by_cases hmarker : String.ofList right = emptyMarker
  · rw [alternatives, if_pos hmarker] at h
    cases h
    simp
  · obtain ⟨rfl, hne⟩ := (alternatives_eq_ok hmarker).1 h
    intro alt halt
    obtain ⟨part, hpart, rfl⟩ := List.mem_map.1 halt
    refine ⟨by simpa using hne part hpart, fun hbar => ?_⟩
    obtain ⟨piece, hpiece, rfl⟩ := List.mem_map.1 hpart
    rw [String.toList_ofList] at hbar
    simpa using (mem_of_mem_pieces hpiece (mem_of_mem_strip hbar)).2

theorem read_cases (h : read line = .ok said) : said = .blank ∨
    ∃ c cs, strip line = c :: cs ∧ c ≠ '#' ∧ (declaration? (c :: cs) = some said ∨
      declaration? (c :: cs) = none ∧ ruleOf (c :: cs) = .ok said) := by
  cases hline : strip line with
  | nil =>
    rw [read, hline] at h
    cases h
    exact .inl rfl
  | cons c cs =>
    by_cases hc : c = '#'
    · subst hc
      rw [read_comment hline] at h
      cases h
      exact .inl rfl
    · rw [read_of_strip_eq hline hc] at h
      refine .inr ⟨c, cs, rfl, hc, ?_⟩
      cases hdecl : declaration? (c :: cs) with
      | some said' =>
        rw [hdecl] at h
        cases h
        exact .inl rfl
      | none =>
        rw [hdecl] at h
        exact .inr ⟨rfl, h⟩

theorem of_read_declaration {h : Heading} {names : List Name}
    (hread : read line = .ok (.declaration h names)) : ∀ name ∈ names, IsField name.toList := by
  rcases read_cases hread with heq | ⟨c, cs, -, -, hdecl | ⟨-, hrule⟩⟩
  · cases heq
  · obtain ⟨_, _, heq, hfields⟩ := declaration?_eq_some hdecl
    cases heq
    exact hfields
  · obtain ⟨_, _, _, -, -, -, heq⟩ := ruleOf_eq_ok.1 hrule
    cases heq

theorem of_read_rule (h : read line = .ok (.rule left alts)) :
    IsField left.toList ∧ Plain left ∧ ¬IsComment left ∧
      ∀ alt ∈ alts, alt ≠ "" ∧ '|' ∉ alt.toList := by
  rcases read_cases h with heq | ⟨c, cs, hline, hc, hdecl | ⟨hdecl, hrule⟩⟩
  · cases heq
  · obtain ⟨_, _, heq, -⟩ := declaration?_eq_some hdecl
    cases heq
  obtain ⟨before, after, alts', hcut, hfield, halts, heq⟩ := ruleOf_eq_ok.1 hrule
  cases heq
  obtain ⟨hbefore, hnone⟩ := splitArrow_eq_some hcut
  obtain ⟨hdash, harrow⟩ := splitArrow_eq_none_iff.1 hnone
  have hleft : strip before <+: before := by
    refine strip_prefix fun d hd => ?_
    cases before with
    | nil => cases hd
    | cons e before =>
      obtain ⟨rfl, -⟩ := List.cons_prefix_cons.1 hbefore
      cases hd
      exact isBlank_of_strip_eq_cons hline
  have hopens := hleft.trans hbefore
  refine ⟨by simpa using hfield, ⟨?_, ?_, fun h hopen => ?_⟩, fun hopen => ?_,
    alternatives_bars halts⟩
  · simpa using fun h => hdash (h.trans hleft.isInfix)
  · simpa using fun h => harrow (hleft.subset h)
  · rw [String.toList_ofList] at hopen
    obtain ⟨rest, hrest⟩ := hopen.trans hopens
    rw [← hrest, declaration?_append] at hdecl
    cases hdecl
  · have hopen' : ['#'] <+: strip before := by simpa [IsComment] using hopen
    obtain ⟨rest, hrest⟩ := hopen'.trans hopens
    exact hc (List.cons.inj hrest).1.symm

end Rule

section Written

variable {left : Name} {texts : List String}

theorem word_cons (h : Heading) (cs : List Char) :
    ∃ d ds, (h.word ++ ":").toList ++ cs = d :: ds ∧ d ≠ '#' := by
  cases h <;> exact ⟨_, _, rfl, by decide⟩

theorem read_declarationLine {h : Heading} {names : List Name}
    (hnames : ∀ name ∈ names, IsField name.toList) :
    read (declarationLine h names).toList = .ok (.declaration h names) := by
  have hwords : ∀ word ∈ names.map String.toList, IsField word := by simpa using hnames
  have hword : IsTrimmed (h.word ++ ":").toList := by
    cases h <;> decide
  have hline : (declarationLine h names).toList =
      (h.word ++ ":").toList ++ [' '] ++ [' '].intercalate (names.map String.toList) := by
    simp [declarationLine]
  obtain ⟨rest, hstrip, hrest⟩ : ∃ rest,
      strip (declarationLine h names).toList = (h.word ++ ":").toList ++ rest ∧
        fields rest = names.map String.toList := by
    rw [hline]
    by_cases hnil : names = []
    · subst hnil
      refine ⟨[], ?_, rfl⟩
      rw [List.map_nil, List.intercalate_nil, List.append_nil, strip_concat (by decide),
        hword.strip_eq, List.append_nil]
    · have htrimmed : IsTrimmed ([' '].intercalate (names.map String.toList)) :=
        IsTrimmed.intercalate (by simpa using hnil) fun word hmem => (hwords word hmem).isTrimmed
      refine ⟨' ' :: [' '].intercalate (names.map String.toList), ?_, ?_⟩
      · rw [(hword.append htrimmed).strip_eq, List.append_assoc, List.singleton_append]
      · rw [fields_cons_blank (by decide), fields_intercalate hwords]
  obtain ⟨d, ds, hcons, hd⟩ := word_cons h rest
  rw [read_of_strip_eq (hstrip.trans hcons) hd, ← hcons, declaration?_append, hrest]
  simp [List.map_map, Function.comp_def]

/-- A rule line, from the texts of the alternatives. -/
def lineOf (left : Name) (texts : List String) : String :=
  left ++ " " ++ arrow ++ " " ++ bar.intercalate texts

theorem toList_lineOf : (lineOf left texts).toList =
    left.toList ++ ' ' :: '→' :: ' ' :: (bar.intercalate texts).toList := by
  simp [lineOf, arrow]

variable (hleft : IsField left.toList) (hne : texts ≠ [])
  (htexts : ∀ text ∈ texts, IsTrimmed text.toList)
include hleft hne htexts

omit hleft in
theorem isTrimmed_intercalate : IsTrimmed (bar.intercalate texts).toList := by
  rw [String.toList_intercalate]
  exact IsTrimmed.intercalate (by simpa using hne) (by simpa using htexts)

theorem strip_lineOf : strip (lineOf left texts).toList = (lineOf left texts).toList := by
  have htrimmed : IsTrimmed (left.toList ++ " → ".toList ++ (bar.intercalate texts).toList) :=
    hleft.isTrimmed.append (isTrimmed_intercalate hne htexts)
  have hline : (lineOf left texts).toList =
      left.toList ++ " → ".toList ++ (bar.intercalate texts).toList := by
    rw [toList_lineOf]
    simp
  rw [hline, htrimmed.strip_eq]

/-- A rule line that does not begin like a comment is not read as one. -/
theorem read_lineOf_eq (hcomment : ¬IsComment left) : read (lineOf left texts).toList =
    (declaration? (lineOf left texts).toList).elim (ruleOf (lineOf left texts).toList) .ok := by
  have hstrip := strip_lineOf hleft hne htexts
  obtain ⟨c, cs, hcs⟩ := List.exists_cons_of_ne_nil hleft.ne_nil
  have hline : (lineOf left texts).toList =
      c :: (cs ++ ' ' :: '→' :: ' ' :: (bar.intercalate texts).toList) := by
    rw [toList_lineOf, hcs, List.cons_append]
  have hc : c ≠ '#' := by
    rintro rfl
    exact hcomment ⟨cs, hcs.symm⟩
  rw [read_of_strip_eq (hstrip.trans hline) hc, hline]

theorem read_lineOf_ne_blank (hcomment : ¬IsComment left) :
    read (lineOf left texts).toList ≠ .ok .blank := by
  rw [read_lineOf_eq hleft hne htexts hcomment]
  intro hread
  cases hdecl : declaration? (lineOf left texts).toList with
  | some said =>
    rw [hdecl] at hread
    cases hread
    obtain ⟨_, _, heq, -⟩ := declaration?_eq_some hdecl
    cases heq
  | none =>
    rw [hdecl] at hread
    obtain ⟨_, _, _, -, -, -, heq⟩ := ruleOf_eq_ok.1 hread
    cases heq

theorem read_lineOf_comment (hcomment : IsComment left) :
    read (lineOf left texts).toList = .ok .blank := by
  obtain ⟨rest, hrest⟩ := hcomment
  have hstrip : strip (lineOf left texts).toList =
      '#' :: (rest ++ ' ' :: '→' :: ' ' :: (bar.intercalate texts).toList) := by
    rw [strip_lineOf hleft hne htexts, toList_lineOf, ← hrest]
    rfl
  exact read_comment hstrip

omit hleft in
/-- Alternatives without bars are found again, but for the empty marker alone. -/
theorem alternatives_intercalate {line : List Char} (hbars : ∀ text ∈ texts, '|' ∉ text.toList) :
    alternatives line (bar.intercalate texts).toList =
      .ok (if texts = [emptyMarker] then [] else texts) := by
  by_cases hmarker : texts = [emptyMarker]
  · subst hmarker
    rw [String.intercalate_singleton, if_pos rfl]
    rfl
  · have hjoined : String.ofList (bar.intercalate texts).toList ≠ emptyMarker := by
      rw [String.ofList_toList]
      match texts, hne with
      | [text], _ => simpa using hmarker
      | text :: next :: rest, _ =>
        intro heq
        have hbar : '|' ∈ emptyMarker.toList := by
          rw [← heq, String.intercalate_cons_cons]
          simp [bar]
        exact absurd hbar (by decide)
    have hparts : (pieces (· = '|') (bar.intercalate texts).toList).map strip =
        texts.map String.toList := by
      rw [String.toList_intercalate]
      refine map_strip_pieces_intercalate (b := ' ') (by decide) (by decide) (by simpa using hne) ?_
      simpa using fun text hmem => ⟨htexts text hmem, hbars text hmem⟩
    rw [if_neg hmarker, alternatives_eq_ok hjoined, hparts]
    refine ⟨by simp [List.map_map, Function.comp_def], ?_⟩
    simpa using fun text hmem hnil => (htexts text hmem).ne_nil (by simp [hnil])

/-- A rule line with a plain left side and alternatives without bars is read as it was written,
unless its only alternative is the empty marker. -/
theorem read_lineOf (hplain : Plain left) (hcomment : ¬IsComment left)
    (hbars : ∀ text ∈ texts, '|' ∉ text.toList) : read (lineOf left texts).toList =
      .ok (.rule left (if texts = [emptyMarker] then [] else texts)) := by
  have hcut : splitArrow (left.toList ++ ' ' :: '→' :: ' ' :: (bar.intercalate texts).toList) =
      some (left.toList ++ [' '], ' ' :: (bar.intercalate texts).toList) :=
    splitArrow_append (splitArrow_eq_none_iff.2 ⟨hplain.dash, hplain.arrow⟩)
  rw [read_lineOf_eq hleft hne htexts hcomment, toList_lineOf,
    declaration?_eq_none hleft hplain.heading]
  refine ruleOf_eq_ok.2 ⟨_, _, if texts = [emptyMarker] then [] else texts, hcut, ?_, ?_, ?_⟩
  · rwa [strip_concat (by decide), hleft.isTrimmed.strip_eq]
  · rw [strip_cons (by decide), (isTrimmed_intercalate hne htexts).strip_eq]
    exact alternatives_intercalate hne htexts hbars
  · rw [strip_concat (by decide), hleft.isTrimmed.strip_eq, String.ofList_toList]

end Written

end Line

end ContextFree.Listing
