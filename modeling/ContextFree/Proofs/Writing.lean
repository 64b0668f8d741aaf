import ContextFree.Proofs.Reading

/-! # Reading what was written

The listing of a grammar declares all its symbols and gives one line for each head. It is read
again as that grammar if the names of the symbols are fields, no symbol of a right side holds a
bar, and the line of each head can be told from a comment, a declaration and an empty rule.
-/

namespace ContextFree

open Listing Text

section Sides

variable {names : List Name} {separator : String} {isName : Name → Bool}

theorem exists_eq_map_singleton (h : ∀ name ∈ names, name.length = 1) :
    ∃ cs : List Char, names = cs.map String.singleton := by
  induction names with
  | nil => exact ⟨[], rfl⟩
  | cons name names ih =>
    obtain ⟨hname, hnames⟩ := List.forall_mem_cons.1 h
    obtain ⟨c, hc⟩ := List.length_eq_one_iff.1 (String.length_toList.trans hname)
    obtain ⟨cs, rfl⟩ := ih hnames
    refine ⟨c :: cs, ?_⟩
    rw [List.map_cons, ← String.ofList_toList (s := name), hc, String.singleton_eq_ofList]

theorem toList_intercalate_singletons (cs : List Char) :
    ("".intercalate (cs.map String.singleton)).toList = cs := by
  induction cs with
  | nil => rfl
  | cons c cs ih =>
    cases cs with
    | nil => simp
    | cons d cs => simpa using ih

theorem splitRightSide_marker {marker : String} (htrimmed : IsTrimmed marker.toList) :
    splitRightSide marker marker isName = .ok [] := by
  rw [splitRightSide, htrimmed.strip_eq, String.ofList_toList,
    if_neg (by simpa using htrimmed.ne_nil), if_pos rfl]

section Split

variable {text marker : String} (htrimmed : IsTrimmed text.toList) (hmarker : text ≠ marker)
include htrimmed hmarker

theorem splitRightSide_of_isName (hname : isName text = true) :
    splitRightSide text marker isName = .ok [text] := by
  rw [splitRightSide, htrimmed.strip_eq, String.ofList_toList,
    if_neg (by simpa using htrimmed.ne_nil), if_neg hmarker, if_pos hname]

theorem splitRightSide_of_blank (hfree : isName text ≠ true) (hspace : ' ' ∈ text.toList) :
    splitRightSide text marker isName = .ok ((fields text.toList).map String.ofList) := by
  have hblank : text.toList.any isBlank = true := List.any_eq_true.2 ⟨' ', hspace, by decide⟩
  rw [splitRightSide, htrimmed.strip_eq, String.ofList_toList,
    if_neg (by simpa using htrimmed.ne_nil), if_neg hmarker, if_neg hfree, if_pos hblank]

omit htrimmed in
theorem splitRightSide_of_isField (hfield : IsField text.toList) (hfree : isName text ≠ true) :
    splitRightSide text marker isName = .ok (text.toList.map String.singleton) := by
  have hsolid : ¬text.toList.any isBlank = true := by
    rw [List.any_eq_true]
    rintro ⟨c, hc, hblank⟩
    rw [hfield.solid c hc] at hblank
    cases hblank
  rw [splitRightSide, hfield.isTrimmed.strip_eq, String.ofList_toList,
    if_neg (by simpa using hfield.ne_nil), if_neg hmarker, if_neg hfree, if_neg hsolid]

end Split

/-- Right sides are written and split alike: all names have one character and nothing stands
between them, or there is a space. -/
structure Separates (isName : Name → Bool) (separator : String) : Prop where
  field : ∀ name, isName name = true → IsField name.toList
  marker : isName epsilonMarker = false
  cases : separator = " " ∨ separator = "" ∧ ∀ name, isName name = true → name.length = 1

variable (h : Separates isName separator) (hnames : ∀ name ∈ names, isName name = true)
include h hnames

theorem Separates.isTrimmed : IsTrimmed (sideText separator names).toList := by
  rw [sideText]
  split
  next => decide
  next hne =>
    rw [String.toList_intercalate]
    refine IsTrimmed.intercalate (by simpa using hne) ?_
    simpa using fun name hname => (h.field name (hnames name hname)).isTrimmed

omit hnames in
/-- Names with spaces between them are found again between the blanks. -/
theorem Separates.splitRightSide_spaced {name next : Name} {rest : List Name}
    (hnames : ∀ other ∈ name :: next :: rest, isName other = true) :
    splitRightSide (" ".intercalate (name :: next :: rest)) epsilonMarker isName =
      .ok (name :: next :: rest) := by
  have hspace : ' ' ∈ (" ".intercalate (name :: next :: rest)).toList := by
    rw [String.intercalate_cons_cons]
    simp
  have hmarker : " ".intercalate (name :: next :: rest) ≠ epsilonMarker := by
    intro heq
    rw [heq] at hspace
    exact absurd hspace (by decide)
  have hfree : isName (" ".intercalate (name :: next :: rest)) ≠ true := fun hname =>
    absurd ((h.field _ hname).solid _ hspace) (by decide)
  have hfields : ∀ cs ∈ (name :: next :: rest).map String.toList, IsField cs :=
    List.forall_mem_map.2 fun other hother => h.field other (hnames other hother)
  have hlist : (" ".intercalate (name :: next :: rest)).toList =
      [' '].intercalate ((name :: next :: rest).map String.toList) := String.toList_intercalate
  have htrimmed : IsTrimmed (" ".intercalate (name :: next :: rest)).toList := by
    rw [hlist]
    exact .intercalate (List.cons_ne_nil _ _) fun cs hcs => (hfields cs hcs).isTrimmed
  rw [splitRightSide_of_blank htrimmed hmarker hfree hspace, hlist, fields_intercalate hfields]
  simp [List.map_map, Function.comp_def]

omit hnames in
/-- Several names of one character each are the characters of what is written without spaces. -/
theorem Separates.splitRightSide_close {name next : Name} {rest : List Name}
    (hnames : ∀ other ∈ name :: next :: rest, isName other = true)
    (hone : ∀ other, isName other = true → other.length = 1) :
    splitRightSide ("".intercalate (name :: next :: rest)) epsilonMarker isName =
      .ok (name :: next :: rest) := by
  obtain ⟨cs, hcs⟩ := exists_eq_map_singleton fun other hother => hone other (hnames other hother)
  have hchars : ("".intercalate (name :: next :: rest)).toList = cs := by
    rw [hcs, toList_intercalate_singletons]
  have hlong : ("".intercalate (name :: next :: rest)).length ≠ 1 := by
    have hlength := congrArg List.length hcs
    simp only [List.length_cons, List.length_map] at hlength
    rw [← String.length_toList, hchars]
    omega
  have hmarker : "".intercalate (name :: next :: rest) ≠ epsilonMarker := by
    intro heq
    exact hlong (by rw [heq]; rfl)
  have hfree : isName ("".intercalate (name :: next :: rest)) ≠ true := fun hname =>
    hlong (hone _ hname)
  have hfield : IsField ("".intercalate (name :: next :: rest)).toList := by
    rw [hchars]
    refine ⟨?_, fun c hc => ?_⟩
    · rintro rfl
      cases hcs
    · have hname : String.singleton c ∈ name :: next :: rest := hcs ▸ List.mem_map.2 ⟨c, hc, rfl⟩
      exact (h.field _ (hnames _ hname)).solid c (by simp)
  rw [splitRightSide_of_isField hmarker hfield hfree, hchars, ← hcs]

/-- A right side is split into the names from which it was written. -/
theorem Separates.splitRightSide_sideText :
    splitRightSide (sideText separator names) epsilonMarker isName = .ok names := by
  match names, hnames with
  | [], _ =>
    have htrimmed : IsTrimmed epsilonMarker.toList := by decide
    exact splitRightSide_marker htrimmed
  | [name], hnames =>
    have hname : isName name = true := hnames name List.mem_cons_self
    have hmarker : name ≠ epsilonMarker := by
      rintro rfl
      rw [h.marker] at hname
      cases hname
    have htext : sideText separator [name] = name := by simp [sideText]
    rw [htext, splitRightSide_of_isName (h.field name hname).isTrimmed hmarker hname]
  | name :: next :: rest, hnames =>
    rcases h.cases with rfl | ⟨rfl, hone⟩
    · exact h.splitRightSide_spaced hnames
    · exact h.splitRightSide_close hnames hone

/-- What is written as the empty marker is the symbol of that name. -/
theorem Separates.eq_of_sideText_eq (heq : sideText separator names = emptyMarker) :
    names = [emptyMarker] := by
  have hsplit := h.splitRightSide_sideText hnames
  have hmarker : splitRightSide emptyMarker epsilonMarker isName = .ok [emptyMarker] := by
    by_cases hname : isName emptyMarker = true
    · exact splitRightSide_of_isName (by decide) (by decide) hname
    · exact splitRightSide_of_isField (by decide) (by decide) hname
  rw [heq, hmarker] at hsplit
  exact (Except.ok.inj hsplit).symm

omit hnames in
/-- No bar is written where no name holds one. -/
theorem Separates.bar_notMem (hbars : ∀ name ∈ names, '|' ∉ name.toList) :
    '|' ∉ (sideText separator names).toList := by
  rw [sideText]
  split
  next => decide
  next =>
    rw [String.toList_intercalate]
    intro hbar
    rcases mem_or_of_mem_intercalate hbar with hbar | ⟨part, hpart, hbar⟩
    · rcases h.cases with rfl | ⟨rfl, -⟩
      · exact absurd hbar (by decide)
      · cases hbar
    · obtain ⟨name, hname, rfl⟩ := List.mem_map.1 hpart
      exact hbars name hname hbar

end Sides

namespace Grammar

variable {g : Grammar} {X Y : Symbol} {right : RightSide}

/-- The names of the symbols can be told apart in a listing. -/
structure Listable (g : Grammar) : Prop where
  field : ∀ Y, g.has Y = true → IsField Y.name.toList
  marker : ∀ Y, g.has Y = true → Y.name ≠ epsilonMarker
  bars : ∀ X, ∀ right ∈ g.rightsOf X, ∀ Y ∈ right, '|' ∉ Y.name.toList

theorem WellFormed.mem_head_names (h : g.WellFormed) {A : Name} :
    A ∈ g.heads.map Symbol.name ↔ .nonterminal A ∈ g.productions := by
  rw [List.mem_map]
  constructor
  · rintro ⟨X, hX, rfl⟩
    obtain ⟨A, rfl⟩ := h.exists_nonterminal (mem_heads.1 hX)
    exact mem_heads.1 hX
  · exact fun hA => ⟨.nonterminal A, mem_heads.2 hA, rfl⟩

theorem WellFormed.contains_vocabulary (h : g.WellFormed) {A : Name} :
    g.vocabulary.nonterminals.contains A = true ↔ .nonterminal A ∈ g.productions := by
  rw [← h.mem_head_names]
  simp [vocabulary]

theorem WellFormed.has_vocabulary (h : g.WellFormed) {name : Name} :
    g.vocabulary.has name = true ↔ ∃ Y, g.has Y = true ∧ Y.name = name := by
  rw [Spelling.Vocabulary.has, Bool.or_eq_true, h.contains_vocabulary]
  constructor
  · rintro (hA | ha)
    · exact ⟨.nonterminal name, Std.ExtTreeMap.contains_iff_mem.2 hA, rfl⟩
    · exact ⟨.terminal name, h.has_terminal.2 (Std.ExtTreeSet.contains_iff_mem.1 ha), rfl⟩
  · rintro ⟨Y, hY, rfl⟩
    cases Y with
    | nonterminal A => exact .inl (Std.ExtTreeMap.contains_iff_mem.1 hY)
    | terminal a => exact .inr (Std.ExtTreeSet.contains_iff_mem.2 (h.has_terminal.1 hY))

theorem WellFormed.symbolOf_name (h : g.WellFormed) (hY : g.has Y = true) :
    g.vocabulary.symbolOf Y.name = Y := by
  rw [Spelling.Vocabulary.symbolOf]
  cases Y with
  | nonterminal A => exact if_pos (h.contains_vocabulary.2 (Std.ExtTreeMap.contains_iff_mem.1 hY))
  | terminal a =>
    exact if_neg fun hA => h.disjoint a (h.contains_vocabulary.1 hA) (h.has_terminal.1 hY)

theorem Listable.separates (h : g.Listable) (hg : g.WellFormed) :
    Separates g.vocabulary.has g.separator where
  field name hname := by
    obtain ⟨Y, hY, rfl⟩ := hg.has_vocabulary.1 hname
    exact h.field Y hY
  marker := by
    rw [← Bool.not_eq_true, hg.has_vocabulary]
    rintro ⟨Y, hY, heq⟩
    exact h.marker Y hY heq
  cases := by
    rw [separator]
    split
    next hall =>
      refine .inr ⟨rfl, fun name hname => ?_⟩
      rw [List.all_eq_true] at hall
      rw [Spelling.Vocabulary.has, Bool.or_eq_true, hg.contains_vocabulary,
        ← hg.mem_head_names] at hname
      simpa using hall name (by simpa [vocabulary] using hname)
    next => exact .inl rfl

/-- What is written for a right side. -/
def sideTextOf (g : Grammar) (right : RightSide) : String :=
  sideText g.separator (right.map Symbol.name)

/-- What is written behind the arrow of a head. -/
def textsOf (g : Grammar) (X : Symbol) : List String :=
  if (g.rightsOf X).isEmpty then [emptyMarker] else (g.rightsOf X).toList.map g.sideTextOf

theorem line_eq : g.line X = Line.lineOf X.name (g.textsOf X) := by
  have hempty : ((g.rightsOf X).toList.map (List.map Symbol.name)).isEmpty =
      (g.rightsOf X).isEmpty := by
    rw [List.isEmpty_map, Std.ExtTreeSet.isEmpty_toList]
  rw [line, ruleLine, Line.lineOf, textsOf, hempty]
  split
  · rw [String.intercalate_singleton]
  · rw [List.map_map]
    rfl

theorem textsOf_ne_nil : g.textsOf X ≠ [] := by
  rw [textsOf]
  split
  next => exact List.cons_ne_nil _ _
  next hne =>
    rw [← Std.ExtTreeSet.isEmpty_toList] at hne
    simpa using hne

theorem textsOf_eq (hright : right ∈ g.rightsOf X) :
    g.textsOf X = (g.rightsOf X).toList.map g.sideTextOf := by
  rw [textsOf, ← Std.ExtTreeSet.isEmpty_toList, if_neg]
  rw [List.isEmpty_iff]
  exact List.ne_nil_of_mem (Std.ExtTreeSet.mem_toList.2 hright)

theorem mem_textsOf {text : String} (h : text ∈ g.textsOf X) :
    text = emptyMarker ∨ ∃ right ∈ g.rightsOf X, g.sideTextOf right = text := by
  rw [textsOf] at h
  split at h
  next => exact .inl (List.mem_singleton.1 h)
  next => exact .inr (by simpa using h)

/-- The alternatives that are read behind the arrow of a head. -/
def alternativesOf (g : Grammar) (X : Symbol) : List String :=
  if g.textsOf X = [emptyMarker] then [] else g.textsOf X

theorem exists_of_mem_alternativesOf {text : String} (h : text ∈ g.alternativesOf X) :
    ∃ right ∈ g.rightsOf X, g.sideTextOf right = text := by
  rw [alternativesOf] at h
  split at h
  next => cases h
  next hne =>
    rw [textsOf] at h hne
    split at h
    next hempty => exact absurd (if_pos hempty) hne
    next => simpa using h

theorem WellFormed.has_names (hg : g.WellFormed) (hright : right ∈ g.rightsOf X) :
    ∀ name ∈ right.map Symbol.name, g.vocabulary.has name = true := by
  intro name hname
  obtain ⟨Y, hY, rfl⟩ := List.mem_map.1 hname
  exact hg.has_vocabulary.2 ⟨Y, hg.closed X right hright Y hY, rfl⟩

section Listable

variable (h : g.Listable) (hg : g.WellFormed)
include h hg

theorem Listable.side?_sideTextOf (hright : right ∈ g.rightsOf X) :
    g.vocabulary.side? epsilonMarker (g.sideTextOf right) = some right := by
  have hnames := hg.has_names hright
  have hself : (right.map Symbol.name).map g.vocabulary.symbolOf = right := by
    rw [List.map_map]
    calc right.map (g.vocabulary.symbolOf ∘ Symbol.name)
        = right.map id :=
          List.map_congr_left fun Y hY => hg.symbolOf_name (hg.closed X right hright Y hY)
      _ = right := List.map_id right
  exact Spelling.Vocabulary.side?_eq_some.2 ⟨_,
    (h.separates hg).splitRightSide_sideText hnames, hnames, hself.symm⟩

theorem Listable.isTrimmed_textsOf : ∀ text ∈ g.textsOf X, IsTrimmed text.toList := by
  intro text htext
  rcases mem_textsOf htext with rfl | ⟨right, hright, rfl⟩
  · decide
  · exact (h.separates hg).isTrimmed (hg.has_names hright)

theorem Listable.bars_textsOf : ∀ text ∈ g.textsOf X, '|' ∉ text.toList := by
  intro text htext
  rcases mem_textsOf htext with rfl | ⟨right, hright, rfl⟩
  · decide
  · refine (h.separates hg).bar_notMem fun name hname => ?_
    obtain ⟨Y, hY, rfl⟩ := List.mem_map.1 hname
    exact h.bars X right hright Y hY

/-- The alternatives of a head look like none if it has none, or if its only right side is the
symbol that is named like the empty marker. -/
theorem Listable.textsOf_eq_marker : g.textsOf X = [emptyMarker] ↔
    (∀ right, right ∉ g.rightsOf X) ∨
      (g.rightsOf X).toList.map (List.map Symbol.name) = [[emptyMarker]] := by
  rw [textsOf, ← Std.ExtTreeSet.isEmpty_toList]
  simp only [← Std.ExtTreeSet.mem_toList (t := g.rightsOf X)]
  cases hrights : (g.rightsOf X).toList with
  | nil => simp
  | cons right rights =>
    have hright : right ∈ g.rightsOf X := by
      rw [← Std.ExtTreeSet.mem_toList, hrights]
      exact List.mem_cons_self
    have hne : ¬∀ other, other ∉ right :: rights := fun hnone => hnone right List.mem_cons_self
    rw [or_iff_right hne, if_neg (by simp), List.map_cons, List.map_cons, List.cons.injEq,
      List.cons.injEq, List.map_eq_nil_iff, List.map_eq_nil_iff]
    refine and_congr_left' ⟨(h.separates hg).eq_of_sideText_eq (hg.has_names hright), ?_⟩
    intro heq
    rw [sideTextOf, heq]
    rfl

theorem Listable.mem_alternativesOf (hright : right ∈ g.rightsOf X)
    (hmarker : (g.rightsOf X).toList.map (List.map Symbol.name) ≠ [[emptyMarker]]) :
    g.sideTextOf right ∈ g.alternativesOf X := by
  have hne : g.textsOf X ≠ [emptyMarker] := by
    rw [Ne, h.textsOf_eq_marker hg]
    rintro (hnone | hsole)
    · exact hnone right hright
    · exact hmarker hsole
  rw [alternativesOf, if_neg hne, textsOf_eq hright]
  exact List.mem_map.2 ⟨right, Std.ExtTreeSet.mem_toList.2 hright, rfl⟩

theorem Listable.oneLine_textsOf : ∀ text ∈ g.textsOf X, OneLine text.toList := by
  intro text htext
  rcases mem_textsOf htext with rfl | ⟨right, hright, rfl⟩
  · decide
  · rw [sideTextOf, sideText]
    split
    · decide
    · rw [String.toList_intercalate]
      refine OneLine.intercalate ?_ ?_
      · rcases (h.separates hg).cases with hsep | ⟨hsep, -⟩
        · rw [hsep]
          decide
        · rw [hsep]
          decide
      · simpa using fun Y hY => (h.field Y (hg.closed X right hright Y hY)).oneLine

end Listable

end Grammar

namespace Listing

variable {g : Grammar} {X Y : Symbol}

theorem mem_startFirst (hg : g.WellFormed) : X ∈ startFirst g ↔ X ∈ g.productions := by
  rw [startFirst, List.mem_cons, Symbol.mem_byName, List.mem_filter, Grammar.mem_heads,
    decide_eq_true_eq]
  constructor
  · rintro (rfl | ⟨hX, -⟩)
    · exact hg.start_mem
    · exact hX
  · intro hX
    by_cases hstart : X = .nonterminal g.start
    · exact .inl hstart
    · exact .inr ⟨hX, hstart⟩

/-- What the line of a head says. -/
def saidOf (g : Grammar) (X : Symbol) : Line :=
  if IsComment X.name then .blank else .rule X.name (g.alternativesOf X)

/-- What the lines of a listing say. -/
def saidBy (g : Grammar) (rules : List Line) : List Line :=
  .declaration .nonterminals ((startFirst g).map Symbol.name) ::
  .declaration .terminals g.terminals.toList ::
  .declaration .start [g.start] :: rules

section Listable

variable (h : g.Listable) (hg : g.WellFormed)
include h hg

theorem isField_head (hX : X ∈ startFirst g) : IsField X.name.toList := by
  obtain ⟨A, rfl⟩ := hg.exists_nonterminal ((mem_startFirst hg).1 hX)
  exact h.field _ (Std.ExtTreeMap.contains_iff_mem.2 ((mem_startFirst hg).1 hX))

theorem isField_heads : ∀ name ∈ (startFirst g).map Symbol.name, IsField name.toList := by
  intro name hname
  obtain ⟨X, hX, rfl⟩ := List.mem_map.1 hname
  exact isField_head h hg hX

theorem isField_terminals : ∀ name ∈ g.terminals.toList, IsField name.toList := fun name hname =>
  h.field (.terminal name) (hg.has_terminal.2 (Std.ExtTreeSet.mem_toList.1 hname))

theorem isField_start : ∀ name ∈ [g.start], IsField name.toList := by
  intro name hname
  rw [List.mem_singleton.1 hname]
  exact h.field (.nonterminal g.start) (Std.ExtTreeMap.contains_iff_mem.2 hg.start_mem)

omit h hg in
theorem oneLine_declarationLine {heading : Heading} {names : List Name}
    (hnames : ∀ name ∈ names, IsField name.toList) :
    OneLine (declarationLine heading names).toList := by
  have hword : OneLine (heading.word ++ ": ").toList := by cases heading <;> decide
  rw [declarationLine, String.toList_append, String.toList_intercalate]
  exact hword.append (OneLine.intercalate (by decide) (by simpa using fun name hname =>
    (hnames name hname).oneLine))

theorem oneLine_line (hX : X ∈ startFirst g) : OneLine (g.line X).toList := by
  have hbar : OneLine (bar.intercalate (g.textsOf X)).toList := by
    rw [String.toList_intercalate]
    exact OneLine.intercalate (by decide) (by simpa using h.oneLine_textsOf hg)
  have hline : (g.line X).toList =
      X.name.toList ++ (" → ".toList ++ (bar.intercalate (g.textsOf X)).toList) := by
    rw [Grammar.line_eq, Line.toList_lineOf]
    simp
  rw [hline]
  exact (isField_head h hg hX).oneLine.append (OneLine.append (by decide) hbar)

theorem lines_write : lines (write g).toList = (linesOf g).map String.toList := by
  have hjoin : (write g).toList = ((linesOf g).map String.toList).flatMap (· ++ ['\n']) := by
    rw [write, String.toList_join, List.flatMap_map, List.flatMap_map]
    simp
  rw [hjoin, lines_flatMap]
  simp only [linesOf, List.map_cons, List.forall_mem_cons, List.map_map, List.forall_mem_map]
  exact ⟨oneLine_declarationLine (isField_heads h hg),
    oneLine_declarationLine (isField_terminals h hg),
    oneLine_declarationLine (isField_start h hg), fun X hX => oneLine_line h hg hX⟩

/-- The declarations of a listing are read as they were written, whatever the other lines say. -/
theorem mapM_read_write {said : List Line} :
    (lines (write g).toList).mapM Line.read = .ok said ↔ ∃ rules,
      ((startFirst g).map fun X => (g.line X).toList).mapM Line.read = .ok rules ∧
        said = saidBy g rules := by
  rw [lines_write h hg, linesOf, List.map_cons, List.map_cons, List.map_cons, List.map_map]
  simp only [mapM_cons_eq_ok, Line.read_declarationLine (isField_heads h hg),
    Line.read_declarationLine (isField_terminals h hg),
    Line.read_declarationLine (isField_start h hg)]
  constructor
  · rintro ⟨_, _, ⟨⟩, ⟨_, _, ⟨⟩, ⟨_, rules, ⟨⟩, hrules, rfl⟩, rfl⟩, rfl⟩
    exact ⟨rules, hrules, rfl⟩
  · rintro ⟨rules, hrules, rfl⟩
    exact ⟨_, _, rfl, ⟨_, _, rfl, ⟨_, rules, rfl, hrules, rfl⟩, rfl⟩, rfl⟩

/-- The line of a head is read as a comment or as its rule, unless its name holds an arrow or begins
like a declaration. -/
theorem read_line (hX : X ∈ startFirst g) (hplain : ¬IsComment X.name → Plain X.name) :
    Line.read (g.line X).toList = .ok (saidOf g X) := by
  have hfield := isField_head h hg hX
  have htrimmed := h.isTrimmed_textsOf hg (X := X)
  rw [Grammar.line_eq, saidOf]
  split
  next hcomment =>
    exact Line.read_lineOf_comment hfield Grammar.textsOf_ne_nil htrimmed hcomment
  next hcomment =>
    exact Line.read_lineOf hfield Grammar.textsOf_ne_nil htrimmed (hplain hcomment) hcomment
      (h.bars_textsOf hg)

end Listable

section Said

variable {rules : List Line}

theorem unrepeated_saidBy : Unrepeated (saidBy g rules) ↔ rules.filterMap Line.heading? = [] := by
  have hheadings : (saidBy g rules).filterMap Line.heading? =
      [.nonterminals, .terminals, .start] ++ rules.filterMap Line.heading? := rfl
  rw [Unrepeated, hheadings]
  cases rules.filterMap Line.heading? with
  | nil => simp
  | cons h hs => cases h <;> simp

end Said

section Listable

variable (h : g.Listable) (hg : g.WellFormed)
include h hg

/-- A grammar is read again exactly if the lines of its heads are rules and comments, and the rules
list the right sides that the heads have. -/
theorem read_write_eq_ok : read (write g) none = .ok g ↔ ∃ rules,
    ((startFirst g).map fun X => (g.line X).toList).mapM Line.read = .ok rules ∧
      rules.filterMap Line.heading? = [] ∧
      (∀ p ∈ rulesOf rules, .nonterminal p.1 ∈ g.productions ∧
        ∀ text ∈ p.2, (g.vocabulary.side? epsilonMarker text).isSome) ∧
      ∀ X right, right ∈ g.rightsOf X ↔ ∃ p ∈ rulesOf rules, X = .nonterminal p.1 ∧
        ∃ text ∈ p.2, g.vocabulary.side? epsilonMarker text = some right := by
  rw [read_eq_ok]
  constructor
  · rintro ⟨said, terminals, hsaid, hnodup, -, -, hspells⟩
    obtain ⟨rules, hrules, rfl⟩ := (mapM_read_write h hg).1 hsaid
    exact ⟨rules, hrules, unrepeated_saidBy.1 hnodup, hspells.sides, hspells.rights⟩
  · rintro ⟨rules, hrules, hheadings, hsides, hrights⟩
    refine ⟨saidBy g rules, g.terminals.toList, (mapM_read_write h hg).2 ⟨rules, hrules, rfl⟩,
      unrepeated_saidBy.2 hheadings, rfl, rfl, ?_, ?_, ?_, hg.start_mem, hg.disjoint, hsides,
      hrights⟩
    · exact (h.separates hg).marker
    · exact (ofList_toList g.terminals).symm
    · intro X
      have hnames : (spellingOf (saidBy g rules) g.terminals.toList).nonterminals =
          (startFirst g).map Symbol.name := rfl
      simp only [hnames, List.mem_map]
      constructor
      · intro hX
        obtain ⟨A, rfl⟩ := hg.exists_nonterminal hX
        exact ⟨A, ⟨_, (mem_startFirst hg).2 hX, rfl⟩, rfl⟩
      · rintro ⟨A, ⟨Y, hY, rfl⟩, rfl⟩
        have hY' := (mem_startFirst hg).1 hY
        obtain ⟨A, rfl⟩ := hg.exists_nonterminal hY'
        exact hY'

end Listable

end Listing

namespace Grammar

variable {g : Grammar}

/-- The line of each head can be told from a declaration and an empty rule; it may look like a
comment if the head has no right sides. -/
structure Rereadable (g : Grammar) : Prop where
  plain : ∀ A, .nonterminal A ∈ g.productions → ¬IsComment A → Plain A
  comment : ∀ A, IsComment A → ∀ right, right ∉ g.rightsOf (.nonterminal A)
  marker : ∀ X, (g.rightsOf X).toList.map (List.map Symbol.name) ≠ [[emptyMarker]]

end Grammar

namespace Listing

section Listable

variable {g : Grammar} (h : g.Listable) (hg : g.WellFormed)
include h hg

omit h in
/-- What the lines of all heads say are the rules of those whose names do not begin like a comment. -/
theorem mem_rulesOf_saidOf {A : Name} {texts : List String} :
    (A, texts) ∈ rulesOf ((startFirst g).map (saidOf g)) ↔ .nonterminal A ∈ g.productions ∧
      ¬IsComment A ∧ texts = g.alternativesOf (.nonterminal A) := by
  rw [mem_rulesOf, List.mem_map]
  constructor
  · rintro ⟨X, hX, hsaid⟩
    obtain ⟨B, rfl⟩ := hg.exists_nonterminal ((mem_startFirst hg).1 hX)
    rw [saidOf] at hsaid
    split at hsaid
    next => cases hsaid
    next hcomment =>
      cases hsaid
      exact ⟨(mem_startFirst hg).1 hX, hcomment, rfl⟩
  · rintro ⟨hA, hcomment, rfl⟩
    exact ⟨.nonterminal A, (mem_startFirst hg).2 hA, if_neg hcomment⟩

theorem read_write (hr : g.Rereadable) : read (write g) none = .ok g := by
  refine (read_write_eq_ok h hg).2 ⟨(startFirst g).map (saidOf g), ?_, ?_, ?_, ?_⟩
  · rw [List.mapM_map]
    refine mapM_eq_ok fun X hX => ?_
    obtain ⟨A, rfl⟩ := hg.exists_nonterminal ((mem_startFirst hg).1 hX)
    exact read_line h hg hX (hr.plain A ((mem_startFirst hg).1 hX))
  · rw [List.filterMap_map, List.filterMap_eq_nil_iff]
    intro X _
    rw [Function.comp_apply, saidOf]
    split <;> rfl
  · rintro ⟨A, texts⟩ hp
    obtain ⟨hA, -, rfl⟩ := (mem_rulesOf_saidOf hg).1 hp
    refine ⟨hA, fun text htext => ?_⟩
    obtain ⟨right, hright, rfl⟩ := Grammar.exists_of_mem_alternativesOf htext
    rw [h.side?_sideTextOf hg hright]
    rfl
  · intro X right
    constructor
    · intro hright
      have hX := Grammar.mem_productions_of_mem_rightsOf hright
      obtain ⟨A, rfl⟩ := hg.exists_nonterminal hX
      have hcomment : ¬IsComment A := fun hcomment => hr.comment A hcomment right hright
      exact ⟨_, (mem_rulesOf_saidOf hg).2 ⟨hX, hcomment, rfl⟩, rfl, _,
        h.mem_alternativesOf hg hright (hr.marker _), h.side?_sideTextOf hg hright⟩
    · rintro ⟨⟨A, texts⟩, hp, rfl, text, htext, hside⟩
      obtain ⟨-, -, rfl⟩ := (mem_rulesOf_saidOf hg).1 hp
      obtain ⟨right', hright', rfl⟩ := Grammar.exists_of_mem_alternativesOf htext
      rw [h.side?_sideTextOf hg hright'] at hside
      cases hside
      exact hright'

section Rules

variable {rules : List Line} {right : RightSide} {A : Name}
  (hrules : ((startFirst g).map fun X => (g.line X).toList).mapM Line.read = .ok rules)
  (hsame : ∀ X right, right ∈ g.rightsOf X ↔ ∃ p ∈ rulesOf rules, X = .nonterminal p.1 ∧
    ∃ text ∈ p.2, g.vocabulary.side? epsilonMarker text = some right)
include hrules

omit h hg in
theorem exists_line_of_mem_rulesOf {texts : List String} (hp : (A, texts) ∈ rulesOf rules) :
    ∃ X ∈ startFirst g, Line.read (g.line X).toList = .ok (.rule A texts) := by
  obtain ⟨l, hl, hread⟩ := exists_read_of_mem_rulesOf hrules hp
  obtain ⟨X, hX, rfl⟩ := List.mem_map.1 hl
  exact ⟨X, hX, hread⟩

include hsame

omit h hg in
/-- A right side that is found again belongs to a head whose line is read as a rule. -/
theorem plain_of_mem_rightsOf (hright : right ∈ g.rightsOf (.nonterminal A)) :
    Plain A ∧ ¬IsComment A := by
  obtain ⟨⟨A', texts⟩, hp, heq, -⟩ := (hsame _ _).1 hright
  cases heq
  obtain ⟨X, -, hline⟩ := exists_line_of_mem_rulesOf hrules hp
  obtain ⟨-, hplain, hcomment, -⟩ := Line.of_read_rule hline
  exact ⟨hplain, hcomment⟩

/-- The line of a head is read as a rule for it, if no head is without right sides but one that
stands alone. -/
theorem plain_of_lines (hheadings : rules.filterMap Line.heading? = [])
    (hsides : ∀ p ∈ rulesOf rules, .nonterminal p.1 ∈ g.productions)
    (hrights : ∀ X ∈ g.productions,
      (∃ right, right ∈ g.rightsOf X) ∨ ∀ Y ∈ g.productions, Y = X)
    (hA : .nonterminal A ∈ g.productions) (hcomment : ¬IsComment A) : Plain A := by
  have hX := (mem_startFirst hg).2 hA
  obtain ⟨line, hline, hread⟩ := exists_mem_of_mapM_eq_ok hrules _ (List.mem_map.2 ⟨_, hX, rfl⟩)
  cases line with
  | blank =>
    rw [Grammar.line_eq] at hread
    exact absurd hread (Line.read_lineOf_ne_blank (isField_head h hg hX) Grammar.textsOf_ne_nil
      (h.isTrimmed_textsOf hg) hcomment)
  | declaration heading names =>
    have hmem : heading ∈ rules.filterMap Line.heading? := List.mem_filterMap.2 ⟨_, hline, rfl⟩
    rw [hheadings] at hmem
    cases hmem
  | rule left alts =>
    -- A line without alternatives says nothing, even if it is taken for one of another head.
    rcases hrights _ hA with ⟨right, hright⟩ | halone
    · exact (plain_of_mem_rightsOf hrules hsame hright).1
    · have heq := halone _ (hsides (left, alts) (mem_rulesOf.2 hline))
      cases heq
      exact (Line.of_read_rule hread).2.1

/-- A right side that looks like the empty marker would not be found again as the only one of its
head. -/
theorem ne_marker_of_read (hplain : ∀ A, .nonterminal A ∈ g.productions → ¬IsComment A → Plain A)
    (X : Symbol) : (g.rightsOf X).toList.map (List.map Symbol.name) ≠ [[emptyMarker]] := by
  intro hsole
  obtain ⟨right, hright⟩ : ∃ right, right ∈ g.rightsOf X := by
    cases hrights : (g.rightsOf X).toList with
    | nil => simp [hrights] at hsole
    | cons right rights =>
      exact ⟨right, Std.ExtTreeSet.mem_toList.1 (hrights ▸ List.mem_cons_self)⟩
  obtain ⟨⟨A, texts⟩, hp, rfl, text, htext, -⟩ := (hsame _ _).1 hright
  obtain ⟨X, hX, hline⟩ := exists_line_of_mem_rulesOf hrules hp
  obtain ⟨B, rfl⟩ := hg.exists_nonterminal ((mem_startFirst hg).1 hX)
  rw [read_line h hg hX (hplain B ((mem_startFirst hg).1 hX)), saidOf] at hline
  split at hline
  next => cases hline
  next =>
    cases hline
    have hempty : g.alternativesOf (.nonterminal B) = [] :=
      if_pos ((h.textsOf_eq_marker hg).2 (.inr hsole))
    rw [hempty] at htext
    cases htext

end Rules

/-- A grammar is read as it was written only if the line of each head can be told from a declaration
and an empty rule, provided that all heads have right sides, or that the start symbol stands alone. -/
theorem rereadable_of_read_write (hread : read (write g) none = .ok g)
    (hrights : ∀ X ∈ g.productions,
      (∃ right, right ∈ g.rightsOf X) ∨ ∀ Y ∈ g.productions, Y = X) : g.Rereadable := by
  obtain ⟨rules, hrules, hheadings, hsides, hsame⟩ := (read_write_eq_ok h hg).1 hread
  have hplain (A : Name) (hA : .nonterminal A ∈ g.productions) (hcomment : ¬IsComment A) :
      Plain A :=
    plain_of_lines h hg hrules hsame hheadings (fun p hp => (hsides p hp).1) hrights hA hcomment
  exact {
    plain := hplain
    comment := fun A hcomment right hright =>
      (plain_of_mem_rightsOf hrules hsame hright).2 hcomment
    marker := ne_marker_of_read h hg hrules hsame hplain }

theorem read_write_iff (hrights : ∀ X ∈ g.productions,
    (∃ right, right ∈ g.rightsOf X) ∨ ∀ Y ∈ g.productions, Y = X) :
    read (write g) none = .ok g ↔ g.Rereadable :=
  ⟨fun hread => rereadable_of_read_write h hg hread hrights, read_write h hg⟩

end Listable

end Listing

theorem toList_eq_singleton_iff {rights : RightSides} {right : RightSide} :
    rights.toList = [right] ↔ ∀ other, other ∈ rights ↔ other = right := by
  constructor
  · intro h other
    rw [← Std.ExtTreeSet.mem_toList, h, List.mem_singleton]
  · intro h
    have hdistinct := rights.distinct_toList
    cases hlist : rights.toList with
    | nil =>
      have hmem := Std.ExtTreeSet.mem_toList.2 ((h right).2 rfl)
      rw [hlist] at hmem
      cases hmem
    | cons first rest =>
      have hall : ∀ other ∈ first :: rest, other = right := fun other hother =>
        (h other).1 (Std.ExtTreeSet.mem_toList.1 (hlist ▸ hother))
      cases rest with
      | nil => rw [hall first List.mem_cons_self]
      | cons second rest =>
        rw [hlist] at hdistinct
        have hne := (List.pairwise_cons.1 hdistinct).1 second List.mem_cons_self
        rw [hall first (by simp), hall second (by simp)] at hne
        exact absurd Std.ReflOrd.compare_self hne

theorem exists_sole {rights : RightSides} {name : Name}
    (h : rights.toList.map (List.map Symbol.name) = [[name]]) :
    ∃ Y : Symbol, Y.name = name ∧ ∀ right, right ∈ rights ↔ right = [Y] := by
  obtain ⟨right, hright, hnames⟩ := List.map_eq_singleton_iff.1 h
  obtain ⟨Y, rfl, hY⟩ := List.map_eq_singleton_iff.1 hnames
  exact ⟨Y, hY, toList_eq_singleton_iff.1 hright⟩

namespace Grammar

/-- The names of a grammar leave no doubts in its listing: all of them are fields other than the
epsilon marker, those of nonterminals hold no arrow and begin neither like a comment nor like a
declaration, those in right sides hold no bar, and a right side that looks like the empty marker
is not the only one of its head. -/
structure Clear (g : Grammar) : Prop where
  ne_empty : ∀ Y, g.has Y = true → Y.name ≠ ""
  solid : ∀ Y, g.has Y = true → ∀ c ∈ Y.name.toList, isBlank c = false
  marker : ∀ Y, g.has Y = true → Y.name ≠ epsilonMarker
  dash : ∀ A, .nonterminal A ∈ g.productions → ¬"->".toList <:+: A.toList
  arrow : ∀ A, .nonterminal A ∈ g.productions → '→' ∉ A.toList
  comment : ∀ A, .nonterminal A ∈ g.productions → ¬"#".toList <+: A.toList
  heading : ∀ A, .nonterminal A ∈ g.productions →
    ∀ h : Heading, ¬(h.word ++ ":").toList <+: A.toList
  bars : ∀ X, ∀ right ∈ g.rightsOf X, ∀ Y ∈ right, '|' ∉ Y.name.toList
  sole : ∀ X Y, (∀ right, right ∈ g.rightsOf X ↔ right = [Y]) → Y.name ≠ emptyMarker

variable {g : Grammar} (h : g.Clear)
include h

theorem Clear.listable : g.Listable where
  field Y hY := ⟨mt String.toList_eq_nil_iff.1 (h.ne_empty Y hY), h.solid Y hY⟩
  marker := h.marker
  bars := h.bars

theorem Clear.rereadable : g.Rereadable where
  plain A hA _ := ⟨h.dash A hA, h.arrow A hA, h.heading A hA⟩
  comment A hcomment _ hright := h.comment A (mem_productions_of_mem_rightsOf hright) hcomment
  marker X hlist := by
    obtain ⟨Y, hY, hsole⟩ := exists_sole hlist
    exact h.sole X Y hsole hY

end Grammar

namespace Listing

/-- A grammar with clear names is read as it was written: the start symbol, all symbols and the
right sides are the same. -/
theorem read_write_of_clear {g : Grammar} (h : g.WellFormed) (hc : g.Clear) :
    read (write g) none = .ok g :=
  read_write hc.listable h hc.rereadable

end Listing

namespace Parts

/-- The parts of a grammar with names of several lengths, with symbols that no rule mentions, and
with a right side that looks like the empty marker beside others. -/
def mixture : Parts where
  nonterminals := ["U", "S", "E'"]
  terminals := ["if", "a", "|", "∅"]
  start := "S"
  productions := [("S", [[.nonterminal "E'", .terminal "a"], [.terminal "∅"], []]),
    ("E'", [[.terminal "if"]])]

theorem mem_mixture {A : Name} {sides : List RightSide} : (A, sides) ∈ mixture.productions ↔
    A = "S" ∧ sides = [[.nonterminal "E'", .terminal "a"], [.terminal "∅"], []] ∨
      A = "E'" ∧ sides = [[.terminal "if"]] := by
  simp [mixture]

theorem mem_rightsOf_mixture {X : Symbol} {right : RightSide} :
    right ∈ mixture.grammar.rightsOf X ↔
      X = .nonterminal "S" ∧ right ∈
        [[.nonterminal "E'", .terminal "a"], [.terminal "∅"], []] ∨
      X = .nonterminal "E'" ∧ right ∈ [[.terminal "if"]] := by
  rw [mem_rightsOf_grammar]
  constructor
  · rintro ⟨A, sides, hA, rfl, hright⟩
    rcases mem_mixture.1 hA with ⟨rfl, rfl⟩ | ⟨rfl, rfl⟩
    · exact .inl ⟨rfl, hright⟩
    · exact .inr ⟨rfl, hright⟩
  · rintro (⟨rfl, hright⟩ | ⟨rfl, hright⟩)
    · exact ⟨_, _, mem_mixture.2 (.inl ⟨rfl, rfl⟩), rfl, hright⟩
    · exact ⟨_, _, mem_mixture.2 (.inr ⟨rfl, rfl⟩), rfl, hright⟩

theorem fit_mixture : mixture.Fit :=
  fit_of_listed (by decide) (by decide) (by decide)

theorem clear_mixture : mixture.grammar.Clear := by
  have hname (Y : Symbol) (hY : mixture.grammar.has Y = true) :
      Y.name ∈ mixture.nonterminals ++ mixture.terminals := by
    rw [fit_mixture.has_grammar] at hY
    cases Y with
    | nonterminal A => exact List.mem_append_left _ (has_bare_nonterminal.1 hY)
    | terminal a => exact List.mem_append_right _ (has_bare_terminal.1 hY)
  have hhead (A : Name) (hA : .nonterminal A ∈ mixture.grammar.productions) :
      A ∈ mixture.nonterminals := fit_mixture.nonterminal_mem_productions.1 hA
  exact {
    ne_empty Y hY := (by decide : ∀ name ∈ mixture.nonterminals ++ mixture.terminals,
      name ≠ "") _ (hname Y hY)
    solid Y hY := ((by decide : ∀ name ∈ mixture.nonterminals ++ mixture.terminals,
      IsField name.toList) _ (hname Y hY)).solid
    marker Y hY := (by decide : ∀ name ∈ mixture.nonterminals ++ mixture.terminals,
      name ≠ epsilonMarker) _ (hname Y hY)
    dash A hA := (by decide : ∀ A ∈ mixture.nonterminals, ¬"->".toList <:+: A.toList) _
      (hhead A hA)
    arrow A hA := (by decide : ∀ A ∈ mixture.nonterminals, '→' ∉ A.toList) _ (hhead A hA)
    comment A hA := (by decide : ∀ A ∈ mixture.nonterminals, ¬"#".toList <+: A.toList) _
      (hhead A hA)
    heading A hA h := by
      have hall := (by decide : ∀ A ∈ mixture.nonterminals,
        ∀ h ∈ [Heading.nonterminals, .terminals, .start], ¬(h.word ++ ":").toList <+: A.toList)
      exact hall A (hhead A hA) h (by cases h <;> simp)
    bars X right hright := by
      rcases mem_rightsOf_mixture.1 hright with ⟨-, hmem⟩ | ⟨-, hmem⟩
      · exact (by decide : ∀ right ∈ [[Symbol.nonterminal "E'", .terminal "a"],
          [.terminal "∅"], []], ∀ Y ∈ right, '|' ∉ Y.name.toList) right hmem
      · exact (by decide : ∀ right ∈ [[Symbol.terminal "if"]],
          ∀ Y ∈ right, '|' ∉ Y.name.toList) right hmem
    sole X Y hsole := by
      rcases mem_rightsOf_mixture.1 ((hsole [Y]).2 rfl) with ⟨rfl, -⟩ | ⟨-, hmem⟩
      · exact nomatch (hsole []).1 (mem_rightsOf_mixture.2 (.inl ⟨rfl, by simp⟩))
      · obtain rfl : Y = .terminal "if" := by simpa using hmem
        decide }

end Parts

namespace Listing

/-- The mixture is read as it was written. -/
theorem read_write_mixture : Parts.mixture.grammar.WellFormed ∧ Parts.mixture.grammar.Clear ∧
    read (write Parts.mixture.grammar) none = .ok Parts.mixture.grammar :=
  ⟨Parts.fit_mixture.wellFormed, Parts.clear_mixture,
    read_write_of_clear Parts.fit_mixture.wellFormed Parts.clear_mixture⟩

end Listing

end ContextFree
