import ContextFree.Proofs.Normalization
import ContextFree.Proofs.Writing

/-! # Names in listings

The symbols of a grammar that was read have names that can be told apart in a listing. The stages
of the conversion draw on these symbols, and the nonterminals that the last one mints make no
difficulty either, but that the name of a terminal may bring an arrow along.
-/

namespace ContextFree

open Listing Text

theorem mem_of_splitRightSide {text marker : String} {isName : Name → Bool} {names : List Name}
    (h : splitRightSide text marker isName = .ok names) :
    ∀ name ∈ names, ∀ c ∈ name.toList, c ∈ text.toList := by
  have hstrip {c : Char} (hc : c ∈ strip text.toList) : c ∈ text.toList := mem_of_mem_strip hc
  rw [splitRightSide] at h
  split at h
  · cases h
  split at h
  · cases h
    simp
  split at h
  · cases h
    simpa using fun c hc => hstrip hc
  split at h
  · cases h
    intro name hname c hc
    obtain ⟨field, hfield, rfl⟩ := List.mem_map.1 hname
    rw [String.toList_ofList] at hc
    exact hstrip (mem_of_mem_pieces (List.mem_filter.1 hfield).1 hc).1
  · cases h
    intro name hname c hc
    obtain ⟨d, hd, rfl⟩ := List.mem_map.1 hname
    obtain rfl : c = d := by simpa using hc
    exact hstrip hd

namespace Grammar

/-- The names of the symbols can be told apart in a listing, and no line of a head that has right
sides looks like a comment. -/
structure Legible (g : Grammar) : Prop extends g.Listable where
  comment : ∀ A, IsComment A → ∀ right, right ∉ g.rightsOf (.nonterminal A)

end Grammar

namespace Listing

variable {said : List Line} {ls : List (List Char)}

section Read

variable {text : String} {start? : Option Name} {g : Grammar} (h : read text start? = .ok g)
include h

theorem exists_rule_of_read {X : Symbol} {right : RightSide} (hright : right ∈ g.rightsOf X) :
    ∃ l left alts, Line.read l = .ok (.rule left alts) ∧ X = .nonterminal left ∧
      ∃ alt ∈ alts, g.vocabulary.side? epsilonMarker alt = some right := by
  obtain ⟨said, terminals, hsaid, -, -, -, hspells⟩ := read_eq_ok.1 h
  obtain ⟨⟨left, alts⟩, hrule, rfl, alt, halt, hside⟩ := (hspells.rights X right).1 hright
  obtain ⟨l, -, hread⟩ := exists_read_of_mem_rulesOf hsaid hrule
  exact ⟨l, left, alts, hread, rfl, alt, halt, hside⟩

theorem isField_of_read {Y : Symbol} (hY : g.has Y = true) : IsField Y.name.toList := by
  have hg := wellFormed_of_read h
  obtain ⟨said, terminals, hsaid, -, hterminals, -, hspells⟩ := read_eq_ok.1 h
  cases Y with
  | nonterminal A =>
    have hnames : A ∈ nonterminalsOf said :=
      hspells.nonterminal_mem_iff.1 (Std.ExtTreeMap.contains_iff_mem.1 hY)
    rw [nonterminalsOf] at hnames
    cases hdeclared : declared? said .nonterminals with
    | some names =>
      rw [hdeclared] at hnames
      obtain ⟨l, -, hread⟩ := exists_read_of_declared? hsaid hdeclared
      exact Line.of_read_declaration hread A hnames
    | none =>
      rw [hdeclared] at hnames
      obtain ⟨⟨left, alts⟩, hrule, rfl⟩ := List.mem_map.1 hnames
      obtain ⟨l, -, hread⟩ := exists_read_of_mem_rulesOf hsaid hrule
      exact (Line.of_read_rule hread).1
  | terminal a =>
    have ha := hg.has_terminal.1 hY
    rw [hspells.terminals] at ha
    have ha' : a ∈ terminals := by simpa [NameSet.of, spellingOf] using ha
    obtain ⟨l, -, hread⟩ := exists_read_of_declared? hsaid hterminals
    exact Line.of_read_declaration hread a ha'

theorem legible_of_read : g.Legible where
  field _ hY := isField_of_read h hY
  marker Y hY heq := by
    obtain ⟨said, terminals, -, -, -, -, hspells⟩ := read_eq_ok.1 h
    have hmarker : g.vocabulary.has epsilonMarker = true :=
      (wellFormed_of_read h).has_vocabulary.2 ⟨Y, hY, heq⟩
    have hfree : g.vocabulary.has epsilonMarker = false := hspells.marker
    rw [hmarker] at hfree
    cases hfree
  bars X right hright Y hY := by
    obtain ⟨l, left, alts, hread, -, alt, halt, hside⟩ := exists_rule_of_read h hright
    obtain ⟨names, hsplit, -, rfl⟩ := Spelling.Vocabulary.side?_eq_some.1 hside
    obtain ⟨name, hname, rfl⟩ := List.mem_map.1 hY
    have hsame : (g.vocabulary.symbolOf name).name = name := by
      rw [Spelling.Vocabulary.symbolOf]
      split <;> rfl
    rw [hsame]
    intro hbar
    exact ((Line.of_read_rule hread).2.2.2 alt halt).2
      (mem_of_splitRightSide hsplit name hname _ hbar)
  comment A hcomment right hright := by
    obtain ⟨l, left, alts, hread, heq, -⟩ := exists_rule_of_read h hright
    cases heq
    exact (Line.of_read_rule hread).2.2.1 hcomment

theorem plain_of_read {A : Name} {right : RightSide}
    (hright : right ∈ g.rightsOf (.nonterminal A)) :
    Plain A := by
  obtain ⟨l, left, alts, hread, heq, -⟩ := exists_rule_of_read h hright
  cases heq
  exact (Line.of_read_rule hread).2.1

end Read

/-- The name of a nonterminal makes no difficulty in a listing, but that it may hold an arrow. -/
structure Handy (A : Name) : Prop where
  field : IsField A.toList
  marker : A ≠ epsilonMarker
  bar : '|' ∉ A.toList
  comment : ¬IsComment A

theorem handy_of_cons {A : Name} {c : Char} {l : List Char} (hA : A.toList = c :: l)
    (hc : c = 'T' ∨ c = 'X') (hl : ∀ d ∈ l, isBlank d = false ∧ d ≠ '|') : Handy A := by
  have hfirst : isBlank c = false ∧ c ≠ '|' ∧ c ≠ 'ε' ∧ c ≠ '#' := by
    rcases hc with rfl | rfl <;> decide
  refine ⟨⟨by simp [hA], ?_⟩, ?_, ?_, ?_⟩
  · rw [hA]
    exact List.forall_mem_cons.2 ⟨hfirst.1, fun d hd => (hl d hd).1⟩
  · rintro rfl
    exact hfirst.2.2.1 (List.cons.inj hA).1.symm
  · rw [hA, List.mem_cons]
    rintro (heq | hbar)
    · exact hfirst.2.1 heq.symm
    · exact (hl _ hbar).2 rfl
  · rintro ⟨rest, hrest⟩
    exact hfirst.2.2.2 (List.cons.inj (hrest.trans hA)).1.symm

theorem isDigit_of_mem_toString {n : Nat} {d : Char} (hd : d ∈ (toString n).toList) :
    d.isDigit = true :=
  Nat.isDigit_of_mem_toDigits (b := 10) (n := n) (by decide) (by decide) (by simpa using hd)

theorem not_blank_of_mem_toString {n : Nat} {d : Char} (hd : d ∈ (toString n).toList) :
    isBlank d = false ∧ d ≠ '|' := by
  have hrange : 48 ≤ d.toNat ∧ d.toNat ≤ 57 := by
    simpa [Char.isDigit, UInt32.le_iff_toNat_le] using isDigit_of_mem_toString hd
  constructor
  · simp [isBlank]
    omega
  · rintro rfl
    exact absurd hrange (by decide)

theorem handy_wrapperSeries {a : Name} (hfield : IsField a.toList) (hbar : '|' ∉ a.toList)
    (i : Nat) :
    Handy (({} : NameSupply).wrapperSeries a i) := by
  have hname : ∀ d ∈ a.toList, isBlank d = false ∧ d ≠ '|' := fun d hd =>
    ⟨hfield.solid d hd, fun heq => hbar (heq ▸ hd)⟩
  cases i with
  | zero =>
    refine handy_of_cons (c := 'T') (l := '_' :: a.toList) ?_ (.inl rfl) ?_
    · simp [NameSupply.wrapperSeries]
    · exact List.forall_mem_cons.2 ⟨by decide, hname⟩
  | succ n =>
    refine handy_of_cons (c := 'T') (l := '_' :: (a.toList ++ '_' :: (toString (n + 1)).toList)) ?_
      (.inl rfl) ?_
    · simp [NameSupply.wrapperSeries]
    · rw [List.forall_mem_cons, List.forall_mem_append, List.forall_mem_cons]
      exact ⟨by decide, hname, by decide, fun d => not_blank_of_mem_toString⟩

theorem handy_chainSeries (i : Nat) : Handy (({} : NameSupply).chainSeries i) := by
  refine handy_of_cons (c := 'X') (l := (toString i).toList) ?_ (.inr rfl) ?_
  · simp [NameSupply.chainSeries]
  · exact fun d => not_blank_of_mem_toString

/-- A name that opens with a capital letter is plain if no arrow follows. -/
theorem plain_iff_of_cons {A : Name} {c : Char} {cs : List Char} (hA : A.toList = c :: cs)
    (hc : c = 'T' ∨ c = 'X') : Plain A ↔ ¬"->".toList <:+: cs ∧ '→' ∉ cs := by
  have hfirst : '-' ≠ c ∧ '→' ≠ c ∧ ∀ h : Heading, ¬(h.word ++ ":").toList <+: c :: cs := by
    rcases hc with rfl | rfl <;> refine ⟨by decide, by decide, fun h => ?_⟩ <;> cases h <;>
      simp [Heading.word]
  have hdash : ¬"->".toList <+: c :: cs := fun hprefix =>
    hfirst.1 (List.cons_prefix_cons.1 hprefix).1
  have hsame : ("->".toList <:+: A.toList ↔ "->".toList <:+: cs) ∧ ('→' ∈ A.toList ↔ '→' ∈ cs) := by
    rw [hA, List.infix_cons_iff, or_iff_right hdash, List.mem_cons, or_iff_right hfirst.2.1]
    exact ⟨.rfl, .rfl⟩
  rw [← hsame.1, ← hsame.2]
  exact ⟨fun h => ⟨h.dash, h.arrow⟩, fun h => ⟨h.1, h.2, hA ▸ hfirst.2.2⟩⟩

/-- No arrow ends in a text without its tip. -/
theorem dash_infix_append {as bs : List Char} (hbs : '>' ∉ bs) :
    "->".toList <:+: as ++ bs ↔ "->".toList <:+: as := by
  refine ⟨fun h => ?_, fun h => h.trans List.infix_append_left⟩
  -- Behind or across the seam the arrow would have its tip in `bs`.
  rcases List.infix_append_iff_ne_nil.1 h with h | h | ⟨xs, ys, -, hne, heq, -, hys⟩
  · exact h
  · exact absurd (h.subset (by decide)) hbs
  · have hlast := congrArg List.getLast? heq
    rw [List.getLast?_append, List.getLast?_eq_some_getLast hne, Option.some_or] at hlast
    have htip : '>' = ys.getLast hne := Option.some.inj hlast
    exact absurd (hys.subset (htip ▸ List.getLast_mem hne)) hbs

theorem plain_chainSeries (i : Nat) : Plain (({} : NameSupply).chainSeries i) := by
  have hname : (({} : NameSupply).chainSeries i).toList = 'X' :: (toString i).toList := by
    simp [NameSupply.chainSeries]
  refine (plain_iff_of_cons hname (.inr rfl)).2 ⟨fun hdash => ?_, fun harrow => ?_⟩
  · have htip : '>' ∈ (toString i).toList := hdash.subset (by decide)
    exact absurd (isDigit_of_mem_toString htip) (by decide)
  · exact absurd (isDigit_of_mem_toString harrow) (by decide)

/-- The nonterminal that stands for a terminal has an arrow in its name only if the terminal has. -/
theorem plain_wrapperSeries_iff {a : Name} {i : Nat} :
    Plain (({} : NameSupply).wrapperSeries a i) ↔ ¬"->".toList <:+: a.toList ∧ '→' ∉ a.toList := by
  have hhead (cs : List Char) : ¬"->".toList <+: '_' :: cs := fun hprefix =>
    absurd (List.cons_prefix_cons.1 hprefix).1 (by decide)
  -- Only the first name of the series goes without a number.
  cases i with
  | zero =>
    have hname : (({} : NameSupply).wrapperSeries a 0).toList = 'T' :: '_' :: a.toList := by
      simp [NameSupply.wrapperSeries]
    rw [plain_iff_of_cons hname (.inl rfl), List.infix_cons_iff, or_iff_right (hhead _)]
    simp
  | succ n =>
    have hname : (({} : NameSupply).wrapperSeries a (n + 1)).toList =
        'T' :: '_' :: (a.toList ++ '_' :: (toString (n + 1)).toList) := by
      simp [NameSupply.wrapperSeries]
    have hfree (c : Char) (hc : c.isDigit = false) (hne : c ≠ '_') :
        c ∉ '_' :: (toString (n + 1)).toList := by
      rw [List.mem_cons, not_or]
      refine ⟨hne, fun hmem => ?_⟩
      rw [isDigit_of_mem_toString hmem] at hc
      cases hc
    rw [plain_iff_of_cons hname (.inl rfl), List.infix_cons_iff, or_iff_right (hhead _),
      dash_infix_append (hfree '>' (by decide) (by decide)), List.mem_cons, List.mem_append,
      or_iff_left (hfree '→' (by decide) (by decide))]
    simp

end Listing

namespace Grammar

variable {g g' : Grammar} {new : List Name}

/-- All symbols of `g'` and of its right sides come from `g` or are named by `new`, and so do the
heads that have right sides. -/
structure DrawsOn (g' g : Grammar) (new : List Name) : Prop where
  has : ∀ Y, g'.has Y = true → g.has Y = true ∨ ∃ A ∈ new, Y = .nonterminal A
  symbols : ∀ X, ∀ right ∈ g'.rightsOf X, ∀ Y ∈ right,
    (∃ Z, ∃ old ∈ g.rightsOf Z, Y ∈ old) ∨ ∃ A ∈ new, Y = .nonterminal A
  rights : ∀ A, ∀ right ∈ g'.rightsOf (.nonterminal A),
    (∃ old, old ∈ g.rightsOf (.nonterminal A)) ∨ A ∈ new

/-- New names that make no difficulty leave a grammar legible. -/
theorem DrawsOn.legible (h : g'.DrawsOn g new) (hg : g.Legible) (hnew : ∀ A ∈ new, Handy A) :
    g'.Legible where
  field Y hY := by
    rcases h.has Y hY with hY | ⟨A, hA, rfl⟩
    · exact hg.field Y hY
    · exact (hnew A hA).field
  marker Y hY := by
    rcases h.has Y hY with hY | ⟨A, hA, rfl⟩
    · exact hg.marker Y hY
    · exact (hnew A hA).marker
  bars X right hright Y hY := by
    rcases h.symbols X right hright Y hY with ⟨Z, old, hold, hY⟩ | ⟨A, hA, rfl⟩
    · exact hg.bars Z old hold Y hY
    · exact (hnew A hA).bar
  comment A hcomment right hright := by
    rcases h.rights A right hright with ⟨old, hold⟩ | hA
    · exact hg.comment A hcomment old hold
    · exact (hnew A hA).comment hcomment

theorem DrawsOn.trans {g'' : Grammar} {later : List Name} (h : g'.DrawsOn g new)
    (h' : g''.DrawsOn g' later) : g''.DrawsOn g (new ++ later) where
  has Y hY := by
    rcases h'.has Y hY with hY | ⟨A, hA, rfl⟩
    · exact (h.has Y hY).imp_right fun ⟨A, hA, heq⟩ => ⟨A, List.mem_append_left _ hA, heq⟩
    · exact .inr ⟨A, List.mem_append_right _ hA, rfl⟩
  symbols X right hright Y hY := by
    rcases h'.symbols X right hright Y hY with ⟨Z, old, hold, hY⟩ | ⟨A, hA, rfl⟩
    · exact (h.symbols Z old hold Y hY).imp_right fun ⟨A, hA, heq⟩ =>
        ⟨A, List.mem_append_left _ hA, heq⟩
    · exact .inr ⟨A, List.mem_append_right _ hA, rfl⟩
  rights A right hright := by
    rcases h'.rights A right hright with ⟨old, hold⟩ | hA
    · exact (h.rights A old hold).imp_right (List.mem_append_left _)
    · exact .inr (List.mem_append_right _ hA)

theorem DrawsOn.of_subset (hhas : ∀ Y, g'.has Y = true → g.has Y = true)
    (hsub : ∀ X, ∀ right ∈ g'.rightsOf X, right ∈ g.rightsOf X) : g'.DrawsOn g [] where
  has Y hY := .inl (hhas Y hY)
  symbols X right hright _ hY := .inl ⟨X, right, hsub X right hright, hY⟩
  rights _ right hright := .inl ⟨right, hsub _ right hright⟩

theorem drawsOn_withoutEpsilon (h : g.WellFormed) : g.withoutEpsilon.DrawsOn g [] where
  has Y hY := .inl (has_map (g := g).symm.trans hY)
  symbols X right hright Y hY := by
    rcases mem_rightsOf_withoutEpsilon.1 hright with ⟨-, old, hold, hvariant⟩ | ⟨rfl, -⟩
    · exact .inl ⟨X, old, hold, RightSide.mem_of_mem_omissions hvariant hY⟩
    · cases hY
  rights A right hright := by
    rcases mem_rightsOf_withoutEpsilon.1 hright with ⟨-, old, hold, -⟩ | ⟨-, -, hnullable⟩
    · exact .inl ⟨old, hold⟩
    · obtain ⟨old, hold, -⟩ := derives_iff.1 ((mem_nullable h).1 hnullable)
      exact .inl ⟨old, hold⟩

/-- A chain of unit rules begins with one. -/
theorem exists_unit_of_reaches {X Y : Symbol} (h : g.unitSteps.Reaches X Y) :
    Y = X ∨ ∃ right, right ∈ g.rightsOf X := by
  induction h with
  | root => exact .inl rfl
  | step _ hentry hmem ih =>
    rcases ih with rfl | hright
    · obtain ⟨B, -, hright⟩ := exists_unitSteps_iff.1 ⟨_, hentry, hmem⟩
      exact .inr ⟨_, hright⟩
    · exact .inr hright

theorem drawsOn_withoutUnits (h : g.WellFormed) : g.withoutUnits.DrawsOn g [] where
  has Y hY := .inl (has_map (g := g).symm.trans hY)
  symbols X right hright Y hY := by
    obtain ⟨-, Z, -, hold, -⟩ := (mem_rightsOf_withoutUnits h).1 hright
    exact .inl ⟨Z, right, hold, hY⟩
  rights A right hright := by
    obtain ⟨-, Z, hZ, hold, -⟩ := (mem_rightsOf_withoutUnits h).1 hright
    rcases exists_unit_of_reaches hZ with rfl | hunit
    · exact .inl ⟨right, hold⟩
    · exact .inl hunit

theorem has_of_has_without {symbols : SymbolSet} {Y : Symbol}
    (hY : (g.without symbols).has Y = true) :
    g.has Y = true := by
  cases Y with
  | nonterminal A =>
    have hhead := mem_productions_without.1 (Std.ExtTreeMap.contains_iff_mem.1 hY)
    exact Std.ExtTreeMap.contains_iff_mem.2 hhead.1
  | terminal a =>
    rcases Bool.or_eq_true_iff.1 hY with hhead | hterminal
    · have hhead := mem_productions_without.1 (Std.ExtTreeMap.contains_iff_mem.1 hhead)
      exact Bool.or_eq_true_iff.2 (.inl (Std.ExtTreeMap.contains_iff_mem.2 hhead.1))
    · exact Bool.or_eq_true_iff.2 (.inr hterminal)

theorem drawsOn_withoutUnreachable (h : g.WellFormed) : g.withoutUnreachable.DrawsOn g [] :=
  .of_subset (fun _ => has_of_has_without)
    fun _ _ hright => ((mem_rightsOf_withoutUnreachable h).1 hright).1

theorem drawsOn_withoutUnproductive : g.withoutUnproductive.DrawsOn g [] :=
  .of_subset (fun _ hY => has_of_has_without (has_map (g := g.without g.unproductive).symm.trans hY))
    fun _ _ hright => (mem_rightsOf_withoutUnproductive.1 hright).1

theorem drawsOn_trimmed (h : g.WellFormed) : g.trimmed.DrawsOn g [] :=
  (drawsOn_withoutEpsilon h).trans ((drawsOn_withoutUnits h.withoutEpsilon).trans
    ((drawsOn_withoutUnreachable h.withoutEpsilon.withoutUnits).trans
      (drawsOn_withoutUnproductive.trans (drawsOn_withoutUnreachable h.reduced.withoutUnproductive))))

/-- A nonterminal that stands for a terminal makes no difficulty if the terminal makes none. -/
theorem Listable.handy_wrapper (hg : g.Listable) (h : g.WellFormed) {a : Name}
    (ha : a ∈ g.mixedTerminals) (i : Nat) : Handy (({} : NameSupply).wrapperSeries a i) := by
  obtain ⟨X, right, hright, -, hmem⟩ := mem_mixedTerminals.1 ha
  exact handy_wrapperSeries (hg.field _ (h.closed X right hright _ hmem))
    (hg.bars X right hright _ hmem) i

section Isolation

variable {s : NameSupply} {wrappers : Wrappers} {glossary : Glossary}
  (hw : g.Wraps s g.mixedTerminals.toList wrappers glossary)
include hw

/-- A minted nonterminal stands for a terminal that occurs beside another symbol. -/
theorem Wraps.exists_mixed {T : Name} (hT : T ∈ glossary.map Prod.fst) :
    ∃ a ∈ g.mixedTerminals, (T, [.terminal a]) ∈ glossary ∧ ∃ i, T = s.wrapperSeries a i := by
  obtain ⟨⟨T, form⟩, hmem, rfl⟩ := List.mem_map.1 hT
  obtain ⟨a, ha, rfl, hseries⟩ := hw.form_eq T form hmem
  exact ⟨a, Std.ExtTreeSet.mem_toList.1 ha, hmem, hseries⟩

theorem Wraps.drawsOn : (g.isolated wrappers glossary).DrawsOn g (glossary.map Prod.fst) where
  has Y hY := by
    have hextend := has_extend.1 ((has_map (g := g.extend glossary.entries)).symm.trans hY)
    rwa [Glossary.map_fst_entries] at hextend
  symbols X right hright Y hY := by
    rcases hw.mem_rightsOf_isolated.1 hright with ⟨old, hold, rfl⟩ | ⟨T, rfl, hT⟩
    · rcases RightSide.mem_isolate hY with hY | ⟨a, T, hT, rfl⟩
      · exact .inl ⟨X, old, hold, hY⟩
      · exact .inr ⟨T, List.mem_map.2 ⟨_, hw.mem a T hT, rfl⟩, rfl⟩
    · obtain ⟨a, ha, rfl, -⟩ := hw.form_eq T right hT
      obtain ⟨Z, old, hold, -, hmem⟩ := mem_mixedTerminals.1 (Std.ExtTreeSet.mem_toList.1 ha)
      exact .inl ⟨Z, old, hold, List.mem_singleton.1 hY ▸ hmem⟩
  rights A right hright := by
    rcases hw.mem_rightsOf_isolated.1 hright with ⟨old, hold, -⟩ | ⟨T, heq, hT⟩
    · exact .inl ⟨old, hold⟩
    · cases heq
      exact .inr (List.mem_map.2 ⟨_, hT, rfl⟩)

end Isolation

section Chains

variable {s : NameSupply} {cuts : Cuts} (h : g.IsCutBy s cuts)
include h

theorem IsCutBy.drawsOn : (g.shortened cuts).DrawsOn g cuts.names where
  has Y hY := by
    have hsame : (g.shortened cuts).has Y = (g.reserve cuts.names).has Y :=
      has_congr rfl fun _ => h.mem_productions_shortened
    exact has_reserve.1 (hsame.symm.trans hY)
  symbols _ _ hright _ hY := h.mem_or_of_mem hright hY
  rights A right hright := by
    rcases h.mem_rightsOf_shortened.1 hright with ⟨cs, hcs, c, hc, -⟩ | ⟨N, heq, hN⟩
    · exact .inl ⟨c.right, h.mem_rightsOf_iff.2 ⟨cs, hcs, c, hc, rfl⟩⟩
    · cases heq
      exact .inr (Cuts.mem_names hN)

end Chains

end Grammar

end ContextFree
