import ContextFree.Listing.Reader
import ContextFree.Proofs.Lines
import ContextFree.Proofs.Spelling
import ContextFree.Sample

/-! # Grammars that were read

A listing is read as a grammar if each of its lines can be read, no heading is declared twice,
and the declarations and rules together spell a grammar. The numbers of the lines do not matter,
nor does the order in which the rules are grouped.
-/

namespace ContextFree

section Grouping

variable {α κ : Type} [DecidableEq κ] {k k' : κ} {x y : α} {groups : List (κ × List α)}

theorem exists_mem_addToGroup : (∃ ys, (k', ys) ∈ addToGroup k x groups) ↔
    (∃ ys, (k', ys) ∈ groups) ∨ k' = k := by
  induction groups with
  | nil => simp [addToGroup]
  | cons group groups ih =>
    obtain ⟨key, zs⟩ := group
    rw [addToGroup]
    split
    next heq =>
      subst heq
      simp only [List.mem_cons, Prod.mk.injEq]
      grind
    next =>
      simp only [List.mem_cons, exists_or, ih, or_assoc]

theorem mem_addToGroup : (∃ ys, (k', ys) ∈ addToGroup k x groups ∧ y ∈ ys) ↔
    (∃ ys, (k', ys) ∈ groups ∧ y ∈ ys) ∨ k' = k ∧ y = x := by
  induction groups with
  | nil =>
    rw [addToGroup]
    constructor
    · rintro ⟨ys, hys, hy⟩
      cases List.mem_singleton.1 hys
      exact .inr ⟨rfl, List.mem_singleton.1 hy⟩
    · rintro (⟨ys, hys, -⟩ | ⟨rfl, rfl⟩)
      · cases hys
      · exact ⟨[y], List.mem_singleton.2 rfl, List.mem_singleton.2 rfl⟩
  | cons group groups ih =>
    obtain ⟨key, zs⟩ := group
    rw [addToGroup]
    split
    next heq =>
      subst heq
      simp only [List.mem_cons, Prod.mk.injEq]
      grind
    next =>
      simp only [List.mem_cons, or_and_right, exists_or, ih, or_assoc]

variable {key : α → κ} {xs : List α}

theorem exists_mem_groupBy : (∃ ys, (k, ys) ∈ groupBy key xs) ↔ ∃ x ∈ xs, key x = k := by
  have hfold (groups : List (κ × List α)) :
      (∃ ys, (k, ys) ∈ xs.foldl (fun groups x => addToGroup (key x) x groups) groups) ↔
        (∃ ys, (k, ys) ∈ groups) ∨ ∃ x ∈ xs, key x = k := by
    induction xs generalizing groups with
    | nil => simp
    | cons x xs ih =>
      rw [List.foldl_cons, ih, exists_mem_addToGroup, or_assoc]
      simp only [List.mem_cons]
      grind
  rw [groupBy, hfold]
  simp

theorem mem_groupBy : (∃ ys, (k, ys) ∈ groupBy key xs ∧ y ∈ ys) ↔ y ∈ xs ∧ key y = k := by
  have hfold (groups : List (κ × List α)) :
      (∃ ys, (k, ys) ∈ xs.foldl (fun groups x => addToGroup (key x) x groups) groups ∧ y ∈ ys) ↔
        (∃ ys, (k, ys) ∈ groups ∧ y ∈ ys) ∨ y ∈ xs ∧ key y = k := by
    induction xs generalizing groups with
    | nil => simp
    | cons x xs ih =>
      rw [List.foldl_cons, ih, mem_addToGroup, or_assoc, List.mem_cons]
      grind
  rw [groupBy, hfold]
  simp

end Grouping

namespace Spelling

theorem wellFormed_of_grammar {s : Spelling} {start : Name} {g : Grammar}
    (h : s.grammar start = .ok g) : g.WellFormed := by
  obtain ⟨-, hfit, rfl⟩ := grammar_eq_ok.1 h
  exact hfit.wellFormed

end Spelling

theorem wellFormed_of_sampleGrammar {g : Grammar} (h : sampleGrammar = .ok g) : g.WellFormed :=
  Spelling.wellFormed_of_grammar h

namespace Listing

/-- The heading of a declaration. -/
def Line.heading? : Line → Option Heading
  | .declaration h _ => some h
  | _ => none

/-- The names that a line declares under a heading. -/
def Line.declared? (h : Heading) : Line → Option (List Name)
  | .declaration h' names => if h' = h then some names else none
  | _ => none

/-- The left side and the alternatives of a rule. -/
def Line.rule? : Line → Option (Name × List String)
  | .rule left alts => some (left, alts)
  | _ => none

/-- The names that lines declare under a heading. -/
def declared? (said : List Line) (h : Heading) : Option (List Name) :=
  said.findSome? (Line.declared? h)

/-- The rules that lines give. -/
def rulesOf (said : List Line) : List (Name × List String) :=
  said.filterMap Line.rule?

/-- No heading is declared twice. -/
def Unrepeated (said : List Line) : Prop :=
  (said.filterMap Line.heading?).Nodup

theorem Line.declared?_eq_none {line : Line} {h : Heading} :
    line.declared? h = none ↔ line.heading? ≠ some h := by
  cases line <;> simp [Line.declared?, Line.heading?]

theorem Line.declared?_eq_some {line : Line} {heading : Heading} {names : List Name} :
    line.declared? heading = some names ↔ line = .declaration heading names := by
  cases line with
  | declaration heading' names' =>
    rw [Line.declared?, Line.declaration.injEq]
    split <;> simp [*]
  | blank => simp [Line.declared?]
  | rule left alts => simp [Line.declared?]

theorem declared?_cons {line : Line} {said : List Line} {h : Heading} :
    declared? (line :: said) h = (line.declared? h).or (declared? said h) := by
  rw [declared?, List.findSome?_cons]
  cases line.declared? h <;> rfl

theorem rulesOf_cons {line : Line} {said : List Line} :
    rulesOf (line :: said) = line.rule?.toList ++ rulesOf said := by
  rw [rulesOf, List.filterMap_cons]
  cases line.rule? <;> rfl

theorem mem_headings_cons {line : Line} {said : List Line} {h : Heading} :
    h ∈ (line :: said).filterMap Line.heading? ↔
      h ∈ line.heading? ∨ h ∈ said.filterMap Line.heading? := by
  simp [List.mem_filterMap]

theorem unrepeated_cons {line : Line} {said : List Line} : Unrepeated (line :: said) ↔
    (∀ h ∈ line.heading?, h ∉ said.filterMap Line.heading?) ∧ Unrepeated said := by
  rw [Unrepeated, List.filterMap_cons]
  cases line.heading? with
  | none => simp [Unrepeated]
  | some h => simp [Unrepeated, List.nodup_cons]

theorem mem_rulesOf {said : List Line} {rule : Name × List String} :
    rule ∈ rulesOf said ↔ .rule rule.1 rule.2 ∈ said := by
  rw [rulesOf, List.mem_filterMap]
  constructor
  · rintro ⟨line, hline, hrule⟩
    cases line with
    | rule left alts =>
      cases hrule
      exact hline
    | blank => cases hrule
    | declaration heading names => cases hrule
  · intro h
    exact ⟨_, h, rfl⟩

/-- Without repetitions, what is declared is what one of the lines declares. -/
theorem declared?_eq_some {said : List Line} {heading : Heading} {names : List Name}
    (hnodup : Unrepeated said) :
    declared? said heading = some names ↔ .declaration heading names ∈ said := by
  induction said with
  | nil => simp [declared?]
  | cons line said ih =>
    obtain ⟨hfirst, hrest⟩ := unrepeated_cons.1 hnodup
    rw [declared?_cons, List.mem_cons, ← ih hrest, eq_comm (b := line), ← Line.declared?_eq_some]
    cases hline : line.declared? heading with
    | none => simp
    | some names' =>
      obtain rfl := Line.declared?_eq_some.1 hline
      have hnone : declared? said heading = none := by
        rw [declared?, List.findSome?_eq_none_iff]
        intro other hother
        rw [Line.declared?_eq_none]
        exact fun heq => hfirst heading rfl (List.mem_filterMap.2 ⟨other, hother, heq⟩)
      simp [hnone]

section Read

variable {said : List Line} {ls : List (List Char)} (hsaid : ls.mapM Line.read = .ok said)
include hsaid

theorem exists_read_of_declared? {h : Heading} {names : List Name}
    (hnames : declared? said h = some names) :
    ∃ l ∈ ls, Line.read l = .ok (.declaration h names) := by
  obtain ⟨line, hline, heq⟩ := List.exists_of_findSome?_eq_some hnames
  obtain rfl := Line.declared?_eq_some.1 heq
  exact exists_of_mapM_eq_ok hsaid _ hline

theorem exists_read_of_mem_rulesOf {left : Name} {alts : List String}
    (hrule : (left, alts) ∈ rulesOf said) : ∃ l ∈ ls, Line.read l = .ok (.rule left alts) :=
  exists_of_mapM_eq_ok hsaid _ (mem_rulesOf.1 hrule)

end Read

namespace Outline

variable {o o' : Outline} {number : Nat} {line : Line} {said : List Line} {ls : List (List Char)}

/-- The names that are declared under a heading. -/
def names? (o : Outline) (h : Heading) : Option (List Name) :=
  (o.declaration? h).map Declaration.names

/-- The left sides and alternatives of the rules. -/
def pairs (o : Outline) : List (Name × List String) :=
  o.rules.map fun rule => (rule.left, rule.alternatives)

/-- A line is added unless it repeats a declaration. -/
theorem exists_add (number : Nat) (hfresh : ∀ h ∈ line.heading?, o.names? h = none) :
    ∃ o', o.add number line = .ok o' := by
  cases line with
  | blank => exact ⟨_, rfl⟩
  | rule left alts => exact ⟨_, rfl⟩
  | declaration h names =>
    have hnone : o.declaration? h = none := Option.map_eq_none_iff.1 (hfresh h rfl)
    rw [add, hnone]
    exact ⟨_, rfl⟩

theorem names?_cons {h h' : Heading} {d : Declaration} {rules : List RuleLine} :
    names? ⟨(h, d) :: o.declarations, rules⟩ h' = if h' = h then some d.names else o.names? h' := by
  rw [names?, declaration?, List.lookup_cons]
  by_cases hh : h' = h
  · subst hh
    simp
  · rw [if_neg hh, beq_false_of_ne hh]
    rfl

/-- What a line says is added to what was said before. -/
theorem of_add (hadd : o.add number line = .ok o') : (∀ h ∈ line.heading?, o.names? h = none) ∧
    (∀ h, o'.names? h = (o.names? h).or (line.declared? h)) ∧
      o'.pairs = o.pairs ++ line.rule?.toList := by
  cases line with
  | blank =>
    cases hadd
    simp [Line.heading?, Line.declared?, Line.rule?]
  | rule left alts =>
    cases hadd
    simp [Line.heading?, Line.declared?, Line.rule?, pairs, names?, declaration?]
  | declaration h names =>
    rw [add] at hadd
    split at hadd
    next => cases hadd
    next hnone =>
      cases hadd
      have hfresh : o.names? h = none :=
        Option.map_eq_none_iff.2 (Option.not_isSome_iff_eq_none.1 hnone)
      refine ⟨?_, fun h' => ?_, ?_⟩
      · rintro _ ⟨⟩
        exact hfresh
      · rw [names?_cons, Line.declared?]
        by_cases hh : h' = h
        · subst hh
          simp [hfresh]
        · simp [hh, Ne.symm hh]
      · simp [pairs, Line.rule?]

theorem readLine_eq_ok {l : List Char} : o.readLine number l = .ok o' ↔
    ∃ line, Line.read l = .ok line ∧ o.add number line = .ok o' := by
  rw [readLine, ← bind_eq_ok]
  cases Line.read l >>= o.add number <;> simp

theorem readLines_cons {l : List Char} : o.readLines number (l :: ls) = .ok o' ↔
    ∃ line next, Line.read l = .ok line ∧ o.add number line = .ok next ∧
      next.readLines (number + 1) ls = .ok o' := by
  rw [readLines, bind_eq_ok]
  simp only [readLine_eq_ok]
  constructor
  · rintro ⟨next, ⟨line, hread, hadd⟩, hrest⟩
    exact ⟨line, next, hread, hadd, hrest⟩
  · rintro ⟨line, next, hread, hadd, hrest⟩
    exact ⟨next, ⟨line, hread, hadd⟩, hrest⟩

theorem exists_readLines (number : Nat) (hread : ls.mapM Line.read = .ok said)
    (hnodup : Unrepeated said)
    (hfresh : ∀ h ∈ said.filterMap Line.heading?, o.names? h = none) :
    ∃ o', o.readLines number ls = .ok o' := by
  induction ls generalizing o number said with
  | nil => exact ⟨o, rfl⟩
  | cons l ls ih =>
    obtain ⟨line, said, hline, hsaid, rfl⟩ := mapM_cons_eq_ok.1 hread
    obtain ⟨hfirst, hnodup⟩ := unrepeated_cons.1 hnodup
    obtain ⟨next, hadd⟩ := exists_add number fun h hh =>
      hfresh h (mem_headings_cons.2 (.inl hh))
    have hnext : ∀ h ∈ said.filterMap Line.heading?, next.names? h = none := by
      intro h hh
      have hother : line.declared? h = none :=
        Line.declared?_eq_none.2 fun heq => hfirst h heq hh
      rw [(of_add hadd).2.1, hfresh h (mem_headings_cons.2 (.inr hh)), hother]
      rfl
    obtain ⟨o', hrest⟩ := ih (number + 1) hsaid hnodup hnext
    exact ⟨o', readLines_cons.2 ⟨line, next, hline, hadd, hrest⟩⟩

theorem of_readLines (hread : o.readLines number ls = .ok o') : ∃ said,
    ls.mapM Line.read = .ok said ∧ Unrepeated said ∧
      (∀ h ∈ said.filterMap Line.heading?, o.names? h = none) ∧
      (∀ h, o'.names? h = (o.names? h).or (Listing.declared? said h)) ∧
        o'.pairs = o.pairs ++ rulesOf said := by
  induction ls generalizing o number with
  | nil =>
    cases hread
    exact ⟨[], rfl, List.nodup_nil, by simp, by simp [Listing.declared?], by simp [rulesOf]⟩
  | cons l ls ih =>
    obtain ⟨line, next, hline, hadd, hrest⟩ := readLines_cons.1 hread
    obtain ⟨hfirst, hnames, hpairs⟩ := of_add hadd
    obtain ⟨said, hsaid, hnodup, hfresh, hnames', hpairs'⟩ := ih hrest
    -- A heading that follows was free before the first line, and the first line did not use it up.
    have hboth (h : Heading) (hh : h ∈ said.filterMap Line.heading?) :
        o.names? h = none ∧ line.declared? h = none := by
      simpa [hnames] using hfresh h hh
    refine ⟨line :: said, mapM_cons_eq_ok.2 ⟨line, said, hline, hsaid, rfl⟩,
      unrepeated_cons.2 ⟨fun h hh hmem => ?_, hnodup⟩, fun h hh => ?_, fun h => ?_, ?_⟩
    · exact Line.declared?_eq_none.1 (hboth h hmem).2 hh
    · rcases mem_headings_cons.1 hh with hh | hh
      · exact hfirst h hh
      · exact (hboth h hh).1
    · rw [hnames', hnames, declared?_cons, Option.or_assoc]
    · rw [hpairs', hpairs, rulesOf_cons, List.append_assoc]

end Outline

/-- The nonterminals: the declared ones, or else the left sides. -/
def nonterminalsOf (said : List Line) : List Name :=
  (declared? said .nonterminals).getD ((rulesOf said).map Prod.fst)

/-- The start symbol, if the lines decide on one. -/
def startOf? (said : List Line) : Option Name :=
  match declared? said .start with
  | some [name] => some name
  | some _ => none
  | none => (rulesOf said).head?.map Prod.fst

/-- What lines spell, with the terminals that they declare. -/
def spellingOf (said : List Line) (terminals : List Name) : Spelling where
  nonterminals := nonterminalsOf said
  terminals := terminals
  productions := rulesOf said

namespace Outline

variable {o : Outline} {said : List Line} {text : String} {start? : Option Name} {g : Grammar}

/-- An outline is a grammar exactly if its rules mention declared names only and its symbols and
right sides spell one. -/
theorem grammar_eq_ok : o.grammar start? = .ok g ↔ ∃ s start,
    o.spelling = .ok s ∧ start?.elim o.start .ok = .ok start ∧
      (∀ rule ∈ o.rules, checkRule s.vocabulary rule = .ok ()) ∧ s.grammar start = .ok g := by
  rw [Outline.grammar]
  simp only [bind_eq_ok]
  constructor
  · rintro ⟨s, hs, start, hstart, ⟨⟩, hrules, hg⟩
    exact ⟨s, start, hs, hstart, forM_eq_ok.1 hrules, hg⟩
  · rintro ⟨s, start, hs, hstart, hrules, hg⟩
    exact ⟨s, hs, start, hstart, (), forM_eq_ok.2 hrules, hg⟩

/-- The outline takes together what the lines say. -/
structure Says (o : Outline) (said : List Line) : Prop where
  names : ∀ h, o.names? h = Listing.declared? said h
  pairs : o.pairs = rulesOf said

theorem of_ofText (h : ofText text = .ok o) : ∃ said,
    (Text.lines text.toList).mapM Line.read = .ok said ∧ Unrepeated said ∧ o.Says said := by
  obtain ⟨said, hsaid, hnodup, -, hnames, hpairs⟩ := of_readLines h
  exact ⟨said, hsaid, hnodup, fun h => by simpa [names?, declaration?] using hnames h, hpairs⟩

theorem exists_ofText (hread : (Text.lines text.toList).mapM Line.read = .ok said)
    (hnodup : Unrepeated said) : ∃ o, ofText text = .ok o ∧ o.Says said := by
  obtain ⟨o, ho⟩ := exists_readLines (o := {}) 1 hread hnodup fun _ _ => rfl
  obtain ⟨said', hsaid', -, hsays⟩ := of_ofText ho
  rw [hread] at hsaid'
  cases hsaid'
  exact ⟨o, ho, hsays⟩

theorem nonterminals_eq :
    o.nonterminals = (o.names? .nonterminals).getD (o.pairs.map Prod.fst) := by
  rw [nonterminals, names?, pairs, List.map_map]
  cases o.declaration? .nonterminals <;> rfl

theorem Says.nonterminals_eq (h : o.Says said) : o.nonterminals = nonterminalsOf said := by
  rw [Outline.nonterminals_eq, h.names, h.pairs, nonterminalsOf]

theorem Says.start_eq_ok (h : o.Says said) {name : Name} :
    o.start = .ok name ↔ startOf? said = some name := by
  rw [startOf?, ← h.names, ← h.pairs, names?, Outline.pairs, Outline.start]
  cases o.declaration? .start with
  | none =>
    cases o.rules with
    | nil => simp
    | cons rule rules => simp
  | some d =>
    obtain ⟨number, names⟩ := d
    match names with
    | [] => simp
    | [name'] => simp
    | _ :: _ :: _ => simp

/-- The start symbol is the given one, or else the one that the lines decide on. -/
theorem Says.start_elim (h : o.Says said) {start : Name} :
    start?.elim o.start .ok = .ok start ↔ start?.or (startOf? said) = some start := by
  cases start? with
  | none => simpa using h.start_eq_ok
  | some given => simp

theorem checkAlternative_eq_ok {v : Spelling.Vocabulary} {number : Nat} {alternative : String}
    (h : (v.side? epsilonMarker alternative).isSome) :
    checkAlternative v number alternative = .ok () := by
  obtain ⟨side, hside⟩ := Option.isSome_iff_exists.1 h
  obtain ⟨names, hnames, hall, -⟩ := Spelling.Vocabulary.side?_eq_some.1 hside
  have hnone : names.find? (fun name => !v.has name) = none := by simpa using hall
  rw [checkAlternative, hnames]
  dsimp only [bind, Except.bind]
  rw [hnone]
  rfl

theorem checkRule_eq_ok {v : Spelling.Vocabulary} {rule : RuleLine}
    (hleft : v.nonterminals.contains rule.left = true)
    (h : ∀ alt ∈ rule.alternatives, (v.side? epsilonMarker alt).isSome) :
    checkRule v rule = .ok () := by
  rw [checkRule, if_pos hleft]
  exact forM_eq_ok.2 fun alt halt => checkAlternative_eq_ok (h alt halt)

/-- What an outline spells, with rules of one left side taken together. -/
def grouped (o : Outline) (terminals : List Name) : Spelling where
  nonterminals := o.nonterminals
  terminals := terminals
  productions := (groupBy RuleLine.left o.rules).map fun (left, lines) =>
    (left, lines.flatMap RuleLine.alternatives)

theorem spelling_eq_ok {s : Spelling} : o.spelling = .ok s ↔
    ∃ terminals, o.names? .terminals = some terminals ∧ s = o.grouped terminals := by
  rw [spelling, names?]
  cases o.declaration? .terminals with
  | none => simp
  | some d =>
    simp only [Except.ok.injEq, Option.map_some, Option.some.injEq, exists_eq_left']
    exact eq_comm

theorem exists_mem_grouped (terminals : List Name) {A : Name} :
    (∃ texts, (A, texts) ∈ (o.grouped terminals).productions) ↔ ∃ texts, (A, texts) ∈ o.pairs := by
  have hgroup : (∃ lines, (A, lines) ∈ groupBy RuleLine.left o.rules) ↔
      ∃ rule ∈ o.rules, rule.left = A := exists_mem_groupBy
  simp only [grouped, pairs, List.mem_map, Prod.exists, Prod.mk.injEq]
  grind

theorem mem_grouped (terminals : List Name) {A : Name} {text : String} :
    (∃ texts, (A, texts) ∈ (o.grouped terminals).productions ∧ text ∈ texts) ↔
      ∃ texts, (A, texts) ∈ o.pairs ∧ text ∈ texts := by
  have hgroup (rule : RuleLine) :
      (∃ lines, (A, lines) ∈ groupBy RuleLine.left o.rules ∧ rule ∈ lines) ↔
      rule ∈ o.rules ∧ rule.left = A := mem_groupBy
  simp only [grouped, pairs, List.mem_map, Prod.exists, Prod.mk.injEq]
  constructor
  · rintro ⟨texts, ⟨A', lines, hlines, rfl, rfl⟩, htext⟩
    obtain ⟨rule, hrule, htext⟩ := List.mem_flatMap.1 htext
    obtain ⟨hmem, hleft⟩ := (hgroup rule).1 ⟨lines, hlines, hrule⟩
    exact ⟨rule.alternatives, ⟨rule, hmem, hleft, rfl⟩, htext⟩
  · rintro ⟨texts, ⟨rule, hmem, hleft, rfl⟩, htext⟩
    obtain ⟨lines, hlines, hrule⟩ := (hgroup rule).2 ⟨hmem, hleft⟩
    exact ⟨_, ⟨A, lines, hlines, rfl, rfl⟩, List.mem_flatMap.2 ⟨rule, hrule, htext⟩⟩

/-- The grouping of the rules does not matter. -/
theorem Says.spells_grouped (h : o.Says said) {terminals : List Name} :
    (o.grouped terminals).Spells g ↔ (spellingOf said terminals).Spells g := by
  have hmarker : (o.grouped terminals).marker = (spellingOf said terminals).marker := rfl
  rw [spellingOf, ← h.nonterminals_eq, ← h.pairs]
  constructor
  · exact Spelling.Spells.congr (fun _ => exists_mem_grouped terminals)
      fun _ _ => mem_grouped terminals
  · exact Spelling.Spells.congr (fun _ => (exists_mem_grouped terminals).symm)
      fun _ _ => (mem_grouped terminals).symm

/-- The rules of an outline that spells a grammar pass the check. -/
theorem checkRule_of_spells {terminals : List Name} (h : (o.grouped terminals).Spells g) :
    ∀ rule ∈ o.rules, checkRule (o.grouped terminals).vocabulary rule = .ok () := by
  intro rule hrule
  have hpair : (rule.left, rule.alternatives) ∈ o.pairs := List.mem_map.2 ⟨rule, hrule, rfl⟩
  rw [← h.vocabulary_eq]
  refine checkRule_eq_ok ?_ fun alt halt => ?_
  · obtain ⟨texts, htexts⟩ := (exists_mem_grouped terminals).2 ⟨_, hpair⟩
    simpa [Grammar.vocabulary] using ⟨_, (h.sides _ htexts).1, rfl⟩
  · obtain ⟨texts, htexts, halt⟩ := (mem_grouped terminals).2 ⟨_, hpair, halt⟩
    exact (h.sides _ htexts).2 alt halt

/-- An outline is read as a grammar exactly if what its lines say spells that grammar. -/
theorem Says.grammar_eq_ok (h : o.Says said) : o.grammar start? = .ok g ↔ ∃ terminals,
    Listing.declared? said .terminals = some terminals ∧ start?.or (startOf? said) = some g.start ∧
      (spellingOf said terminals).Spells g := by
  rw [Outline.grammar_eq_ok, ← h.names]
  constructor
  · rintro ⟨s, start, hs, hs', -, hg⟩
    obtain ⟨terminals, hterminals, rfl⟩ := spelling_eq_ok.1 hs
    obtain ⟨hspells, rfl⟩ := Spelling.grammar_eq_ok_iff.1 hg
    exact ⟨terminals, hterminals, h.start_elim.1 hs', h.spells_grouped.1 hspells⟩
  · rintro ⟨terminals, hterminals, hs', hspells⟩
    have hgrouped := h.spells_grouped.2 hspells
    exact ⟨_, _, spelling_eq_ok.2 ⟨terminals, hterminals, rfl⟩, h.start_elim.2 hs',
      checkRule_of_spells hgrouped, Spelling.grammar_eq_ok_iff.2 ⟨hgrouped, rfl⟩⟩

end Outline

variable {text : String} {start? : Option Name} {g : Grammar}

/-- A text is read as a grammar exactly if its lines can be read, none of them repeats a
declaration, and together they spell that grammar. -/
theorem read_eq_ok : read text start? = .ok g ↔ ∃ said terminals,
    (Text.lines text.toList).mapM Line.read = .ok said ∧ Unrepeated said ∧
      declared? said .terminals = some terminals ∧ start?.or (startOf? said) = some g.start ∧
        (spellingOf said terminals).Spells g := by
  rw [read, bind_eq_ok]
  constructor
  · rintro ⟨o, ho, hg⟩
    obtain ⟨said, hsaid, hnodup, hsays⟩ := Outline.of_ofText ho
    obtain ⟨terminals, hterminals, hstart, hspells⟩ := hsays.grammar_eq_ok.1 hg
    exact ⟨said, terminals, hsaid, hnodup, hterminals, hstart, hspells⟩
  · rintro ⟨said, terminals, hsaid, hnodup, hterminals, hstart, hspells⟩
    obtain ⟨o, ho, hsays⟩ := Outline.exists_ofText hsaid hnodup
    exact ⟨o, ho, hsays.grammar_eq_ok.2 ⟨terminals, hterminals, hstart, hspells⟩⟩

theorem wellFormed_of_read (h : read text start? = .ok g) : g.WellFormed := by
  obtain ⟨said, terminals, -, -, -, -, hspells⟩ := read_eq_ok.1 h
  exact Spelling.wellFormed_of_grammar (Spelling.grammar_eq_ok_iff.2 ⟨hspells, rfl⟩)

end Listing

end ContextFree
