import ContextFree.Proofs.Faults
import ContextFree.Proofs.Reading

/-! # What is wrong with a listing

A fault that is reported with the number of a line is a fault of that line. A listing whose lines
are all right is refused only for its declarations: the terminals or a start symbol are missing, or
the epsilon marker is declared, or the start symbol is no nonterminal, or a name is declared as
both kinds of symbols.
-/

namespace ContextFree

namespace Parts

variable {p : Parts}

/-- The names that are listed as nonterminals and as terminals, in ascending order. -/
def shared (p : Parts) : List Name :=
  ((NameSet.of p.nonterminals).filter (NameSet.of p.terminals).contains).toList

/-- Parts that share a name between the two kinds of symbols do not fit, whatever else they list. -/
theorem draft_grammar_of_shared (h : ∃ A ∈ p.nonterminals, A ∈ p.terminals) :
    p.draft.grammar = .error (.sharedNames p.shared) := by
  have hnonterminals : Draft.nonterminalNames p.draft.nonterminals = .ok p.nonterminals :=
    Draft.nonterminalNames_eq_ok.2 rfl
  have hterminals : Draft.terminalNames p.draft.terminals = .ok p.terminals :=
    Draft.terminalNames_eq_ok.2 rfl
  have hshared : ¬((NameSet.of p.nonterminals).filter (NameSet.of p.terminals).contains).isEmpty =
      true := by
    rw [Draft.isEmpty_shared]
    simpa using h
  rw [Draft.grammar, hnonterminals, hterminals]
  dsimp only [bind, Except.bind]
  rw [if_neg hshared]
  rfl

end Parts

theorem exists_splitRightSide {text marker : String} {isName : Name → Bool}
    (h : Text.strip text.toList ≠ []) :
    ∃ names, splitRightSide text marker isName = .ok names := by
  have hne : ¬(Text.strip text.toList).isEmpty = true := by simpa using h
  rw [splitRightSide, if_neg hne]
  split
  · exact ⟨_, rfl⟩
  · split
    · exact ⟨_, rfl⟩
    · split <;> exact ⟨_, rfl⟩

namespace Spelling

variable {s : Spelling} {v : Vocabulary} {start name : Name} {marker text : String} {fault : Fault}

theorem has_vocabulary :
    s.vocabulary.has name = true ↔ name ∈ s.nonterminals ∨ name ∈ s.terminals := by
  simp [Vocabulary.has, vocabulary]

/-- A text that is not blank stands for a right side if it is split into declared names only. -/
theorem Vocabulary.isSome_side? (h : Text.strip text.toList ≠ [])
    (hnames : ∀ names, splitRightSide text marker v.has = .ok names →
      ∀ name ∈ names, v.has name = true) : (v.side? marker text).isSome := by
  obtain ⟨names, hsplit⟩ := exists_splitRightSide h
  rw [side?_eq_some.2 ⟨names, hsplit, hnames names hsplit, rfl⟩]
  rfl

theorem grammar_of_marker (h : s.vocabulary.has s.marker = true) :
    s.grammar start = .error (.markerDeclared s.marker) := by
  rw [Spelling.grammar, readProductions]
  dsimp only
  rw [if_pos h]
  rfl

/-- Texts that can be read leave it to the start symbol and the parts whether there is a grammar. -/
theorem Reads.grammar_eq (h : s.Reads) :
    s.grammar start = if start ∈ s.nonterminals then (s.parts start).draft.grammar
      else .error (.startUndeclared start) := by
  have hmem : s.vocabulary.nonterminals.contains start = true ↔ start ∈ s.nonterminals := by
    simp [vocabulary]
  rw [Spelling.grammar, readProductions_eq_ok.2 ⟨h, rfl⟩]
  dsimp only [bind, Except.bind]
  by_cases hstart : start ∈ s.nonterminals
  · rw [if_pos (hmem.2 hstart), if_pos hstart]
    rfl
  · rw [if_neg (mt hmem.1 hstart), if_neg hstart]
    rfl

/-- Where all texts stand for right sides of declared left sides, only the declared names can be at
fault: the marker among them is reported first, then a start symbol that is no nonterminal, then
the names of both kinds. -/
theorem grammar_eq_error (hsides : ∀ p ∈ s.productions, p.1 ∈ s.nonterminals ∧
      ∀ text ∈ p.2, (s.vocabulary.side? s.marker text).isSome) :
    s.grammar start = .error fault ↔
      s.vocabulary.has s.marker = true ∧ fault = .markerDeclared s.marker ∨
      s.vocabulary.has s.marker = false ∧ (start ∉ s.nonterminals ∧ fault = .startUndeclared start ∨
        start ∈ s.nonterminals ∧ (∃ A ∈ s.nonterminals, A ∈ s.terminals) ∧
          fault = .sharedNames (s.parts start).shared) := by
  by_cases hmarker : s.vocabulary.has s.marker = true
  · rw [grammar_of_marker hmarker]
    simp [hmarker, eq_comm]
  · have hfree : s.vocabulary.has s.marker = false := by simpa using hmarker
    have hreads : s.Reads := ⟨hfree, hsides⟩
    rw [hreads.grammar_eq]
    by_cases hstart : start ∈ s.nonterminals
    · rw [if_pos hstart]
      by_cases hshared : ∃ A ∈ s.nonterminals, A ∈ s.terminals
      · rw [Parts.draft_grammar_of_shared hshared]
        simp [hfree, hstart, hshared, eq_comm]
      · have hfit : (s.parts start).Fit := hreads.fit hstart (by simpa using hshared)
        rw [Draft.grammar_eq_ok.2 ⟨_, hfit, rfl, rfl⟩]
        simp [hfree, hstart, hshared]
    · rw [if_neg hstart]
      simp [hfree, hstart, eq_comm]

end Spelling

namespace Listing

open Text

namespace Line

/-- What is wrong with a line in itself: it has no arrow, or what stands before its first arrow is
not one name, or one of the alternatives behind it is blank. -/
inductive Unreadable (line : List Char) : LineFault → Prop where
  | noArrow : splitArrow (strip line) = none →
    Unreadable line (.noArrow (String.ofList (strip line)))
  | badLeft {before after : List Char} : splitArrow (strip line) = some (before, after) →
    ¬IsField (strip before) → Unreadable line (.badLeft (String.ofList (strip before)))
  | emptyAlternative {before after piece : List Char} :
    splitArrow (strip line) = some (before, after) → piece ∈ pieces (· = '|') (strip after) →
      strip piece = [] → Unreadable line (.emptyAlternative (String.ofList (strip line)))

variable {line : List Char} {cause : LineFault}

theorem unreadable_of_ruleOf (h : ruleOf (strip line) = .error cause) : Unreadable line cause := by
  rw [ruleOf] at h
  cases hcut : splitArrow (strip line) with
  | none =>
    rw [hcut] at h
    cases h
    exact .noArrow hcut
  | some cut =>
    obtain ⟨before, after⟩ := cut
    rw [hcut] at h
    dsimp only at h
    split at h
    next hbad =>
      cases h
      exact .badLeft hcut fun hfield => isField_iff.1 hfield hbad
    next =>
      rw [alternatives] at h
      split at h
      · cases h
      · dsimp only at h
        split at h
        next hany =>
          cases h
          obtain ⟨part, hpart, hnil⟩ := List.any_eq_true.1 hany
          obtain ⟨piece, hpiece, rfl⟩ := List.mem_map.1 hpart
          exact .emptyAlternative hcut hpiece (List.isEmpty_iff.1 hnil)
        next => cases h

theorem unreadable_of_read (h : read line = .error cause) : Unreadable line cause := by
  cases hline : strip line with
  | nil =>
    rw [read, hline] at h
    cases h
  | cons c cs =>
    by_cases hc : c = '#'
    · subst hc
      rw [read_comment hline] at h
      cases h
    · rw [read_of_strip_eq hline hc, ← hline] at h
      cases hdecl : declaration? (strip line) with
      | some said =>
        rw [hdecl] at h
        cases h
      | none =>
        rw [hdecl] at h
        exact unreadable_of_ruleOf h

theorem strip_ne_nil_of_read {left : Name} {alts : List String}
    (h : read line = .ok (.rule left alts)) : ∀ alt ∈ alts, strip alt.toList ≠ [] := by
  rcases read_cases h with heq | ⟨c, cs, -, -, hdecl | ⟨-, hrule⟩⟩
  · cases heq
  · obtain ⟨_, _, heq, -⟩ := declaration?_eq_some hdecl
    cases heq
  · obtain ⟨before, after, alts', -, -, halts, heq⟩ := ruleOf_eq_ok.1 hrule
    cases heq
    by_cases hmarker : String.ofList (strip after) = emptyMarker
    · rw [alternatives, if_pos hmarker] at halts
      cases halts
      simp
    · obtain ⟨rfl, hne⟩ := (alternatives_eq_ok hmarker).1 halts
      intro alt halt
      obtain ⟨part, hpart, rfl⟩ := List.mem_map.1 halt
      obtain ⟨piece, -, rfl⟩ := List.mem_map.1 hpart
      rw [String.toList_ofList, (isTrimmed_strip (hne _ hpart)).strip_eq]
      exact hne _ hpart

end Line

/-- What the numbered lines say, if all of them can be read. -/
def Reads (numbered : List (List Char × Nat)) (said : List Line) : Prop :=
  (numbered.map Prod.fst).mapM Line.read = .ok said

/-- The line with the number is at fault, among the lines that are numbered: it cannot be read, or
it repeats a declaration of an earlier line, or it declares no start symbol or several, or it is a
rule for a name that is no nonterminal or with a name that is no symbol. -/
inductive Blames (numbered : List (List Char × Nat)) (n : Nat) : LineFault → Prop where
  | unreadable {line : List Char} {cause : LineFault} : (line, n) ∈ numbered →
    Line.Unreadable line cause → Blames numbered n cause
  | repeated {line line' : List Char} {n' : Nat} {heading : Heading} {names names' : List Name} :
    (line, n) ∈ numbered → Line.read line = .ok (.declaration heading names) →
      (line', n') ∈ numbered → Line.read line' = .ok (.declaration heading names') → n' < n →
        Blames numbered n (.repeated heading)
  | startCount {line : List Char} {names : List Name} : (line, n) ∈ numbered →
    Line.read line = .ok (.declaration .start names) → names.length ≠ 1 →
      Blames numbered n .startCount
  | undeclaredLeft {line : List Char} {said : List Line} {left : Name} {alts : List String} :
    (line, n) ∈ numbered → Line.read line = .ok (.rule left alts) → Reads numbered said →
      left ∉ nonterminalsOf said → Blames numbered n (.undeclaredLeft left)
  | undeclaredName {line : List Char} {said : List Line} {left name : Name} {alts : List String}
      {alt : String} {terminals names : List Name} :
    (line, n) ∈ numbered → Line.read line = .ok (.rule left alts) → Reads numbered said →
      declared? said .terminals = some terminals → alt ∈ alts →
        splitRightSide alt epsilonMarker (spellingOf said terminals).vocabulary.has = .ok names →
          name ∈ names → name ∉ nonterminalsOf said → name ∉ terminals →
            Blames numbered n (.undeclaredName name alt)

namespace Outline

variable {o o' : Outline} {k : Nat} {ls : List (List Char)} {fault : Fault}
  {numbered numbered' : List (List Char × Nat)}

/-- The outline takes its declarations and rules from lines of the list, with their numbers. -/
structure Cites (o : Outline) (numbered : List (List Char × Nat)) : Prop where
  declarations : ∀ heading d, o.declaration? heading = some d →
    ∃ line, (line, d.number) ∈ numbered ∧ Line.read line = .ok (.declaration heading d.names)
  rules : ∀ rule ∈ o.rules, ∃ line, (line, rule.number) ∈ numbered ∧
    Line.read line = .ok (.rule rule.left rule.alternatives)

theorem Cites.mono (h : o.Cites numbered) (hsub : ∀ p ∈ numbered, p ∈ numbered') :
    o.Cites numbered' where
  declarations heading d hd := by
    obtain ⟨line, hline, hread⟩ := h.declarations heading d hd
    exact ⟨line, hsub _ hline, hread⟩
  rules rule hrule := by
    obtain ⟨line, hline, hread⟩ := h.rules rule hrule
    exact ⟨line, hsub _ hline, hread⟩

theorem Cites.add {line : List Char} {n : Nat} {said : Line} (h : o.Cites numbered)
    (hread : Line.read line = .ok said) (hadd : o.add n said = .ok o') :
    o'.Cites (numbered ++ [(line, n)]) := by
  have hold : o.Cites (numbered ++ [(line, n)]) := h.mono fun p hp => List.mem_append_left _ hp
  cases said with
  | blank =>
    cases hadd
    exact hold
  | rule left alts =>
    cases hadd
    refine ⟨hold.declarations, fun rule hrule => ?_⟩
    rcases List.mem_append.1 hrule with hrule | hrule
    · exact hold.rules rule hrule
    · cases List.mem_singleton.1 hrule
      exact ⟨line, by simp, hread⟩
  | declaration heading names =>
    rw [Outline.add] at hadd
    split at hadd
    · cases hadd
    · cases hadd
      refine ⟨fun heading' d hd => ?_, hold.rules⟩
      rw [declaration?, List.lookup_cons] at hd
      by_cases heq : heading' = heading
      · subst heq
        rw [beq_self_eq_true] at hd
        cases hd
        exact ⟨line, by simp, hread⟩
      · rw [beq_false_of_ne heq] at hd
        exact hold.declarations heading' d hd

theorem Cites.readLines (h : o.Cites numbered) (hread : o.readLines k ls = .ok o') :
    o'.Cites (numbered ++ ls.zipIdx k) := by
  induction ls generalizing o k numbered with
  | nil =>
    cases hread
    simpa using h
  | cons l ls ih =>
    obtain ⟨said, next, hl, hadd, hrest⟩ := readLines_cons.1 hread
    have hnext := ih (h.add hl hadd) hrest
    rwa [List.append_assoc, List.singleton_append, ← List.zipIdx_cons] at hnext

/-- A declaration is refused only if there is one under its heading already. -/
theorem of_add_eq_error {n : Nat} {said : Line} {cause : LineFault}
    (h : o.add n said = .error cause) : ∃ heading names d,
      said = .declaration heading names ∧ o.declaration? heading = some d ∧
        cause = .repeated heading := by
  cases said with
  | blank => cases h
  | rule left alts => cases h
  | declaration heading names =>
    rw [Outline.add] at h
    split at h
    next hsome =>
      cases h
      obtain ⟨d, hd⟩ := Option.isSome_iff_exists.1 hsome
      exact ⟨heading, names, d, rfl, hd, rfl⟩
    next => cases h

theorem readLine_eq_error {l : List Char} : o.readLine k l = .error fault ↔
    ∃ cause, fault = .atLine k cause ∧ (Line.read l = .error cause ∨
      ∃ said, Line.read l = .ok said ∧ o.add k said = .error cause) := by
  simp only [← bind_eq_error]
  rw [readLine]
  cases Line.read l >>= o.add k with
  | ok next => simp
  | error cause => simp [eq_comm]

/-- Lines are refused because of one of them, which may repeat what was declared before. -/
theorem blames_of_readLines (h : o.Cites numbered) (hbefore : ∀ p ∈ numbered, p.2 < k)
    (herror : o.readLines k ls = .error fault) :
    ∃ n cause, fault = .atLine n cause ∧ Blames (numbered ++ ls.zipIdx k) n cause := by
  induction ls generalizing o k numbered with
  | nil => cases herror
  | cons l ls ih =>
    rw [List.zipIdx_cons]
    rw [Outline.readLines, bind_eq_error] at herror
    -- Either the first line is at fault, or it is taken in and one of the others is.
    rcases herror with herror | ⟨next, hnext, herror⟩
    · obtain ⟨cause, rfl, hl | ⟨said, hl, hadd⟩⟩ := readLine_eq_error.1 herror
      · exact ⟨k, cause, rfl, .unreadable (by simp) (Line.unreadable_of_read hl)⟩
      · obtain ⟨heading, names, d, rfl, hd, rfl⟩ := of_add_eq_error hadd
        obtain ⟨line', hline', hread'⟩ := h.declarations heading d hd
        exact ⟨k, _, rfl, .repeated (by simp) hl (List.mem_append_left _ hline') hread'
          (hbefore _ hline')⟩
    · obtain ⟨said, hl, hadd⟩ := readLine_eq_ok.1 hnext
      have hlater : ∀ p ∈ numbered ++ [(l, k)], p.2 < k + 1 := by
        intro p hp
        rcases List.mem_append.1 hp with hp | hp
        · exact Nat.lt_succ_of_lt (hbefore p hp)
        · rw [List.mem_singleton.1 hp]
          exact Nat.lt_succ_self k
      have hrest := ih (h.add hl hadd) hlater herror
      rwa [List.append_assoc, List.singleton_append] at hrest

section Check

variable {v : Spelling.Vocabulary} {rule : RuleLine}

/-- The check of a rule line that holds no blank alternative fails for a name that is not
declared. -/
theorem checkRule_eq_error (hne : ∀ alt ∈ rule.alternatives, strip alt.toList ≠ [])
    (h : checkRule v rule = .error fault) :
    v.nonterminals.contains rule.left = false ∧
      fault = .atLine rule.number (.undeclaredLeft rule.left) ∨
    ∃ alt ∈ rule.alternatives, ∃ names, splitRightSide alt epsilonMarker v.has = .ok names ∧
      ∃ name ∈ names, v.has name = false ∧
        fault = .atLine rule.number (.undeclaredName name alt) := by
  rw [checkRule] at h
  by_cases hleft : v.nonterminals.contains rule.left = true
  · rw [if_pos hleft] at h
    obtain ⟨alt, halt, hcheck⟩ := exists_of_forM_eq_error h
    obtain ⟨names, hsplit⟩ := exists_splitRightSide (hne alt halt)
    rw [checkAlternative, hsplit] at hcheck
    dsimp only [bind, Except.bind] at hcheck
    split at hcheck
    next name hname =>
      cases hcheck
      have hfree : v.has name = false := by simpa using List.find?_some hname
      exact .inr ⟨alt, halt, names, hsplit, name, List.mem_of_find?_eq_some hname, hfree, rfl⟩
    next => cases hcheck
  · rw [if_neg hleft] at h
    cases h
    exact .inl ⟨Bool.not_eq_true _ ▸ hleft, rfl⟩

theorem of_checkRule (h : checkRule v rule = .ok ()) :
    v.nonterminals.contains rule.left = true ∧ ∀ alt ∈ rule.alternatives, ∀ names,
      splitRightSide alt epsilonMarker v.has = .ok names → ∀ name ∈ names, v.has name = true := by
  rw [checkRule] at h
  by_cases hleft : v.nonterminals.contains rule.left = true
  · rw [if_pos hleft] at h
    refine ⟨hleft, fun alt halt names hsplit => ?_⟩
    have hcheck : checkAlternative v rule.number alt = .ok () := forM_eq_ok.1 h alt halt
    rw [checkAlternative, hsplit] at hcheck
    dsimp only [bind, Except.bind] at hcheck
    split at hcheck
    next => cases hcheck
    next hnone => simpa using hnone
  · rw [if_neg hleft] at h
    cases h

end Check

end Outline

/-- The lines of a text are all right: each of them can be read, none repeats a declaration, one of
them declares the terminals, and the rules are rules for nonterminals and hold declared names
only. -/
structure Faultless (text : String) (said : List Line) (terminals : List Name) : Prop where
  reads : (Text.lines text.toList).mapM Line.read = .ok said
  unrepeated : Unrepeated said
  declared : declared? said .terminals = some terminals
  lefts : ∀ rule ∈ rulesOf said, rule.1 ∈ nonterminalsOf said
  names : ∀ rule ∈ rulesOf said, ∀ alt ∈ rule.2, ∀ names,
    splitRightSide alt epsilonMarker (spellingOf said terminals).vocabulary.has = .ok names →
      ∀ name ∈ names, name ∈ nonterminalsOf said ∨ name ∈ terminals

variable {text : String} {start? : Option Name} {start : Name} {said : List Line}
  {terminals : List Name} {g : Grammar} {fault : Fault} {o : Outline}

theorem strip_ne_nil_of_mem_rulesOf (hread : (Text.lines text.toList).mapM Line.read = .ok said)
    {rule : Name × List String} (hrule : rule ∈ rulesOf said) :
    ∀ alt ∈ rule.2, strip alt.toList ≠ [] := by
  obtain ⟨line, -, hline⟩ := exists_read_of_mem_rulesOf hread hrule
  exact Line.strip_ne_nil_of_read hline

namespace Outline

theorem Says.vocabulary_eq (h : o.Says said) :
    (o.grouped terminals).vocabulary = (spellingOf said terminals).vocabulary := by
  rw [spellingOf, ← h.nonterminals_eq]
  rfl

theorem Says.spelling_eq_ok (h : o.Says said) {s : Spelling} : o.spelling = .ok s ↔
    ∃ terminals, Listing.declared? said .terminals = some terminals ∧ s = o.grouped terminals := by
  rw [Outline.spelling_eq_ok, h.names]

theorem Says.spelling_eq_error (h : o.Says said) : o.spelling = .error fault ↔
    Listing.declared? said .terminals = none ∧ fault = .noTerminals := by
  rw [← h.names, names?, spelling]
  cases o.declaration? .terminals with
  | none => simp [eq_comm]
  | some d => simp

theorem start_eq_error (h : o.start = .error fault) :
    (∃ d, o.declaration? .start = some d ∧ d.names.length ≠ 1 ∧
      fault = .atLine d.number .startCount) ∨
    o.declaration? .start = none ∧ o.rules = [] ∧ fault = .noStart := by
  rw [Outline.start] at h
  cases hd : o.declaration? .start with
  | some d =>
    obtain ⟨number, names⟩ := d
    rw [hd] at h
    cases names with
    | nil =>
      cases h
      exact .inl ⟨_, rfl, by simp, rfl⟩
    | cons name names =>
      cases names with
      | nil => cases h
      | cons name' names =>
        cases h
        exact .inl ⟨_, rfl, by simp, rfl⟩
  | none =>
    cases hrules : o.rules with
    | nil =>
      rw [hd, hrules] at h
      cases h
      exact .inr ⟨rfl, rfl, rfl⟩
    | cons rule rules =>
      rw [hd, hrules] at h
      cases h

/-- An outline is refused by one of its checks, in their order, or else by what it spells. -/
theorem grammar_eq_error : o.grammar start? = .error fault ↔ o.spelling = .error fault ∨
    ∃ s, o.spelling = .ok s ∧ (start?.elim o.start .ok = .error fault ∨
      ∃ start, start?.elim o.start .ok = .ok start ∧
        (o.rules.forM (checkRule s.vocabulary) = .error fault ∨
          o.rules.forM (checkRule s.vocabulary) = .ok () ∧ s.grammar start = .error fault)) := by
  rw [Outline.grammar]
  simp only [bind_eq_error]
  constructor
  · rintro (h | ⟨s, hs, h | ⟨start, hstart, h | ⟨⟨⟩, hrules, h⟩⟩⟩)
    · exact .inl h
    · exact .inr ⟨s, hs, .inl h⟩
    · exact .inr ⟨s, hs, .inr ⟨start, hstart, .inl h⟩⟩
    · exact .inr ⟨s, hs, .inr ⟨start, hstart, .inr ⟨hrules, h⟩⟩⟩
  · rintro (h | ⟨s, hs, h | ⟨start, hstart, h | ⟨hrules, h⟩⟩⟩)
    · exact .inl h
    · exact .inr ⟨s, hs, .inl h⟩
    · exact .inr ⟨s, hs, .inr ⟨start, hstart, .inl h⟩⟩
    · exact .inr ⟨s, hs, .inr ⟨start, hstart, .inr ⟨(), hrules, h⟩⟩⟩

end Outline

namespace Faultless

theorem of_sides (hread : (Text.lines text.toList).mapM Line.read = .ok said)
    (hnodup : Unrepeated said) (hterminals : declared? said .terminals = some terminals)
    (hsides : ∀ rule ∈ rulesOf said, rule.1 ∈ nonterminalsOf said ∧ ∀ alt ∈ rule.2,
      ((spellingOf said terminals).vocabulary.side? epsilonMarker alt).isSome) :
    Faultless text said terminals := by
  refine ⟨hread, hnodup, hterminals, fun rule hrule => (hsides rule hrule).1, ?_⟩
  intro rule hrule alt halt names hsplit name hname
  obtain ⟨side, hside⟩ := Option.isSome_iff_exists.1 ((hsides rule hrule).2 alt halt)
  obtain ⟨names', hsplit', hall, -⟩ := Spelling.Vocabulary.side?_eq_some.1 hside
  rw [hsplit] at hsplit'
  cases hsplit'
  exact Spelling.has_vocabulary.1 (hall name hname)

theorem isSome_side? (h : Faultless text said terminals) {rule : Name × List String}
    (hrule : rule ∈ rulesOf said) : ∀ alt ∈ rule.2,
      ((spellingOf said terminals).vocabulary.side? epsilonMarker alt).isSome := by
  intro alt halt
  apply Spelling.Vocabulary.isSome_side? (strip_ne_nil_of_mem_rulesOf h.reads hrule alt halt)
  intro names hsplit name hname
  exact Spelling.has_vocabulary.2 (h.names rule hrule alt halt names hsplit name hname)

/-- Lines that are all right leave the listing to what they spell. -/
theorem read_eq (h : Faultless text said terminals) (houtline : o.Says said)
    (ho : Outline.ofText text = .ok o) (hstart : start?.or (startOf? said) = some start) :
    read text start? = (o.grouped terminals).grammar start := by
  have hspelling : o.spelling = .ok (o.grouped terminals) :=
    houtline.spelling_eq_ok.2 ⟨terminals, h.declared, rfl⟩
  have hchecks : o.rules.forM (Outline.checkRule (o.grouped terminals).vocabulary) = .ok () := by
    rw [forM_eq_ok, houtline.vocabulary_eq]
    intro rule hrule
    have hpair : (rule.left, rule.alternatives) ∈ rulesOf said := by
      rw [← houtline.pairs]
      exact List.mem_map.2 ⟨rule, hrule, rfl⟩
    refine Outline.checkRule_eq_ok ?_ (h.isSome_side? hpair)
    simpa [Spelling.vocabulary, spellingOf] using h.lefts _ hpair
  rw [read, ho]
  dsimp only [bind, Except.bind]
  rw [Outline.grammar, hspelling]
  dsimp only [bind, Except.bind]
  rw [houtline.start_elim.2 hstart]
  dsimp only
  rw [hchecks]

theorem sides_grouped (h : Faultless text said terminals) (houtline : o.Says said) :
    ∀ p ∈ (o.grouped terminals).productions, p.1 ∈ (o.grouped terminals).nonterminals ∧
      ∀ alt ∈ p.2, ((o.grouped terminals).vocabulary.side? epsilonMarker alt).isSome := by
  rintro ⟨A, texts⟩ hp
  rw [houtline.vocabulary_eq]
  constructor
  · obtain ⟨alts, halts⟩ := (Outline.exists_mem_grouped terminals).1 ⟨texts, hp⟩
    rw [houtline.pairs] at halts
    change A ∈ o.nonterminals
    rw [houtline.nonterminals_eq]
    exact h.lefts _ halts
  · intro alt halt
    obtain ⟨alts, halts, halt⟩ := (Outline.mem_grouped terminals).1 ⟨texts, hp, halt⟩
    rw [houtline.pairs] at halts
    exact h.isSome_side? halts alt halt

/-- A listing whose lines are all right is refused for its declarations or not at all. -/
theorem grammar_eq_error (h : Faultless text said terminals) (houtline : o.Says said) :
    (o.grouped terminals).grammar start = .error fault ↔
      (epsilonMarker ∈ nonterminalsOf said ∨ epsilonMarker ∈ terminals) ∧
        fault = .markerDeclared epsilonMarker ∨
      ¬(epsilonMarker ∈ nonterminalsOf said ∨ epsilonMarker ∈ terminals) ∧
        (start ∉ nonterminalsOf said ∧ fault = .startUndeclared start ∨
          start ∈ nonterminalsOf said ∧ (∃ A ∈ nonterminalsOf said, A ∈ terminals) ∧
            fault = .sharedNames ((o.grouped terminals).parts start).shared) := by
  have hnonterminals : (o.grouped terminals).nonterminals = nonterminalsOf said :=
    houtline.nonterminals_eq
  have hterminals : (o.grouped terminals).terminals = terminals := rfl
  have hmarker : (o.grouped terminals).marker = epsilonMarker := rfl
  have hsides := h.sides_grouped houtline
  rw [Spelling.grammar_eq_error hsides, ← Bool.not_eq_true, Spelling.has_vocabulary, hmarker,
    hnonterminals, hterminals]

end Faultless

theorem blames_of_checkRule {numbered : List (List Char × Nat)} {rule : RuleLine}
    (hreads : Reads numbered said) (hterminals : declared? said .terminals = some terminals)
    (hcites : o.Cites numbered) (hrule : rule ∈ o.rules)
    (h : Outline.checkRule (spellingOf said terminals).vocabulary rule = .error fault) :
    ∃ n cause, fault = .atLine n cause ∧ Blames numbered n cause := by
  obtain ⟨line, hline, hread⟩ := hcites.rules rule hrule
  rcases Outline.checkRule_eq_error (Line.strip_ne_nil_of_read hread) h with
    ⟨hleft, rfl⟩ | ⟨alt, halt, names, hsplit, name, hname, hfree, rfl⟩
  · have hnot : rule.left ∉ nonterminalsOf said := by
      simpa [Spelling.vocabulary, spellingOf] using hleft
    exact ⟨_, _, rfl, .undeclaredLeft hline hread hreads hnot⟩
  · rw [← Bool.not_eq_true, Spelling.has_vocabulary, not_or] at hfree
    exact ⟨_, _, rfl, .undeclaredName hline hread hreads hterminals halt hsplit hname hfree.1
      hfree.2⟩

theorem faultless_of_checkRule (hread : (Text.lines text.toList).mapM Line.read = .ok said)
    (hnodup : Unrepeated said) (hterminals : declared? said .terminals = some terminals)
    (houtline : o.Says said) (h : ∀ rule ∈ o.rules,
      Outline.checkRule (spellingOf said terminals).vocabulary rule = .ok ()) :
    Faultless text said terminals := by
  have hchecks : ∀ rule ∈ rulesOf said,
      (spellingOf said terminals).vocabulary.nonterminals.contains rule.1 = true ∧
        ∀ alt ∈ rule.2, ∀ names,
          splitRightSide alt epsilonMarker (spellingOf said terminals).vocabulary.has = .ok names →
            ∀ name ∈ names, (spellingOf said terminals).vocabulary.has name = true := by
    intro rule hrule
    rw [← houtline.pairs] at hrule
    obtain ⟨ruleLine, hmem, rfl⟩ := List.mem_map.1 hrule
    exact Outline.of_checkRule (h ruleLine hmem)
  refine ⟨hread, hnodup, hterminals, ?_, ?_⟩
  · intro rule hrule
    simpa [Spelling.vocabulary, spellingOf] using (hchecks rule hrule).1
  · intro rule hrule alt halt names hsplit name hname
    exact Spelling.has_vocabulary.1 ((hchecks rule hrule).2 alt halt names hsplit name hname)

/-- The faults of a listing that no line is to blame for. -/
inductive Lacks (start? : Option Name) (said : List Line) : Fault → Prop where
  | noTerminals : declared? said .terminals = none → Lacks start? said .noTerminals
  | noStart : start? = none → declared? said .start = none → rulesOf said = [] →
    Lacks start? said .noStart

/-- An outline is refused for a line, for a missing declaration, or although its lines are all
right. -/
theorem of_grammar_eq_error {numbered : List (List Char × Nat)}
    (hnumbered : numbered.map Prod.fst = Text.lines text.toList)
    (hread : (Text.lines text.toList).mapM Line.read = .ok said) (hnodup : Unrepeated said)
    (houtline : o.Says said) (hcites : o.Cites numbered) (h : o.grammar start? = .error fault) :
    (∃ n cause, fault = .atLine n cause ∧ Blames numbered n cause) ∨ Lacks start? said fault ∨
      ∃ terminals start, Faultless text said terminals ∧
        start?.or (startOf? said) = some start := by
  have hreads : Reads numbered said := by rw [Reads, hnumbered, hread]
  -- The checks follow each other: the terminals, the start symbol, the rules, the grammar.
  rcases Outline.grammar_eq_error.1 h with
    hspelling | ⟨s, hspelling, hstart | ⟨start, hstart, hcheck | ⟨hcheck, -⟩⟩⟩
  · obtain ⟨hnone, rfl⟩ := houtline.spelling_eq_error.1 hspelling
    exact .inr (.inl (.noTerminals hnone))
  · cases start? with
    | some start => cases hstart
    | none =>
      rcases Outline.start_eq_error hstart with ⟨d, hd, hcount, rfl⟩ | ⟨hnone, hrules, rfl⟩
      · obtain ⟨line, hline, hdeclaration⟩ := hcites.declarations _ d hd
        exact .inl ⟨_, _, rfl, .startCount hline hdeclaration hcount⟩
      · refine .inr (.inl (.noStart rfl ?_ ?_))
        · rw [← houtline.names, Outline.names?, hnone]
          rfl
        · rw [← houtline.pairs, Outline.pairs, hrules]
          rfl
  · obtain ⟨terminals, hterminals, rfl⟩ := houtline.spelling_eq_ok.1 hspelling
    rw [houtline.vocabulary_eq] at hcheck
    obtain ⟨rule, hrule, herror⟩ := exists_of_forM_eq_error hcheck
    exact .inl (blames_of_checkRule hreads hterminals hcites hrule herror)
  · obtain ⟨terminals, hterminals, rfl⟩ := houtline.spelling_eq_ok.1 hspelling
    rw [houtline.vocabulary_eq] at hcheck
    have hfaultless : Faultless text said terminals :=
      faultless_of_checkRule hread hnodup hterminals houtline (forM_eq_ok.1 hcheck)
    exact .inr (.inr ⟨terminals, start, hfaultless, houtline.start_elim.1 hstart⟩)

theorem exists_faultless_of_read (h : read text start? = .ok g) :
    ∃ said terminals, Faultless text said terminals := by
  obtain ⟨said, terminals, hread, hnodup, hterminals, -, hspells⟩ := read_eq_ok.1 h
  refine ⟨said, terminals, Faultless.of_sides hread hnodup hterminals fun rule hrule => ?_⟩
  obtain ⟨hleft, halts⟩ := hspells.sides rule hrule
  rw [hspells.vocabulary_eq] at halts
  exact ⟨hspells.nonterminal_mem_iff.1 hleft, halts⟩

/-- A text whose lines are all right, and which decides on a start symbol, is refused exactly for
its declarations. -/
theorem Faultless.exists_spelling (h : Faultless text said terminals)
    (hstart : start?.or (startOf? said) = some start) : ∃ s : Spelling,
      (Outline.ofText text >>= Outline.spelling) = .ok s ∧ read text start? = s.grammar start ∧
      ((∃ fault, s.grammar start = .error fault) ↔
        epsilonMarker ∈ nonterminalsOf said ∨ epsilonMarker ∈ terminals ∨
          start ∉ nonterminalsOf said ∨ ∃ A ∈ nonterminalsOf said, A ∈ terminals) ∧
      ∀ fault, s.grammar start = .error fault → fault = .markerDeclared epsilonMarker ∨
        fault = .startUndeclared start ∨ ∃ names, fault = .sharedNames names := by
  obtain ⟨o, ho, houtline⟩ := Outline.exists_ofText h.reads h.unrepeated
  have hspelling : o.spelling = .ok (o.grouped terminals) :=
    houtline.spelling_eq_ok.2 ⟨terminals, h.declared, rfl⟩
  refine ⟨o.grouped terminals, by rw [ho]; exact hspelling, h.read_eq houtline ho hstart, ?_, ?_⟩
  · simp only [h.grammar_eq_error houtline, exists_or, exists_and_left]
    grind
  · intro fault hfault
    rcases (h.grammar_eq_error houtline).1 hfault with ⟨-, rfl⟩ | ⟨-, ⟨-, rfl⟩ | ⟨-, -, rfl⟩⟩
    · exact .inl rfl
    · exact .inr (.inl rfl)
    · exact .inr (.inr ⟨_, rfl⟩)

/-- A text is refused for the line whose number is reported, or for a declaration that it lacks, or
although its lines are all right. -/
theorem of_read_eq_error (h : read text start? = .error fault) :
    (∃ n cause, fault = .atLine n cause ∧
      Blames ((Text.lines text.toList).zipIdx 1) n cause) ∨
    ∃ said, (Text.lines text.toList).mapM Line.read = .ok said ∧ (Lacks start? said fault ∨
      ∃ terminals start, Faultless text said terminals ∧
        start?.or (startOf? said) = some start) := by
  have hcites : ({} : Outline).Cites [] := by
    refine ⟨fun heading d hd => ?_, fun rule hrule => ?_⟩
    · cases hd
    · cases hrule
  rw [read, bind_eq_error] at h
  rcases h with h | ⟨o, ho, h⟩
  · exact .inl (by simpa using Outline.blames_of_readLines hcites (by simp) h)
  · obtain ⟨said, hread, hnodup, houtline⟩ := Outline.of_ofText ho
    have hcites' : o.Cites ((Text.lines text.toList).zipIdx 1) := by
      simpa using hcites.readLines ho
    rcases of_grammar_eq_error (List.zipIdx_map_fst _ _) hread hnodup houtline hcites' h with
      hblames | hrest
    · exact .inl hblames
    · exact .inr ⟨said, hread, hrest⟩

/-- A text is read as a well-formed grammar, and then its lines are all right, or it is refused
because it is no listing of a grammar. If its lines are all right and it decides on a start symbol,
what they spell is refused exactly if the epsilon marker is declared, or the start symbol is no
nonterminal, or a name is declared twice, and for no fault of a rule. Every other fault is one of
the line whose number is reported, or a declaration that is lacking. -/
theorem read_verdict (text : String) (start? : Option Name) :
    ((∃ g, read text start? = .ok g ∧ g.WellFormed ∧
        ∃ said terminals, Faultless text said terminals) ∨
      ∃ fault, read text start? = .error fault ∧ fault.kind = .grammar) ∧
    (∀ said terminals start, Faultless text said terminals →
      start?.or (startOf? said) = some start → ∃ s : Spelling,
        (Outline.ofText text >>= Outline.spelling) = .ok s ∧ read text start? = s.grammar start ∧
        ((∃ fault, s.grammar start = .error fault) ↔
          epsilonMarker ∈ nonterminalsOf said ∨ epsilonMarker ∈ terminals ∨
            start ∉ nonterminalsOf said ∨ ∃ A ∈ nonterminalsOf said, A ∈ terminals) ∧
        ∀ fault, s.grammar start = .error fault → fault = .markerDeclared epsilonMarker ∨
          fault = .startUndeclared start ∨ ∃ names, fault = .sharedNames names) ∧
    ∀ fault, read text start? = .error fault →
      (∃ n cause, fault = .atLine n cause ∧
        Blames ((Text.lines text.toList).zipIdx 1) n cause) ∨
      ∃ said, (Text.lines text.toList).mapM Line.read = .ok said ∧ (Lacks start? said fault ∨
        ∃ terminals start, Faultless text said terminals ∧
          start?.or (startOf? said) = some start) := by
  refine ⟨?_, fun said terminals start h hstart => h.exists_spelling hstart,
    fun fault => of_read_eq_error⟩
  cases h : read text start? with
  | ok g => exact .inl ⟨g, rfl, wellFormed_of_read h, exists_faultless_of_read h⟩
  | error fault => exact .inr ⟨fault, rfl, vetted_read fault h⟩

/-- A listing of the rules `S → aA | ε` and `A → S`, which are spread over three lines. -/
def scattered : String :=
  "terminals: a\nS -> aA | ε\n# none\nA → ∅\nA -> S\n"

/-- What the lines of that listing say. -/
def scatteredLines : List Line :=
  [.declaration .terminals ["a"], .rule "S" ["aA", "ε"], .blank, .rule "A" [], .rule "A" ["S"]]

theorem faultless_scattered : Faultless scattered scatteredLines ["a"] := by
  refine Faultless.of_sides rfl ?_ rfl ?_
  · exact List.nodup_cons.2 ⟨List.not_mem_nil, .nil⟩
  · decide +kernel

/-- The scattered rules are read with their first left side as the start symbol and refused with the
terminal; a rule with a name that is not declared is refused with the number of its line. -/
theorem read_verdict_scattered : Faultless scattered scatteredLines ["a"] ∧
    startOf? scatteredLines = some "S" ∧ (∃ g, read scattered none = .ok g ∧ g.WellFormed) ∧
    (∃ fault, read scattered (some "a") = .error fault ∧ ∀ n cause, fault ≠ .atLine n cause) ∧
    read "terminals: a\nS -> aB" none = .error (.atLine 2 (.undeclaredName "B" "aB")) ∧
    Blames ((Text.lines "terminals: a\nS -> aB".toList).zipIdx 1) 2
      (.undeclaredName "B" "aB") := by
  have hstray : read "terminals: a\nS -> aB" none =
      .error (.atLine 2 (.undeclaredName "B" "aB")) := rfl
  obtain ⟨hread, hfirst, -⟩ := read_verdict scattered none
  obtain ⟨-, hgiven, -⟩ := read_verdict scattered (some "a")
  obtain ⟨-, hright, hblames⟩ := read_verdict "terminals: a\nS -> aB" none
  refine ⟨faultless_scattered, rfl, ?_, ?_, hstray, ?_⟩
  · obtain ⟨s, -, heq, hiff, -⟩ := hfirst _ _ "S" faultless_scattered rfl
    have hnone : ¬∃ fault, s.grammar "S" = .error fault := by
      rw [hiff]
      decide
    rcases hread with ⟨g, hg, hwell, -⟩ | ⟨fault, hfault, -⟩
    · exact ⟨g, hg, hwell⟩
    · exact absurd ⟨fault, heq ▸ hfault⟩ hnone
  · obtain ⟨s, -, heq, hiff, hcauses⟩ := hgiven _ _ "a" faultless_scattered rfl
    obtain ⟨fault, hfault⟩ := hiff.2 (by decide)
    refine ⟨fault, heq.trans hfault, fun n cause hline => ?_⟩
    rcases hcauses fault hfault with hcause | hcause | ⟨names, hcause⟩ <;>
      cases hline.symm.trans hcause
  · rcases hblames _ hstray with ⟨n, cause, heq, h⟩ | ⟨said, -, h | h⟩
    · cases heq
      exact h
    · cases h
    · obtain ⟨terminals, start, hfaultless, hstart⟩ := h
      obtain ⟨s, -, heq, -, hcauses⟩ := hright _ _ _ hfaultless hstart
      rcases hcauses _ (heq.symm.trans hstray) with hcause | hcause | ⟨names, hcause⟩ <;>
        cases hcause

end Listing

end ContextFree
