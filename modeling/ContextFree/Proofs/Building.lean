import ContextFree.Grammar.Draft
import ContextFree.Proofs.Shape

/-! # Grammars that were built from their parts

A draft is a grammar exactly if it lists symbols of the right kinds that fit together. Such a
grammar is well-formed, and its heads and right sides are those that the draft lists.
-/

namespace ContextFree

namespace Grammar

variable {g g' : Grammar} {X Y : Symbol}

theorem resolve_eq_some {x : RawSymbol} :
    g.resolve x = some Y ↔ x = .tagged Y ∧ g.has Y = true := by
  cases x <;> simp [resolve, RawSymbol.symbol?, Option.filter_eq_some_iff]

theorem resolveIn_eq_ok {right : List RawSymbol} {x : RawSymbol} :
    g.resolveIn X right x = .ok Y ↔ x = .tagged Y ∧ g.has Y = true := by
  rw [← resolve_eq_some, resolveIn]
  cases g.resolve x with
  | some Z => simp
  | none => cases RawRule.ofSides (.tagged X) right <;> simp [bind, Except.bind, throw, throwThe,
      MonadExceptOf.throw]

theorem resolveRight_eq_ok {right : List RawSymbol} {side : RightSide} :
    g.resolveRight X right = .ok side ↔
      right = side.map .tagged ∧ ∀ Y ∈ side, g.has Y = true :=
  mapM_eq_ok_iff fun _ _ => resolveIn_eq_ok

theorem resolveLeft_eq_some {x : RawSymbol} :
    g.resolveLeft x = some X ↔ x = .tagged X ∧ X ∈ g.productions := by
  cases x <;> simp [resolveLeft, RawSymbol.symbol?, Option.filter_eq_some_iff]

/-- The grammar in which a head has further right sides. -/
def join (g : Grammar) (X : Symbol) (sides : List RightSide) : Grammar :=
  { g with productions := g.productions.insert X ((g.rightsOf X).insertMany sides) }

/-- Right sides of known symbols can be added to any head, and nothing else can. -/
theorem addRights_eq_ok {left : RawSymbol} {rights : List (List RawSymbol)} :
    g.addRights left rights = .ok g' ↔ ∃ X ∈ g.productions, ∃ sides : List RightSide,
      left = .tagged X ∧ rights = sides.map (·.map .tagged) ∧
        (∀ side ∈ sides, ∀ Y ∈ side, g.has Y = true) ∧ g' = g.join X sides := by
  rw [addRights]
  cases hleft : g.resolveLeft left with
  | none =>
    simp only [reduceCtorEq, false_iff, not_exists, not_and]
    rintro X hX sides rfl - -
    rw [resolveLeft_eq_some.2 ⟨rfl, hX⟩] at hleft
    cases hleft
  | some X =>
    obtain ⟨rfl, hX⟩ := resolveLeft_eq_some.1 hleft
    simp only [bind_eq_ok, mapM_eq_ok_iff fun _ _ => resolveRight_eq_ok]
    constructor
    · rintro ⟨sides, ⟨rfl, hknown⟩, heq⟩
      cases heq
      exact ⟨X, hX, sides, rfl, rfl, hknown, rfl⟩
    · rintro ⟨X', hX', sides, heq, rfl, hknown, rfl⟩
      cases heq
      exact ⟨sides, ⟨rfl, hknown⟩, rfl⟩

theorem has_join {sides : List RightSide} (hX : X ∈ g.productions) :
    (g.join X sides).has Y = g.has Y :=
  has_insert hX

theorem mem_productions_join {sides : List RightSide} (hX : X ∈ g.productions) :
    Y ∈ (g.join X sides).productions ↔ Y ∈ g.productions := by
  rw [join, Std.ExtTreeMap.mem_insert, Std.LawfulEqOrd.compare_eq_iff_eq]
  exact or_iff_right_of_imp fun heq => heq ▸ hX

theorem heads_join {sides : List RightSide} (hX : X ∈ g.productions)
    (hheads : ∀ Y ∈ g.productions, Y.isTerminal = false) :
    ∀ Y ∈ (g.join X sides).productions, Y.isTerminal = false :=
  fun Y hY => hheads Y ((mem_productions_join hX).1 hY)

theorem mem_rightsOf_join {sides : List RightSide} {right : RightSide} :
    right ∈ (g.join X sides).rightsOf Y ↔ right ∈ g.rightsOf Y ∨ Y = X ∧ right ∈ sides := by
  by_cases hY : Y = X
  · subst hY
    have hentry : (g.join Y sides).productions[Y]? = some ((g.rightsOf Y).insertMany sides) :=
      Std.ExtTreeMap.getElem?_insert_self
    rw [rightsOf_eq hentry, Std.ExtTreeSet.mem_insertMany_list]
    simp
  · have hentry : (g.join X sides).productions[Y]? = g.productions[Y]? := by
      rw [join, Std.ExtTreeMap.getElem?_insert, if_neg]
      exact fun heq => hY (Std.LawfulEqOrd.eq_of_compare heq).symm
    simp [mem_rightsOf, hentry, hY]

/-- The grammar in which heads have further right sides. -/
def joinAll (g : Grammar) (productions : List (Name × List RightSide)) : Grammar :=
  productions.foldl (fun g (A, sides) => g.join (.nonterminal A) sides) g

section JoinAll

variable {productions : List (Name × List RightSide)}

theorem joinAll_cons {A : Name} {sides : List RightSide} :
    g.joinAll ((A, sides) :: productions) = (g.join (.nonterminal A) sides).joinAll productions :=
  rfl

theorem start_joinAll : (g.joinAll productions).start = g.start := by
  induction productions generalizing g with
  | nil => rfl
  | cons p productions ih => exact ih

theorem terminals_joinAll : (g.joinAll productions).terminals = g.terminals := by
  induction productions generalizing g with
  | nil => rfl
  | cons p productions ih => exact ih

theorem mem_productions_joinAll
    (hleft : ∀ A sides, (A, sides) ∈ productions → .nonterminal A ∈ g.productions) :
    X ∈ (g.joinAll productions).productions ↔ X ∈ g.productions := by
  induction productions generalizing g with
  | nil => rfl
  | cons p productions ih =>
    obtain ⟨A, sides⟩ := p
    have hA := hleft A sides List.mem_cons_self
    rw [joinAll_cons, ih, mem_productions_join hA]
    intro B sides' hB
    exact (mem_productions_join hA).2 (hleft B sides' (List.mem_cons_of_mem _ hB))

theorem mem_rightsOf_joinAll {right : RightSide} :
    right ∈ (g.joinAll productions).rightsOf X ↔ right ∈ g.rightsOf X ∨
      ∃ A sides, (A, sides) ∈ productions ∧ X = .nonterminal A ∧ right ∈ sides := by
  induction productions generalizing g with
  | nil => simp [joinAll]
  | cons p productions ih =>
    obtain ⟨B, sides⟩ := p
    rw [joinAll_cons, ih, mem_rightsOf_join, or_assoc]
    refine or_congr_right ⟨?_, ?_⟩
    · rintro (⟨rfl, hright⟩ | ⟨A, sides', hA, rfl, hright⟩)
      · exact ⟨B, sides, List.mem_cons_self, rfl, hright⟩
      · exact ⟨A, sides', List.mem_cons_of_mem _ hA, rfl, hright⟩
    · rintro ⟨A, sides', hA, rfl, hright⟩
      rcases List.mem_cons.1 hA with heq | hA
      · cases heq
        exact .inl ⟨rfl, hright⟩
      · exact .inr ⟨A, sides', hA, rfl, hright⟩

end JoinAll

/-- Productions with their left sides as they are handed in. -/
def handedIn (productions : List (Name × List RightSide)) :
    List (RawSymbol × List (List RawSymbol)) :=
  productions.map fun (A, sides) =>
    (.tagged (.nonterminal A), sides.map fun side => side.map .tagged)

/-- The left sides are heads of the grammar, and the right sides consist of its symbols. -/
def Takes (g : Grammar) (productions : List (Name × List RightSide)) : Prop :=
  ∀ A sides, (A, sides) ∈ productions → .nonterminal A ∈ g.productions ∧
    ∀ side ∈ sides, ∀ Y ∈ side, g.has Y = true

section Takes

variable {productions : List (Name × List RightSide)} {A : Name} {sides : List RightSide}

theorem takes_cons : g.Takes ((A, sides) :: productions) ↔
    (.nonterminal A ∈ g.productions ∧ ∀ side ∈ sides, ∀ Y ∈ side, g.has Y = true) ∧
      g.Takes productions := by
  constructor
  · exact fun h => ⟨h A sides List.mem_cons_self,
      fun B sides' hB => h B sides' (List.mem_cons_of_mem _ hB)⟩
  · rintro ⟨hfirst, hrest⟩ B sides' hB
    rcases List.mem_cons.1 hB with heq | hB
    · cases heq
      exact hfirst
    · exact hrest B sides' hB

/-- Right sides for one head leave the heads and the symbols as they are. -/
theorem takes_join (hX : X ∈ g.productions) :
    (g.join X sides).Takes productions ↔ g.Takes productions := by
  simp only [Takes, mem_productions_join hX, has_join hX]

end Takes

/-- Productions are added exactly if their left sides are heads and their right sides consist of
known symbols. -/
theorem foldlM_addRights_eq_ok (hheads : ∀ X ∈ g.productions, X.isTerminal = false)
    {values : List (RawSymbol × List (List RawSymbol))} :
    values.foldlM (fun g (left, rights) => g.addRights left rights) g = .ok g' ↔
      ∃ productions, values = handedIn productions ∧ g.Takes productions ∧
        g' = g.joinAll productions := by
  induction values generalizing g with
  | nil =>
    rw [List.foldlM_nil]
    constructor
    · intro heq
      cases heq
      exact ⟨[], rfl, by simp [Takes], rfl⟩
    · rintro ⟨productions, hvalues, -, rfl⟩
      cases productions with
      | nil => rfl
      | cons p productions => cases hvalues
  | cons value values ih =>
    obtain ⟨left, rights⟩ := value
    rw [List.foldlM_cons, bind_eq_ok]
    constructor
    · rintro ⟨next, hnext, hrest⟩
      obtain ⟨X, hX, sides, rfl, rfl, hknown, rfl⟩ := addRights_eq_ok.1 hnext
      obtain ⟨productions, rfl, htakes, rfl⟩ := (ih (heads_join hX hheads)).1 hrest
      have hname := Symbol.eq_nonterminal (hheads X hX)
      generalize X.name = A at hname
      subst hname
      exact ⟨(A, sides) :: productions, rfl,
        takes_cons.2 ⟨⟨hX, hknown⟩, (takes_join hX).1 htakes⟩, rfl⟩
    · rintro ⟨productions, hvalues, htakes, rfl⟩
      cases productions with
      | nil => cases hvalues
      | cons p productions =>
        obtain ⟨A, sides⟩ := p
        obtain ⟨hvalue, rfl⟩ := List.cons.inj hvalues
        cases hvalue
        obtain ⟨⟨hA, hknown⟩, htakes⟩ := takes_cons.1 htakes
        exact ⟨g.join (.nonterminal A) sides,
          addRights_eq_ok.2 ⟨_, hA, sides, rfl, rfl, hknown, rfl⟩,
          (ih (heads_join hA hheads)).2 ⟨productions, rfl, (takes_join hA).2 htakes, rfl⟩⟩

end Grammar

/-- The parts of a grammar: names, and right sides with their left sides. -/
structure Parts where
  nonterminals : List Name
  terminals : List Name
  start : Name
  productions : List (Name × List RightSide)

namespace Parts

/-- The parts as they are handed in. -/
def draft (p : Parts) : Draft where
  nonterminals := p.nonterminals.map fun A => .tagged (.nonterminal A)
  terminals := p.terminals.map fun a => .tagged (.terminal a)
  start := .tagged (.nonterminal p.start)
  productions := Grammar.handedIn p.productions

theorem draft_injective {p q : Parts} (h : p.draft = q.draft) : p = q := by
  have hname (f : Name → Symbol) (hf : ∀ A B, f A = f B → A = B) (xs ys : List Name)
      (heq : (xs.map fun A => RawSymbol.tagged (f A)) = ys.map fun A => RawSymbol.tagged (f A)) :
      xs = ys :=
    (List.map_inj_right fun A B hAB => hf A B (RawSymbol.tagged.inj hAB)).1 heq
  have hside (xs ys : RightSide) (heq : xs.map RawSymbol.tagged = ys.map RawSymbol.tagged) :
      xs = ys := (List.map_inj_right fun _ _ => RawSymbol.tagged.inj).1 heq
  obtain ⟨nonterminals, terminals, start, productions⟩ := p
  obtain ⟨nonterminals', terminals', start', productions'⟩ := q
  simp only [draft, Draft.mk.injEq, RawSymbol.tagged.injEq, Symbol.nonterminal.injEq] at h
  obtain ⟨hnonterminals, hterminals, rfl, hproductions⟩ := h
  rw [hname .nonterminal (fun _ _ => Symbol.nonterminal.inj) _ _ hnonterminals,
    hname .terminal (fun _ _ => Symbol.terminal.inj) _ _ hterminals,
    (List.map_inj_right ?_).1 hproductions]
  rintro ⟨A, sides⟩ ⟨B, sides'⟩ heq
  simp only [Prod.mk.injEq, RawSymbol.tagged.injEq, Symbol.nonterminal.injEq] at heq
  rw [heq.1, (List.map_inj_right hside).1 heq.2]

/-- The grammar that has the symbols, but no right sides. -/
def bare (p : Parts) : Grammar where
  start := p.start
  terminals := .of p.terminals
  productions := .ofList (p.nonterminals.map fun A => (Symbol.nonterminal A, ∅))

/-- The grammar that consists of the parts. -/
def grammar (p : Parts) : Grammar :=
  p.bare.joinAll p.productions

/-- The parts fit together. -/
structure Fit (p : Parts) : Prop where
  start_mem : p.start ∈ p.nonterminals
  disjoint : ∀ A ∈ p.nonterminals, A ∉ p.terminals
  left_mem : ∀ A sides, (A, sides) ∈ p.productions → A ∈ p.nonterminals
  known : ∀ A sides, (A, sides) ∈ p.productions → ∀ side ∈ sides, ∀ Y ∈ side, p.bare.has Y = true

variable {p : Parts} {X : Symbol}

theorem mem_productions_bare :
    X ∈ p.bare.productions ↔ ∃ A ∈ p.nonterminals, X = .nonterminal A := by
  rw [bare, Std.ExtTreeMap.mem_ofList]
  simp [eq_comm]

theorem notMem_rightsOf_bare {right : RightSide} : right ∉ p.bare.rightsOf X := by
  rw [Grammar.mem_rightsOf]
  rintro ⟨rights, hentry, hright⟩
  obtain ⟨A, hA, rfl⟩ := mem_productions_bare.1
    (show X ∈ p.bare.productions by simp [Std.ExtTreeMap.mem_iff_isSome_getElem?, hentry])
  have hempty : p.bare.productions[Symbol.nonterminal A]? = some ∅ := by
    rw [bare, Std.ExtTreeMap.ofList_eq_insertMany_empty]
    refine getElem?_insertMany_of_mem (List.mem_map.2 ⟨A, hA, rfl⟩) fun v hv => ?_
    obtain ⟨B, -, heq⟩ := List.mem_map.1 hv
    exact (Prod.mk.inj heq).2.symm
  rw [hempty] at hentry
  cases hentry
  exact Std.ExtTreeSet.not_mem_empty hright

theorem has_bare_nonterminal {A : Name} :
    p.bare.has (.nonterminal A) = true ↔ A ∈ p.nonterminals := by
  rw [Grammar.has, Std.ExtTreeMap.contains_iff_mem, mem_productions_bare]
  simp

theorem has_bare_terminal {a : Name} : p.bare.has (.terminal a) = true ↔ a ∈ p.terminals := by
  rw [Grammar.has, Bool.or_eq_true, Std.ExtTreeMap.contains_iff_mem, mem_productions_bare]
  simp [bare, NameSet.of]

/-- Parts fit together if their rules consist of listed symbols. -/
theorem fit_of_listed (hstart : p.start ∈ p.nonterminals)
    (hdisjoint : ∀ A ∈ p.nonterminals, A ∉ p.terminals)
    (hlisted : ∀ rule ∈ p.productions, rule.1 ∈ p.nonterminals ∧ ∀ side ∈ rule.2, ∀ Y ∈ side,
      Y ∈ p.nonterminals.map .nonterminal ++ p.terminals.map .terminal) : p.Fit where
  start_mem := hstart
  disjoint := hdisjoint
  left_mem A sides hA := (hlisted _ hA).1
  known A sides hA side hside Y hY := by
    rcases List.mem_append.1 ((hlisted _ hA).2 side hside Y hY) with hmem | hmem
    · obtain ⟨B, hB, rfl⟩ := List.mem_map.1 hmem
      exact has_bare_nonterminal.2 hB
    · obtain ⟨b, hb, rfl⟩ := List.mem_map.1 hmem
      exact has_bare_terminal.2 hb

theorem heads_bare : ∀ X ∈ p.bare.productions, X.isTerminal = false := by
  intro X hX
  obtain ⟨A, -, rfl⟩ := mem_productions_bare.1 hX
  rfl

/-- Parts fit together if their names do and the symbols alone take their right sides. -/
theorem fit_iff_takes : p.Fit ↔ p.start ∈ p.nonterminals ∧
    (∀ A ∈ p.nonterminals, A ∉ p.terminals) ∧ p.bare.Takes p.productions := by
  have hhead (A : Name) : .nonterminal A ∈ p.bare.productions ↔ A ∈ p.nonterminals := by
    simp [mem_productions_bare]
  constructor
  · intro h
    exact ⟨h.start_mem, h.disjoint, fun A sides hA =>
      ⟨(hhead A).2 (h.left_mem A sides hA), h.known A sides hA⟩⟩
  · rintro ⟨hstart, hdisjoint, htakes⟩
    exact ⟨hstart, hdisjoint, fun A sides hA => (hhead A).1 (htakes A sides hA).1,
      fun A sides hA => (htakes A sides hA).2⟩

theorem start_grammar : p.grammar.start = p.start :=
  Grammar.start_joinAll

theorem terminals_grammar : p.grammar.terminals = .of p.terminals :=
  Grammar.terminals_joinAll

variable (h : p.Fit)
include h

theorem Fit.mem_productions :
    X ∈ p.grammar.productions ↔ ∃ A ∈ p.nonterminals, X = .nonterminal A := by
  rw [grammar, Grammar.mem_productions_joinAll, mem_productions_bare]
  exact fun A sides hA => mem_productions_bare.2 ⟨A, h.left_mem A sides hA, rfl⟩

theorem Fit.nonterminal_mem_productions {A : Name} :
    .nonterminal A ∈ p.grammar.productions ↔ A ∈ p.nonterminals := by
  rw [h.mem_productions]
  simp

omit h in
theorem mem_rightsOf_grammar {right : RightSide} : right ∈ p.grammar.rightsOf X ↔
    ∃ A sides, (A, sides) ∈ p.productions ∧ X = .nonterminal A ∧ right ∈ sides := by
  rw [grammar, Grammar.mem_rightsOf_joinAll, or_iff_right notMem_rightsOf_bare]

theorem Fit.has_grammar {Y : Symbol} : p.grammar.has Y = p.bare.has Y :=
  Grammar.has_congr Grammar.terminals_joinAll fun Z => by
    rw [h.mem_productions, mem_productions_bare]

/-- A grammar that is put together from parts that fit is well-formed. -/
theorem Fit.wellFormed : p.grammar.WellFormed where
  start_mem := by
    rw [start_grammar]
    exact h.nonterminal_mem_productions.2 h.start_mem
  heads_nonterminal X hX := by
    obtain ⟨A, -, rfl⟩ := h.mem_productions.1 hX
    rfl
  disjoint A hA := by
    rw [terminals_grammar]
    simpa [NameSet.of] using h.disjoint A (h.nonterminal_mem_productions.1 hA)
  closed X right hright Y hY := by
    obtain ⟨A, sides, hA, -, hright⟩ := mem_rightsOf_grammar.1 hright
    rw [h.has_grammar]
    exact h.known A sides hA right hright Y hY

omit h

/-- The parts of the grammar `S → aSbS | ε`, whose words are balanced brackets. -/
def brackets : Parts where
  nonterminals := ["S"]
  terminals := ["a", "b"]
  start := "S"
  productions := [("S", [[], [.terminal "a", .nonterminal "S", .terminal "b", .nonterminal "S"]])]

theorem fit_brackets : brackets.Fit :=
  fit_of_listed (by decide) (by decide) (by decide)

theorem mem_rightsOf_brackets {right : RightSide} :
    right ∈ brackets.grammar.rightsOf (.nonterminal "S") ↔ right = [] ∨
      right = [.terminal "a", .nonterminal "S", .terminal "b", .nonterminal "S"] := by
  rw [mem_rightsOf_grammar]
  simp only [brackets, List.mem_singleton, Prod.mk.injEq, Symbol.nonterminal.injEq]
  constructor
  · rintro ⟨A, sides, ⟨-, rfl⟩, -, hright⟩
    simpa using hright
  · intro hright
    exact ⟨_, _, ⟨rfl, rfl⟩, rfl, by simpa using hright⟩

theorem brackets_generates_nil : brackets.grammar.Generates [] :=
  Grammar.derives_iff.2 ⟨[], mem_rightsOf_brackets.2 (.inl rfl), .nil⟩

theorem brackets_generates_pair : brackets.grammar.Generates ["a", "b"] := by
  have hnil : brackets.grammar.Yields [.nonterminal "S"] [] := brackets_generates_nil
  have hpair : brackets.grammar.Yields
      [.terminal "a", .nonterminal "S", .terminal "b", .nonterminal "S"] ["a", "b"] :=
    .terminal (.append (w := ["b"]) hnil (.terminal hnil))
  exact Grammar.derives_iff.2 ⟨_, mem_rightsOf_brackets.2 (.inr rfl), hpair⟩

end Parts

namespace Draft

theorem nonterminalNames_eq_ok {values : List RawSymbol} {names : List Name} :
    nonterminalNames values = .ok names ↔ values = names.map fun A => .tagged (.nonterminal A) := by
  have hvalue (x : RawSymbol) (A : Name) :
      (x.nonterminal?.elim (.error (.notNonterminal x)) .ok : Except Fault Name) = .ok A ↔
        x = .tagged (.nonterminal A) ∧ True := by
    match x with
    | .tagged (.nonterminal B) => simp [RawSymbol.nonterminal?]
    | .tagged (.terminal b) => simp [RawSymbol.nonterminal?]
    | .untagged _ => simp [RawSymbol.nonterminal?]
    | .text _ => simp [RawSymbol.nonterminal?]
  rw [nonterminalNames, mapM_eq_ok_iff hvalue]
  simp

theorem terminalNames_eq_ok {values : List RawSymbol} {names : List Name} :
    terminalNames values = .ok names ↔ values = names.map fun a => .tagged (.terminal a) := by
  have hvalue (x : RawSymbol) (a : Name) :
      (x.terminal?.elim (.error (.notTerminal x)) .ok : Except Fault Name) = .ok a ↔
        x = .tagged (.terminal a) ∧ True := by
    match x with
    | .tagged (.nonterminal B) => simp [RawSymbol.terminal?]
    | .tagged (.terminal b) => simp [RawSymbol.terminal?]
    | .untagged _ => simp [RawSymbol.terminal?]
    | .text _ => simp [RawSymbol.terminal?]
  rw [terminalNames, mapM_eq_ok_iff hvalue]
  simp

theorem isEmpty_shared {nonterminals terminals : List Name} :
    ((NameSet.of nonterminals).filter (NameSet.of terminals).contains).isEmpty = true ↔
      ∀ A ∈ nonterminals, A ∉ terminals := by
  rw [← Std.ExtTreeSet.isEmpty_toList, Std.ExtTreeSet.toList_filter, List.isEmpty_iff,
    List.filter_eq_nil_iff]
  simp [NameSet.of]

theorem filter_start_eq_some {x : RawSymbol} {nonterminals : List Name} {start : Name} :
    x.nonterminal?.filter nonterminals.contains = some start ↔
      x = .tagged (.nonterminal start) ∧ start ∈ nonterminals := by
  rw [Option.filter_eq_some_iff, List.contains_iff_mem]
  refine and_congr_left' ?_
  match x with
  | .tagged (.nonterminal B) => simp [RawSymbol.nonterminal?]
  | .tagged (.terminal b) => simp [RawSymbol.nonterminal?]
  | .untagged _ => simp [RawSymbol.nonterminal?]
  | .text _ => simp [RawSymbol.nonterminal?]

/-- A draft is a grammar exactly if it lists parts that fit together. -/
theorem grammar_eq_ok {d : Draft} {g : Grammar} :
    d.grammar = .ok g ↔ ∃ p : Parts, p.Fit ∧ d = p.draft ∧ g = p.grammar := by
  rw [Draft.grammar]
  simp only [bind_eq_ok, nonterminalNames_eq_ok, terminalNames_eq_ok]
  constructor
  · rintro ⟨nonterminals, hnonterminals, terminals, hterminals, hrest⟩
    split at hrest
    next hshared =>
      cases hstart : d.start.nonterminal?.filter nonterminals.contains with
      | none =>
        rw [hstart] at hrest
        cases hrest
      | some start =>
        rw [hstart] at hrest
        obtain ⟨hvalue, hmem⟩ := filter_start_eq_some.1 hstart
        -- The heads do not depend on the productions, which are read last.
        let listed : Parts := ⟨nonterminals, terminals, start, []⟩
        obtain ⟨productions, hproductions, htakes, rfl⟩ :=
          (Grammar.foldlM_addRights_eq_ok listed.heads_bare).1 hrest
        refine ⟨{ listed with productions },
          Parts.fit_iff_takes.2 ⟨hmem, isEmpty_shared.1 hshared, htakes⟩, ?_, rfl⟩
        cases d
        simp_all [Parts.draft, listed]
    next hshared => cases hrest
  · rintro ⟨p, hfit, rfl, rfl⟩
    obtain ⟨hmem, hdisjoint, htakes⟩ := Parts.fit_iff_takes.1 hfit
    refine ⟨p.nonterminals, rfl, p.terminals, rfl, ?_⟩
    have hstart : p.draft.start.nonterminal?.filter p.nonterminals.contains = some p.start :=
      filter_start_eq_some.2 ⟨rfl, hmem⟩
    rw [if_pos (isEmpty_shared.2 hdisjoint), hstart]
    exact (Grammar.foldlM_addRights_eq_ok p.heads_bare).2 ⟨p.productions, rfl, htakes, rfl⟩

/-- Parts make up a grammar exactly if they fit together. -/
theorem grammar_draft_eq_ok {p : Parts} {g : Grammar} :
    p.draft.grammar = .ok g ↔ p.Fit ∧ g = p.grammar := by
  rw [grammar_eq_ok]
  constructor
  · rintro ⟨q, hfit, hq, rfl⟩
    obtain rfl := Parts.draft_injective hq
    exact ⟨hfit, rfl⟩
  · rintro ⟨hfit, rfl⟩
    exact ⟨p, hfit, rfl, rfl⟩

theorem wellFormed_of_grammar {d : Draft} {g : Grammar} (h : d.grammar = .ok g) : g.WellFormed := by
  obtain ⟨p, hfit, -, rfl⟩ := grammar_eq_ok.1 h
  exact hfit.wellFormed

end Draft

end ContextFree
