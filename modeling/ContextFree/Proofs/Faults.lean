import ContextFree.Listing.Reader
import ContextFree.Proofs.Spelling

/-! # Why grammars and listings are refused

A grammar that cannot be built is refused because its values do not make up a grammar. This
holds of the parts as they are handed in, as long as no plain text stands among the symbols of
a right side, and so of everything that is read from a text.
-/

namespace ContextFree

variable {α β : Type}

/-- The computation fails for no other reason than that values do not make up a grammar. -/
def Vetted (x : Except Fault α) : Prop :=
  ∀ fault, x = .error fault → fault.kind = .grammar

namespace Vetted

theorem ok {value : α} : Vetted (.ok value) := by
  rintro fault ⟨⟩

theorem error {fault : Fault} (h : fault.kind = .grammar) :
    Vetted (.error fault : Except Fault α) := by
  rintro _ ⟨⟩
  exact h

theorem bind {x : Except Fault α} {f : α → Except Fault β} (hx : Vetted x)
    (hf : ∀ a, x = .ok a → Vetted (f a)) : Vetted (x >>= f) := by
  cases x with
  | error fault =>
    rintro _ ⟨⟩
    exact hx fault rfl
  | ok a => exact hf a rfl

theorem mapM {f : α → Except Fault β} {xs : List α} (hf : ∀ x ∈ xs, Vetted (f x)) :
    Vetted (xs.mapM f) := by
  induction xs with
  | nil => exact ok
  | cons x xs ih =>
    rw [List.mapM_cons]
    refine (hf x List.mem_cons_self).bind fun _ _ => ?_
    exact (ih fun y hy => hf y (List.mem_cons_of_mem _ hy)).bind fun _ _ => ok

theorem forM {f : α → Except Fault Unit} {xs : List α} (hf : ∀ x ∈ xs, Vetted (f x)) :
    Vetted (xs.forM f) := by
  induction xs with
  | nil => exact ok
  | cons x xs ih =>
    rw [List.forM_eq_forM, List.forM_cons]
    exact (hf x List.mem_cons_self).bind fun _ _ => ih fun y hy => hf y (List.mem_cons_of_mem _ hy)

/-- A fold fails for no other reason if its steps keep an invariant under which they do not. -/
theorem foldlM {f : β → α → Except Fault β} {xs : List α} {init : β} (Inv : β → Prop)
    (hinit : Inv init) (hf : ∀ b, ∀ x ∈ xs, Inv b → Vetted (f b x))
    (hkeep : ∀ b, ∀ x ∈ xs, Inv b → ∀ b', f b x = .ok b' → Inv b') : Vetted (xs.foldlM f init) := by
  induction xs generalizing init with
  | nil => exact ok
  | cons x xs ih =>
    rw [List.foldlM_cons]
    refine (hf init x List.mem_cons_self hinit).bind fun b hb => ?_
    exact ih (hkeep init x List.mem_cons_self hinit b hb)
      (fun b' y hy => hf b' y (List.mem_cons_of_mem _ hy))
      (fun b' y hy => hkeep b' y (List.mem_cons_of_mem _ hy))

end Vetted

namespace Grammar

variable {g : Grammar}

/-- A right side without plain text is refused only because of a symbol that is not known. -/
theorem vetted_resolveRight {A : Name} {right : List RawSymbol}
    (htext : ∀ x ∈ right, x.isText = false) : Vetted (g.resolveRight (.nonterminal A) right) := by
  have hrule : RawRule.ofSides (.tagged (.nonterminal A)) right = .ok ⟨A, right⟩ := by
    have hnone : right.any RawSymbol.isText = false := by simpa using htext
    simp [RawRule.ofSides, hnone]
  refine Vetted.mapM fun x _ => ?_
  rw [resolveIn]
  cases g.resolve x with
  | some X => exact Vetted.ok
  | none =>
    rw [hrule]
    exact Vetted.error rfl

theorem vetted_addRights (hheads : ∀ X ∈ g.productions, X.isTerminal = false) {left : RawSymbol}
    {rights : List (List RawSymbol)} (htext : ∀ right ∈ rights, ∀ x ∈ right, x.isText = false) :
    Vetted (g.addRights left rights) := by
  rw [addRights]
  cases hleft : g.resolveLeft left with
  | none => exact Vetted.error rfl
  | some X =>
    obtain ⟨-, hX⟩ := resolveLeft_eq_some.1 hleft
    cases X with
    | terminal a => cases hheads _ hX
    | nonterminal A =>
      refine (Vetted.mapM fun right hright => ?_).bind fun _ _ => Vetted.ok
      exact vetted_resolveRight (htext right hright)

theorem isText_handedIn {productions : List (Name × List RightSide)} :
    ∀ p ∈ handedIn productions, ∀ right ∈ p.2, ∀ x ∈ right, x.isText = false := by
  intro p hp right hright x hx
  obtain ⟨⟨A, sides⟩, -, rfl⟩ := List.mem_map.1 hp
  obtain ⟨side, -, rfl⟩ := List.mem_map.1 hright
  obtain ⟨X, -, rfl⟩ := List.mem_map.1 hx
  rfl

end Grammar

/-- Parts without plain text in right sides are refused only because they do not make up a
grammar. -/
theorem Draft.vetted_grammar {d : Draft}
    (htext : ∀ p ∈ d.productions, ∀ right ∈ p.2, ∀ x ∈ right, x.isText = false) :
    Vetted d.grammar := by
  have hnonterminals : Vetted (nonterminalNames d.nonterminals) := Vetted.mapM fun x _ => by
    cases x.nonterminal? with
    | none => exact Vetted.error rfl
    | some A => exact Vetted.ok
  have hterminals : Vetted (terminalNames d.terminals) := Vetted.mapM fun x _ => by
    cases x.terminal? with
    | none => exact Vetted.error rfl
    | some a => exact Vetted.ok
  rw [Draft.grammar]
  refine hnonterminals.bind fun names _ => hterminals.bind fun names' _ => ?_
  dsimp only
  split
  · split
    · exact Vetted.error rfl
    · -- The heads stay the listed nonterminals, whatever right sides they are given.
      refine Vetted.foldlM (fun g => ∀ X ∈ g.productions, X.isTerminal = false) ?_ ?_ ?_
      · intro X hX
        obtain ⟨A, -, rfl⟩ : ∃ A ∈ names, Symbol.nonterminal A = X := by
          simpa [Std.ExtTreeMap.mem_ofList] using hX
        rfl
      · exact fun g p hp hheads => Grammar.vetted_addRights hheads (htext p hp)
      · rintro g p - hheads g' hg'
        obtain ⟨X, hX, sides, -, -, -, rfl⟩ := Grammar.addRights_eq_ok.1 hg'
        exact Grammar.heads_join hX hheads
  · exact Vetted.error rfl

theorem vetted_splitRightSide {text marker : String} {isName : Name → Bool} :
    Vetted (splitRightSide text marker isName) := by
  rw [splitRightSide]
  split
  · exact Vetted.error rfl
  · split
    · exact Vetted.ok
    · split
      · exact Vetted.ok
      · split <;> exact Vetted.ok

namespace Spelling

variable {v : Vocabulary} {marker rule text : String} {left name : Name}

theorem vetted_symbol : Vetted (symbol v marker rule name) := by
  rw [symbol]
  split
  · exact Vetted.ok
  · split
    · exact Vetted.ok
    · split <;> exact Vetted.error rfl

theorem vetted_right : Vetted (right v marker left text) := by
  rw [right]
  split
  · exact Vetted.error rfl
  · exact vetted_splitRightSide.bind fun _ _ => Vetted.mapM fun _ _ => vetted_symbol

theorem vetted_production {p : Name × List String} : Vetted (production v marker p) := by
  obtain ⟨left, texts⟩ := p
  rw [production]
  split
  · exact (Vetted.mapM fun _ _ => vetted_right).bind fun _ _ => Vetted.ok
  · exact Vetted.error rfl

theorem vetted_readProductions {s : Spelling} : Vetted s.readProductions := by
  rw [readProductions]
  dsimp only
  split
  · exact Vetted.error rfl
  · exact Vetted.mapM fun _ _ => vetted_production

theorem vetted_grammar {s : Spelling} {start : Name} : Vetted (s.grammar start) := by
  rw [Spelling.grammar]
  refine vetted_readProductions.bind fun productions hread => ?_
  split
  · obtain ⟨-, rfl⟩ := readProductions_eq_ok.1 hread
    exact Draft.vetted_grammar Grammar.isText_handedIn
  · exact Vetted.error rfl

end Spelling

namespace Listing

namespace Outline

variable {o : Outline}

theorem vetted_readLines {number : Nat} {lines : List (List Char)} :
    Vetted (o.readLines number lines) := by
  induction lines generalizing o number with
  | nil => exact Vetted.ok
  | cons line lines ih =>
    refine Vetted.bind ?_ fun _ _ => ih
    rw [readLine]
    split
    · exact Vetted.ok
    · exact Vetted.error rfl

theorem vetted_start : Vetted o.start := by
  rw [Outline.start]
  split
  · exact Vetted.ok
  · exact Vetted.error rfl
  · exact Vetted.ok
  · exact Vetted.error rfl

theorem vetted_checkRule {v : Spelling.Vocabulary} {rule : RuleLine} :
    Vetted (checkRule v rule) := by
  rw [checkRule]
  split
  · refine Vetted.forM fun alternative _ => ?_
    refine vetted_splitRightSide.bind fun names _ => ?_
    split
    · exact Vetted.error rfl
    · exact Vetted.ok
  · exact Vetted.error rfl

theorem vetted_spelling : Vetted o.spelling := by
  rw [Outline.spelling]
  split
  · exact Vetted.error rfl
  · exact Vetted.ok

theorem vetted_grammar {start? : Option Name} : Vetted (o.grammar start?) := by
  refine vetted_spelling.bind fun spelling _ => Vetted.bind ?_ fun start _ => ?_
  · cases start? with
    | none => exact vetted_start
    | some start => exact Vetted.ok
  · exact (Vetted.forM fun _ _ => vetted_checkRule).bind fun _ _ => Spelling.vetted_grammar

theorem vetted_check : Vetted o.check := by
  refine vetted_spelling.bind fun spelling _ => ?_
  refine (Vetted.forM fun _ _ => vetted_checkRule).bind fun _ _ => ?_
  exact Spelling.vetted_readProductions.bind fun _ _ => Vetted.ok

end Outline

theorem vetted_read {text : String} {start? : Option Name} : Vetted (Listing.read text start?) :=
  Outline.vetted_readLines.bind fun _ _ => Outline.vetted_grammar

theorem vetted_check {text : String} : Vetted (Listing.check text) :=
  Outline.vetted_readLines.bind fun _ _ => Outline.vetted_check

end Listing

end ContextFree
