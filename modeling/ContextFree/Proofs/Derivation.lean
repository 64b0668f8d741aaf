import ContextFree.Language

/-! # Derivations in rewritten grammars

When a grammar is rewritten, derivations are carried over rule by rule: it is enough that each
rule of one grammar can be made up for in the other. Derivations without epsilon rules
are those of the grammar from which these rules were taken out.
-/

namespace ContextFree

/-- The form in which every nonterminal is replaced by a form of its own. -/
def RightSide.expand (f : Name → RightSide) : RightSide → RightSide
  | [] => []
  | .terminal a :: form => .terminal a :: expand f form
  | .nonterminal A :: form => f A ++ expand f form

namespace RightSide

theorem expand_append (f : Name → RightSide) (form form' : RightSide) :
    expand f (form ++ form') = expand f form ++ expand f form' := by
  induction form with
  | nil => rfl
  | cons X form ih => cases X <;> simp [expand, ih]

theorem expand_eq_self {f : Name → RightSide} {form : RightSide}
    (hf : ∀ A, .nonterminal A ∈ form → f A = [.nonterminal A]) : expand f form = form := by
  induction form with
  | nil => rfl
  | cons X form ih =>
    have hform := ih fun A hA => hf A (List.mem_cons_of_mem _ hA)
    cases X with
    | terminal a => rw [expand, hform]
    | nonterminal A => rw [expand, hform, hf A List.mem_cons_self, List.singleton_append]

end RightSide

namespace Grammar

variable {g g' : Grammar} {form : RightSide} {w : Word}

theorem yields_map_terminal (w : Word) : g.Yields (w.map .terminal) w := by
  induction w with
  | nil => exact .nil
  | cons a w ih => exact .terminal ih

theorem mem_rightsOf_map {f : Symbol → RightSides → RightSides} {X : Symbol} {right : RightSide} :
    right ∈ rightsOf { g with productions := g.productions.map f } X ↔
      ∃ rights, g.productions[X]? = some rights ∧ right ∈ f X rights := by
  rw [mem_rightsOf]
  constructor
  · rintro ⟨rights, hentry, hright⟩
    rw [Std.ExtTreeMap.getElem?_map, Option.map_eq_some_iff] at hentry
    obtain ⟨old, hold, rfl⟩ := hentry
    exact ⟨old, hold, hright⟩
  · rintro ⟨rights, hentry, hright⟩
    exact ⟨f X rights, by rw [Std.ExtTreeMap.getElem?_map, hentry, Option.map_some], hright⟩

theorem mem_productions_of_mem_rightsOf {X : Symbol} {right : RightSide}
    (h : right ∈ g.rightsOf X) : X ∈ g.productions := by
  obtain ⟨rights, hentry, -⟩ := mem_rightsOf.1 h
  simp [Std.ExtTreeMap.mem_iff_isSome_getElem?, hentry]

theorem rightsOf_eq {X : Symbol} {rights : RightSides} (h : g.productions[X]? = some rights) :
    g.rightsOf X = rights := by
  rw [rightsOf, Std.ExtTreeMap.getD_eq_getD_getElem?, h, Option.getD_some]

theorem Reaches.trans {form' form'' : RightSide} (h : g.Reaches form form')
    (h' : g.Reaches form' form'') : g.Reaches form form'' := by
  induction h' with
  | refl => exact h
  | step _ hright ih => exact ih.step hright

theorem Reaches.context {form' : RightSide} (h : g.Reaches form form') (before after : RightSide) :
    g.Reaches (before ++ form ++ after) (before ++ form' ++ after) := by
  induction h with
  | refl => exact .refl
  | @step pre post right A _ hright ih =>
    have key : g.Reaches (before ++ form ++ after)
        ((before ++ pre) ++ .nonterminal A :: (post ++ after)) := by simpa using ih
    simpa using key.step hright

/-- The words that a form yields are those that are reached from it by replacing nonterminals. -/
theorem yields_iff_reaches : g.Yields form w ↔ g.Reaches form (w.map .terminal) := by
  constructor
  · intro h
    induction h with
    | nil => exact .refl
    | @terminal a form w _ ih => simpa using ih.context [.terminal a] []
    | @nonterminal A right form v w hright _ _ ihv ihw =>
      have hstep : g.Reaches (.nonterminal A :: form) (right ++ form) :=
        Reaches.step (show g.Reaches _ ([] ++ .nonterminal A :: form) from .refl) hright
      have hleft : g.Reaches (right ++ form) (v.map .terminal ++ form) := by
        simpa using ihv.context [] form
      have hrest : g.Reaches (v.map .terminal ++ form) ((v ++ w).map .terminal) := by
        simpa using ihw.context (v.map .terminal) []
      exact (hstep.trans hleft).trans hrest
  · intro h
    suffices key : ∀ {form'}, g.Reaches form form' → g.Yields form' w → g.Yields form w from
      key h (yields_map_terminal w)
    intro form' h
    induction h with
    | refl => exact id
    | step _ hright ih =>
      intro hw
      obtain ⟨u, v, rfl, hu, hv⟩ := hw.split
      obtain ⟨u', v', rfl, hu', hv'⟩ := hu.split
      exact ih (by simpa using hu'.append (.nonterminal hright hv' hv))

/-- A property that passes from all nonterminals of a right side to its left side holds of all
nonterminals of a form that yields a word. -/
theorem Yields.forall_nonterminal {P : Name → Prop} (h : g.Yields form w)
    (hstep : ∀ A, ∀ right ∈ g.rightsOf (.nonterminal A),
      (∀ B, .nonterminal B ∈ right → P B) → P A) : ∀ B, .nonterminal B ∈ form → P B := by
  induction h with
  | nil => exact fun B hB => nomatch hB
  | terminal _ ih => exact fun B hB => ih B ((List.mem_cons.1 hB).resolve_left (by simp))
  | @nonterminal A right form v w hright _ _ ihv ihw =>
    intro B hB
    rcases List.mem_cons.1 hB with heq | hB
    · cases heq
      exact hstep A right hright ihv
    · exact ihw B hB

/-- A property that passes from all symbols of a right side to its left side holds of all symbols
of a form that yields the empty string. -/
theorem Yields.forall_of_nil {P : Symbol → Prop} (h : g.Yields form [])
    (hstep : ∀ A, ∀ right ∈ g.rightsOf (.nonterminal A),
      (∀ Y ∈ right, P Y) → P (.nonterminal A)) : ∀ Y ∈ form, P Y := by
  generalize hw : ([] : Word) = w at h
  induction h with
  | nil => exact fun Y hY => nomatch hY
  | terminal => cases hw
  | @nonterminal A right form v w hright _ _ ihv ihw =>
    obtain ⟨rfl, rfl⟩ := List.append_eq_nil_iff.1 hw.symm
    exact List.forall_mem_cons.2 ⟨hstep A right hright (ihv rfl), ihw rfl⟩

/-- Derivations are carried over to a grammar in which the expansion of a left side yields
whatever the expansion of its right side does. -/
theorem Yields.expand {f : Name → RightSide}
    (hrule : ∀ A right v, right ∈ g.rightsOf (.nonterminal A) → g.Yields right v →
      g'.Yields (RightSide.expand f right) v → g'.Yields (f A) v)
    (h : g.Yields form w) : g'.Yields (RightSide.expand f form) w := by
  induction h with
  | nil => exact .nil
  | terminal _ ih => exact .terminal ih
  | nonterminal hright hv _ ihv ihw => exact (hrule _ _ _ hright hv ihv).append ihw

/-- Derivations are carried over to a grammar that makes up for each rule. -/
theorem Yields.transfer
    (hrule : ∀ A right v, right ∈ g.rightsOf (.nonterminal A) → g.Yields right v →
      g'.Yields right v → g'.Derives A v)
    (h : g.Yields form w) : g'.Yields form w := by
  have hself (form : RightSide) : RightSide.expand (fun A => [.nonterminal A]) form = form :=
    RightSide.expand_eq_self fun _ _ => rfl
  have key : g'.Yields (form.expand fun A => [.nonterminal A]) w :=
    h.expand fun A right v hright hv hv' => hrule A right v hright hv (by rwa [hself] at hv')
  rwa [hself] at key

theorem Yields.mono
    (hrule : ∀ A, ∀ right ∈ g.rightsOf (.nonterminal A), right ∈ g'.rightsOf (.nonterminal A))
    (h : g.Yields form w) : g'.Yields form w :=
  h.transfer fun A right _ hright _ hv => derives_iff.2 ⟨right, hrule A right hright, hv⟩

/-- A derivation only uses nonterminals of any set that holds those of the form and is closed
under the rules. -/
theorem Yields.restrict {S : Name → Prop}
    (hclosed : ∀ A, S A → ∀ right ∈ g.rightsOf (.nonterminal A),
      right ∈ g'.rightsOf (.nonterminal A) ∧ ∀ B, .nonterminal B ∈ right → S B)
    (h : g.Yields form w) (hform : ∀ B, .nonterminal B ∈ form → S B) : g'.Yields form w := by
  induction h with
  | nil => exact .nil
  | terminal _ ih => exact .terminal (ih fun B hB => hform B (List.mem_cons_of_mem _ hB))
  | @nonterminal A right form v w hright _ _ ihv ihw =>
    obtain ⟨hright', hmem⟩ := hclosed A (hform A List.mem_cons_self) right hright
    exact .nonterminal hright' (ihv hmem) (ihw fun B hB => hform B (List.mem_cons_of_mem _ hB))

/-- The empty string is only derived from a non-empty form through some empty right side. -/
theorem exists_epsilon_of_yields_nil (h : g.Yields form []) (hform : form ≠ []) :
    ∃ A, [] ∈ g.rightsOf (.nonterminal A) := by
  generalize hw : ([] : Word) = w at h
  induction h with
  | nil => exact absurd rfl hform
  | terminal => exact absurd hw.symm (List.cons_ne_nil _ _)
  | @nonterminal A right form v w hright _ _ ihv =>
    cases right with
    | nil => exact ⟨A, hright⟩
    | cons X right => exact ihv (List.cons_ne_nil X right) (List.append_eq_nil_iff.1 hw.symm).1.symm

/-- The grammar without its epsilon rules. -/
def positive (g : Grammar) : Grammar :=
  { g with productions := g.productions.map fun _ rights => rights.erase [] }

theorem mem_erase_nil {rights : RightSides} {right : RightSide} :
    right ∈ rights.erase [] ↔ right ∈ rights ∧ right ≠ [] := by
  rw [Std.ExtTreeSet.mem_erase, ne_eq, Std.LawfulEqOrd.compare_eq_iff_eq, and_comm, eq_comm]

theorem mem_rightsOf_positive {X : Symbol} {right : RightSide} :
    right ∈ g.positive.rightsOf X ↔ right ∈ g.rightsOf X ∧ right ≠ [] := by
  rw [positive, mem_rightsOf_map, mem_rightsOf]
  constructor
  · rintro ⟨rights, hentry, hright⟩
    obtain ⟨hright, hne⟩ := mem_erase_nil.1 hright
    exact ⟨⟨rights, hentry, hright⟩, hne⟩
  · rintro ⟨⟨rights, hentry, hright⟩, hne⟩
    exact ⟨rights, hentry, mem_erase_nil.2 ⟨hright, hne⟩⟩

theorem Yields.of_positive (h : g.positive.Yields form w) : g.Yields form w :=
  h.mono fun _ _ hright => (mem_rightsOf_positive.1 hright).1

theorem eq_nil_of_positive_yields_nil (h : g.positive.Yields form []) : form = [] := by
  by_cases hform : form = []
  · exact hform
  · obtain ⟨A, hA⟩ := exists_epsilon_of_yields_nil h hform
    exact absurd rfl (mem_rightsOf_positive.1 hA).2

theorem not_positive_derives_nil {A : Name} : ¬g.positive.Derives A [] := fun h =>
  List.cons_ne_nil _ _ (eq_nil_of_positive_yields_nil h)

/-- A form yields a word if its parts yield the parts of the word. -/
theorem yields_cons_iff {X : Symbol} :
    g.Yields (X :: form) w ↔ ∃ u v, w = u ++ v ∧ g.Yields [X] u ∧ g.Yields form v := by
  constructor
  · intro h
    exact Yields.split (show g.Yields ([X] ++ form) w from h)
  · rintro ⟨u, v, rfl, hu, hv⟩
    exact hu.append hv

end Grammar

end ContextFree
