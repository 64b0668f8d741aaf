import ContextFree.Fault
import Std.Data.ExtTreeMap

/-! # Grammars

A grammar has a start symbol, a set of terminals and, for each of its heads, a set of right
sides. The heads are the keys of the productions, so every head has exactly one entry. In a
grammar that was built from its parts the heads are the nonterminals; an edit may also make
a symbol a head that is marked as a terminal. Whether a grammar is as it was built is a separate
predicate, `WellFormed`: removing a head may leave mentions of it behind.
-/

namespace ContextFree

/-- The right sides of each head. -/
abbrev Productions := Std.ExtTreeMap Symbol RightSides

/-- A context-free grammar. -/
structure Grammar where
  start : Name
  terminals : NameSet
  productions : Productions
  deriving DecidableEq

namespace Grammar

/-- The heads, in ascending order. -/
def heads (g : Grammar) : List Symbol :=
  g.productions.keys

/-- Whether the grammar has the symbol, as a head or as a terminal. -/
def has (g : Grammar) : Symbol → Bool
  | .nonterminal A => g.productions.contains (.nonterminal A)
  | .terminal a => g.productions.contains (.terminal a) || g.terminals.contains a

/-- Whether a nonterminal or a terminal of the grammar has the name. -/
def uses (g : Grammar) (name : Name) : Bool :=
  g.productions.contains (.nonterminal name) || g.terminals.contains name

/-- The right sides of a symbol; one that is no head has no right sides. -/
def rightsOf (g : Grammar) (X : Symbol) : RightSides :=
  g.productions.getD X ∅

/-- The rules, in ascending order. -/
def rules (g : Grammar) : List Rule :=
  g.productions.toList.flatMap fun
    | (.nonterminal A, rights) => rights.toList.map (Rule.mk A)
    | (.terminal _, _) => []

/-- Whether a head that is no nonterminal has a right side. -/
def hasStrayRights (g : Grammar) : Bool :=
  g.productions.toList.any fun (X, rights) => X.isTerminal && !rights.isEmpty

/-- The rules, in ascending order, provided that they account for all right sides. -/
def listRules (g : Grammar) : Except Fault (List Rule) :=
  if g.hasStrayRights then .error .leftKind else .ok g.rules

/-- The right sides of all heads, one head after the other. -/
def allRights (g : Grammar) : List RightSide :=
  g.productions.toList.flatMap fun (_, rights) => rights.toList

/-- The number of right sides. -/
def size (g : Grammar) : Nat :=
  g.allRights.length

/-- Whether some right side is empty. -/
def hasEpsilonRules (g : Grammar) : Bool :=
  g.allRights.any List.isEmpty

/-- Whether some right side is one nonterminal. -/
def hasUnaryRules (g : Grammar) : Bool :=
  g.allRights.any RightSide.isUnit

/-- What holds of a grammar that was built from its parts: the start symbol is a head, all
heads are nonterminals, no name is shared by a nonterminal and a terminal, and right sides
mention only symbols of the grammar. -/
structure WellFormed (g : Grammar) : Prop where
  start_mem : .nonterminal g.start ∈ g.productions
  heads_nonterminal : ∀ X ∈ g.productions, X.isTerminal = false
  disjoint : ∀ A, .nonterminal A ∈ g.productions → A ∉ g.terminals
  closed : ∀ X, ∀ right ∈ g.rightsOf X, ∀ Y ∈ right, g.has Y = true

/-- The rules on one line each, in ascending order. -/
def text (g : Grammar) : Except Fault String := do
  return "\n".intercalate ((← g.listRules).map Rule.text)

/-- The start symbol and the rules, with the kinds of all symbols, for messages. -/
def inspect (g : Grammar) : Except Fault String := do
  return "Grammar(" ++ (Symbol.nonterminal g.start).inspect ++ ", " ++
    bracketed ((← g.listRules).map Rule.inspect) ++ ")"

@[simp] theorem mem_heads {g : Grammar} {X : Symbol} : X ∈ g.heads ↔ X ∈ g.productions :=
  Std.ExtTreeMap.mem_keys

/-- A symbol has a right side exactly when its entry lists it. -/
theorem mem_rightsOf {g : Grammar} {X : Symbol} {right : RightSide} :
    right ∈ g.rightsOf X ↔ ∃ rights, g.productions[X]? = some rights ∧ right ∈ rights := by
  rw [rightsOf, Std.ExtTreeMap.getD_eq_getD_getElem?]
  cases g.productions[X]? <;> simp

/-- A listed right side belongs to some symbol. -/
theorem mem_allRights {g : Grammar} {right : RightSide} :
    right ∈ g.allRights ↔ ∃ X, right ∈ g.rightsOf X := by
  simp only [allRights, List.mem_flatMap, Prod.exists, Std.ExtTreeSet.mem_toList,
    Std.ExtTreeMap.mem_toList_iff_getElem?_eq_some, mem_rightsOf]

/-- The rules are the pairs of a nonterminal and one of its right sides. -/
theorem mem_rules {g : Grammar} {r : Rule} :
    r ∈ g.rules ↔ r.right ∈ g.rightsOf (.nonterminal r.left) := by
  rw [mem_rightsOf, rules, List.mem_flatMap]
  constructor
  · rintro ⟨⟨X, rights⟩, h, hr⟩
    cases X with
    | terminal a => cases hr
    | nonterminal A =>
      obtain ⟨right, hright, rfl⟩ := List.mem_map.1 hr
      exact ⟨rights, Std.ExtTreeMap.mem_toList_iff_getElem?_eq_some.1 h,
        Std.ExtTreeSet.mem_toList.1 hright⟩
  · rintro ⟨rights, h, hr⟩
    exact ⟨(.nonterminal r.left, rights), Std.ExtTreeMap.mem_toList_iff_getElem?_eq_some.2 h,
      List.mem_map.2 ⟨r.right, Std.ExtTreeSet.mem_toList.2 hr, rfl⟩⟩

/-- The rules of a grammar whose heads are nonterminals can be listed. -/
theorem listRules_eq {g : Grammar} (h : ∀ X ∈ g.productions, X.isTerminal = false) :
    g.listRules = .ok g.rules := by
  have none_stray : g.hasStrayRights = false := by
    rw [hasStrayRights, List.any_eq_false]
    rintro ⟨X, rights⟩ entry
    have head : X ∈ g.productions := by
      simp [Std.ExtTreeMap.mem_iff_isSome_getElem?,
        Std.ExtTreeMap.mem_toList_iff_getElem?_eq_some.1 entry]
    simp [h X head]
  rw [listRules, none_stray]
  rfl

end Grammar

end ContextFree
