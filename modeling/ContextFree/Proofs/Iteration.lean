import ContextFree.Listing.Writer
import ContextFree.Normalization.Run
import ContextFree.Proofs.Analysis
import ContextFree.Proofs.Success
import Mathlib.Data.List.Perm.Basic

/-! # Iteration in any order

The members of a collection may be met in any order when they are gone through one after the
other. What is written of a grammar is sorted first, and what is computed from it is a set or
does not depend on the order. Each definition here goes through collections in a given order, and
it is shown to agree with the one that goes through them in ascending order.
-/

namespace ContextFree

section Arranging

variable {α κ : Type} [Ord κ] [Std.TransOrd κ] {key : α → κ} {xs ys : List α}

/-- Arranging forgets the order, provided that members with the same key are equal. -/
theorem arrangeBy_eq_of_perm (h : xs.Perm ys)
    (hkey : ∀ x ∈ ys, ∀ y ∈ ys, compare (key x) (key y) = .eq → x = y) :
    arrangeBy key xs = arrangeBy key ys := by
  have hperm := (arrangeBy_perm key xs).trans (h.trans (arrangeBy_perm key ys).symm)
  refine List.Perm.eq_of_pairwise (fun x y hx hy hxy hyx => ?_) (pairwise_arrangeBy key xs)
    (pairwise_arrangeBy key ys) hperm
  exact hkey x (h.mem_iff.1 (mem_arrangeBy.1 hx)) y (mem_arrangeBy.1 hy)
    (Std.OrientedCmp.isLE_antisymm hxy hyx)

/-- Members of an ascending list have keys of their own. -/
theorem eq_of_ascending (h : xs.Pairwise fun x y => compare (key x) (key y) = .lt) :
    ∀ x ∈ xs, ∀ y ∈ xs, compare (key x) (key y) = .eq → x = y := by
  induction h with
  | nil => exact fun x hx => nomatch hx
  | @cons z zs hz _ ih =>
    have hne (x : α) (hx : x ∈ zs) : compare (key z) (key x) ≠ .eq := by simp [hz x hx]
    refine List.forall_mem_cons.2 ⟨List.forall_mem_cons.2 ⟨fun _ => rfl, fun x hx heq => ?_⟩,
      fun x hx => List.forall_mem_cons.2 ⟨fun heq => ?_, ih x hx⟩⟩
    · exact absurd heq (hne x hx)
    · exact absurd (Std.OrientedCmp.eq_comm.1 heq) (hne x hx)

theorem arrangeBy_eq_of_ascending (h : xs.Perm ys)
    (hys : ys.Pairwise fun x y => compare (key x) (key y) = .lt) : arrangeBy key xs = ys := by
  rw [arrangeBy_eq_of_perm h (eq_of_ascending hys)]
  exact arrangeBy_of_pairwise (hys.imp fun hlt => by rw [hlt]; rfl)

omit [Std.TransOrd κ] in
theorem map_arrangeBy (xs : List α) : (arrangeBy key xs).map key = arrangeBy id (xs.map key) := by
  have hplace (x : α) (ys : List α) :
      (placeBy key x ys).map key = placeBy id (key x) (ys.map key) := by
    induction ys with
    | nil => rfl
    | cons y ys ih =>
      simp only [placeBy, List.map_cons, id]
      split
      · rfl
      · rw [List.map_cons, ih]
  induction xs with
  | nil => rfl
  | cons x xs ih => rw [arrangeBy, hplace, ih, List.map_cons, arrangeBy]

end Arranging

theorem Symbol.names_eq_of_perm {Xs Ys : List Symbol} (h : Xs.Perm Ys) : names Xs = names Ys := by
  rw [names, names, byName, byName, map_arrangeBy, map_arrangeBy]
  exact arrangeBy_eq_of_perm (h.map name) fun _ _ _ _ => Std.LawfulEqOrd.eq_of_compare

/-- An order of iteration: each collection of a grammar, and each one that belongs to one of its
symbols, is gone through in some order of its own. -/
structure Iteration where
  order : {α : Type} → (owner : Option Symbol) → List α → List α
  perm : ∀ {α : Type} (owner : Option Symbol) (xs : List α), (order owner xs).Perm xs

namespace Iteration

/-- Iteration from the last member to the first. -/
def descending : Iteration where
  order _ := List.reverse
  perm _ := List.reverse_perm

variable (o : Iteration) {owner : Option Symbol} {g : Grammar}

@[simp] theorem mem_order {α : Type} {x : α} {xs : List α} : x ∈ o.order owner xs ↔ x ∈ xs :=
  (o.perm owner xs).mem_iff

/-- A collection is sorted into its ascending listing. -/
theorem arrangeBy_order {α κ : Type} [Ord κ] [Std.TransOrd κ] {key : α → κ} {xs : List α}
    (h : xs.Pairwise fun x y => compare (key x) (key y) = .lt) :
    arrangeBy key (o.order owner xs) = xs :=
  arrangeBy_eq_of_ascending (o.perm owner xs) h

theorem arrangeBy_order_toList {α : Type} [Ord α] [Std.TransOrd α] (s : Std.ExtTreeSet α) :
    arrangeBy id (o.order owner s.toList) = s.toList :=
  o.arrangeBy_order s.ordered_toList

theorem arrangeBy_order_heads : arrangeBy id (o.order owner g.heads) = g.heads :=
  o.arrangeBy_order (Std.ExtTreeMap.ordered_keys (t := g.productions))

section Texts

/-- The rules, sorted after they were collected. -/
def rules (g : Grammar) : List Rule :=
  arrangeBy id ((o.order none g.productions.toList).flatMap fun
    | (.nonterminal A, rights) => (o.order (Symbol.nonterminal A) rights.toList).map (Rule.mk A)
    | (.terminal _, _) => [])

/-- The rules, provided that they account for all right sides. -/
def listRules (g : Grammar) : Except Fault (List Rule) :=
  if (o.order none g.productions.toList).any fun (X, rights) => X.isTerminal && !rights.isEmpty
    then .error .leftKind else .ok (o.rules g)

/-- The rules on one line each. -/
def text (g : Grammar) : Except Fault String := do
  return "\n".intercalate ((← o.listRules g).map Rule.text)

/-- What stands between two symbols of a right side. -/
def separator (g : Grammar) : String :=
  if ((o.order none g.heads).map Symbol.name ++ o.order none g.terminals.toList).all fun name =>
    name.length = 1 then "" else " "

/-- The line of one head. -/
def line (g : Grammar) (X : Symbol) : String :=
  ruleLine (o.separator g) X.name
    ((arrangeBy id (o.order X (g.rightsOf X).toList)).map fun right => right.map Symbol.name)

/-- The lines of all heads, in the order of their names. -/
def layout (g : Grammar) : String :=
  "\n".intercalate ((Symbol.byName (o.order none g.heads)).map (o.line g))

/-- The heads, the start symbol first. -/
def startFirst (g : Grammar) : List Symbol :=
  .nonterminal g.start ::
    Symbol.byName ((o.order none g.heads).filter (· ≠ .nonterminal g.start))

/-- The lines of the listing. -/
def linesOf (g : Grammar) : List String :=
  Listing.declarationLine .nonterminals ((o.startFirst g).map Symbol.name) ::
  Listing.declarationLine .terminals (arrangeBy id (o.order none g.terminals.toList)) ::
  Listing.declarationLine .start [g.start] ::
  (o.startFirst g).map (o.line g)

/-- The listing. -/
def write (g : Grammar) : String :=
  String.join ((o.linesOf g).map (· ++ "\n"))

theorem ascending_rules :
    g.rules.Pairwise fun r s => compare (id r) (id s) = .lt := by
  refine List.pairwise_flatMap.2 ⟨?_, ?_⟩
  · rintro ⟨X, rights⟩ -
    cases X with
    | terminal a => exact .nil
    | nonterminal A =>
      refine List.pairwise_map.2 (rights.ordered_toList.imp fun hlt => ?_)
      change (compare A A).then _ = .lt
      rw [Std.ReflOrd.compare_self]
      exact hlt
  · refine Std.ExtTreeMap.ordered_keys_toList.imp ?_
    rintro ⟨X, rights⟩ ⟨Y, rights'⟩ hlt r hr s hs
    cases X with
    | terminal a => cases hr
    | nonterminal A =>
      cases Y with
      | terminal b => cases hs
      | nonterminal B =>
        obtain ⟨right, -, rfl⟩ := List.mem_map.1 hr
        obtain ⟨right', -, rfl⟩ := List.mem_map.1 hs
        have hnames : compare A B = .lt := hlt
        change (compare A B).then _ = .lt
        rw [hnames]
        rfl

theorem rules_eq : o.rules g = g.rules := by
  refine arrangeBy_eq_of_ascending
    ((List.Perm.flatMap_right _ (o.perm none _)).trans ?_) ascending_rules
  refine List.Perm.flatMap_left _ fun p _ => ?_
  obtain ⟨X, rights⟩ := p
  cases X with
  | terminal a => exact .refl _
  | nonterminal A => exact (o.perm _ _).map _

theorem listRules_eq : o.listRules g = g.listRules := by
  rw [listRules, Grammar.listRules, Grammar.hasStrayRights, (o.perm none _).any_eq, o.rules_eq]

theorem text_eq : o.text g = g.text := by
  rw [text, Grammar.text, o.listRules_eq]

theorem separator_eq : o.separator g = g.separator := by
  have hperm := ((o.perm none g.heads).map Symbol.name).append (o.perm none g.terminals.toList)
  rw [separator, Grammar.separator, hperm.all_eq]

theorem line_eq : o.line g = g.line := by
  funext X
  rw [line, Grammar.line, o.separator_eq, o.arrangeBy_order_toList]

variable (h : g.WellFormed)
include h

theorem byName_eq {Xs Ys : List Symbol} (hperm : Xs.Perm Ys) (hYs : ∀ X ∈ Ys, X ∈ g.heads) :
    Symbol.byName Xs = Symbol.byName Ys := by
  refine arrangeBy_eq_of_perm hperm fun X hX Y hY heq => ?_
  have hkind {Z : Symbol} (hZ : Z ∈ Ys) : Z.isTerminal = false :=
    h.heads_nonterminal Z (Grammar.mem_heads.1 (hYs Z hZ))
  exact Symbol.ext ((hkind hX).trans (hkind hY).symm) (Std.LawfulEqOrd.eq_of_compare heq)

theorem layout_eq : o.layout g = g.layout := by
  rw [layout, Grammar.layout, o.line_eq, byName_eq h (o.perm none g.heads) fun _ => id]

theorem startFirst_eq : o.startFirst g = Listing.startFirst g := by
  rw [startFirst, Listing.startFirst, byName_eq h ((o.perm none g.heads).filter _) fun _ hX =>
    (List.mem_filter.1 hX).1]

theorem write_eq : o.write g = Listing.write g := by
  rw [write, Listing.write, linesOf, Listing.linesOf, o.startFirst_eq h, o.line_eq,
    o.arrangeBy_order_toList]

end Texts

section Analyses

variable {p : Productions}

/-- Whether a clause holds does not depend on the order in which the clauses stand. -/
theorem holds_map_congr {f f' : Symbol → RightSides → List (List Symbol)}
    (h : ∀ X rights body, body ∈ f X rights ↔ body ∈ f' X rights) :
    Clauses.holds (p.map f) = Clauses.holds (p.map f') := by
  funext X known
  rw [Bool.eq_iff_iff, Clauses.holds_iff, Clauses.holds_iff, Std.ExtTreeMap.getElem?_map,
    Std.ExtTreeMap.getElem?_map]
  cases p[X]? <;> simp [h]

section Search

variable {f f' : Symbol → RightSides → List Symbol} {X Y : Symbol} {seen : SymbolSet}

theorem reaches_map (h : ∀ X rights Z, Z ∈ f X rights → Z ∈ f' X rights)
    (hY : Graph.Reaches (p.map f) X Y) : Graph.Reaches (p.map f') X Y := by
  induction hY with
  | root => exact .root
  | @step Y Z children _ hentry hmem ih =>
    rw [Std.ExtTreeMap.getElem?_map, Option.map_eq_some_iff] at hentry
    obtain ⟨rights, hrights, rfl⟩ := hentry
    exact ih.step (by rw [Std.ExtTreeMap.getElem?_map, hrights, Option.map_some])
      (h Y rights Z hmem)

/-- A search finds the same nodes when the children of each node stand in another order. -/
theorem search_map_congr (h : ∀ X rights Z, Z ∈ f X rights ↔ Z ∈ f' X rights)
    (hsearch : Grammar.search (p.map f') (.tagged X) = .ok seen) :
    Grammar.search (p.map f) (.tagged X) = .ok seen := by
  have hfound : Graph.reachableFrom (p.map f') X = .ok seen := by
    change (Graph.reachableFrom (p.map f') X).mapError _ = _ at hsearch
    cases hresult : Graph.reachableFrom (p.map f') X with
    | ok seen' =>
      rw [hresult] at hsearch
      cases hsearch
      rfl
    | error Y =>
      rw [hresult] at hsearch
      cases hsearch
  -- What is seen depends only on what can be reached, which is the same for both.
  cases hfound ▸ Graph.found_reachableFrom (p.map f') X with
  | all hexact hentries =>
    have hforth {Y : Symbol} (hY : Graph.Reaches (p.map f) X Y) : Graph.Reaches (p.map f') X Y :=
      reaches_map (fun X rights Z => (h X rights Z).1) hY
    have hback {Y : Symbol} (hY : Graph.Reaches (p.map f') X Y) : Graph.Reaches (p.map f) X Y :=
      reaches_map (fun X rights Z => (h X rights Z).2) hY
    have hentries' (Y : Symbol) (hY : Graph.Reaches (p.map f) X Y) : Y ∈ p.map f :=
      Std.ExtTreeMap.mem_map.2 (Std.ExtTreeMap.mem_map.1 (hentries Y ((hexact Y).2 (hforth hY))))
    obtain ⟨seen', hseen', hexact'⟩ := Graph.reachableFrom_eq_ok hentries'
    have hsame : seen' = seen := by
      ext Y
      rw [hexact', hexact]
      exact ⟨hforth, hback⟩
    change (Graph.reachableFrom (p.map f) X).mapError _ = _
    rw [hseen', hsame]
    rfl

end Search

/-- The heads that derive the empty string. -/
def nullable (g : Grammar) : SymbolSet :=
  Fixpoint.least (Clauses.holds (g.productions.map fun X rights => o.order X rights.toList))
    (arrangeBy id (o.order none g.heads))

/-- The heads that derive at least one string of terminals. -/
def productive (g : Grammar) : SymbolSet :=
  Fixpoint.least (Clauses.holds (g.productions.map fun X rights =>
    (o.order X rights.toList).map RightSide.nonterminals)) (arrangeBy id (o.order none g.heads))

/-- The nonterminals that occur in what the start symbol derives. -/
def reachable (g : Grammar) : Except Fault SymbolSet :=
  Grammar.search (g.productions.map fun X rights =>
    (o.order X rights.toList).flatMap RightSide.nonterminals) (.tagged (.nonterminal g.start))

/-- The unit closures of all heads. -/
def unitClosures (g : Grammar) : Except Fault UnitClosures :=
  let graph : Graph Symbol := g.productions.map fun X rights =>
    (o.order X rights.toList).filterMap RightSide.unit?
  (o.order none g.heads).mapM fun X => do return (X, ← Grammar.search graph (.tagged X))

/-- The terminals that occur in right sides of two or more symbols. -/
def mixedTerminals (g : Grammar) : NameSet :=
  .of ((((o.order none g.productions.toList).flatMap fun (X, rights) =>
    o.order X rights.toList).filter fun right =>
      2 ≤ right.length).flatMap RightSide.terminals |>.map Symbol.name)

theorem nullable_eq : o.nullable g = g.nullable := by
  rw [nullable, Grammar.nullable, Grammar.vanishingClauses, o.arrangeBy_order_heads,
    holds_map_congr fun X rights body => o.mem_order]

theorem productive_eq : o.productive g = g.productive := by
  rw [productive, Grammar.productive, Grammar.productiveClauses, o.arrangeBy_order_heads,
    holds_map_congr fun X rights body => ((o.perm X _).map _).mem_iff]

theorem mixedTerminals_eq : o.mixedTerminals g = g.mixedTerminals := by
  ext a
  simp [mixedTerminals, Grammar.mixedTerminals, NameSet.of, Grammar.allRights]

variable (h : g.WellFormed)
include h

theorem reachable_eq : o.reachable g = g.reachable := by
  obtain ⟨seen, hseen, -⟩ := Grammar.reachable_eq_ok h
  rw [hseen]
  exact search_map_congr (fun X rights Z => ((o.perm X _).flatMap_right _).mem_iff) hseen

theorem unitClosures_eq :
    o.unitClosures g = .ok ((o.order none g.heads).map fun X => (X, g.unitClosureOf X)) := by
  refine mapM_eq_ok fun X hX => ?_
  have hsearch := (Grammar.search_unitSteps h (Grammar.mem_heads.1 (o.mem_order.1 hX))).1
  rw [search_map_congr (fun X rights Z => ((o.perm X _).filterMap _).mem_iff) hsearch]
  rfl

end Analyses

end Iteration

theorem Grammar.nodup_rules {g : Grammar} : g.rules.Nodup := by
  refine Iteration.ascending_rules.imp ?_
  rintro r _ hlt rfl
  rw [Std.ReflOrd.compare_self] at hlt
  cases hlt

end ContextFree
