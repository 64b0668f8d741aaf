import ContextFree.Trim
import ContextFree.Proofs.Shape

/-! # Removing useless heads keeps the language

No derivation from the start symbol uses a head that it does not reach, and no derivation that
ends in a word uses a rule that mentions an unproductive nonterminal. So neither removal takes
part of the language away.
-/

namespace ContextFree

namespace Grammar

variable {g : Grammar} {form : RightSide} {w : Word} {A : Name} {X : Symbol} {right : RightSide}

/-- The heads that the start symbol reaches. -/
def reachableSet (g : Grammar) : SymbolSet :=
  match g.reachable with
  | .ok seen => seen
  | .error _ => ∅

/-- The heads that the start symbol does not reach. -/
def unreachable (g : Grammar) : SymbolSet :=
  .of (g.heads.filter fun X => !g.reachableSet.contains X)

/-- The heads other than the start symbol that derive no string. -/
def unproductive (g : Grammar) : SymbolSet :=
  .of (g.heads.filter fun X => !g.productive.contains X && X ≠ .nonterminal g.start)

/-- The grammar that is left when unreachable heads are removed. -/
def withoutUnreachable (g : Grammar) : Grammar :=
  g.without g.unreachable

/-- The grammar that is left when unproductive heads are removed, with the rules that mention
them. -/
def withoutUnproductive (g : Grammar) : Grammar :=
  { g with productions := (g.without g.unproductive).productions.map fun _ rights =>
      rights.filter (RightSide.isProductive g.productive) }

@[simp] theorem start_withoutUnreachable : g.withoutUnreachable.start = g.start :=
  rfl

@[simp] theorem terminals_withoutUnreachable : g.withoutUnreachable.terminals = g.terminals :=
  rfl

@[simp] theorem start_withoutUnproductive : g.withoutUnproductive.start = g.start :=
  rfl

@[simp] theorem terminals_withoutUnproductive : g.withoutUnproductive.terminals = g.terminals :=
  rfl

theorem reachable_eq (h : g.WellFormed) : g.reachable = .ok g.reachableSet ∧
    ∀ Y, Y ∈ g.reachableSet ↔ g.mentions.Reaches (.nonterminal g.start) Y := by
  obtain ⟨seen, hseen, hexact⟩ := reachable_eq_ok h
  rw [reachableSet, hseen]
  exact ⟨rfl, hexact⟩

theorem mem_unreachable (h : g.WellFormed) : X ∈ g.unreachable ↔
    X ∈ g.productions ∧ ¬g.mentions.Reaches (.nonterminal g.start) X := by
  rw [← (reachable_eq h).2]
  simp only [unreachable, SymbolSet.of, Std.ExtTreeSet.mem_ofList, List.contains_iff_mem,
    List.mem_filter, mem_heads, Bool.not_eq_true', ← Bool.not_eq_true,
    Std.ExtTreeSet.contains_iff_mem]

theorem reaches_of_mem_withoutUnreachable (h : g.WellFormed)
    (hX : X ∈ g.withoutUnreachable.productions) : g.mentions.Reaches (.nonterminal g.start) X := by
  obtain ⟨hX, hkept⟩ := mem_productions_without.1 hX
  apply Classical.byContradiction
  intro hnot
  exact hkept ((mem_unreachable h).2 ⟨hX, hnot⟩)

theorem mem_unproductive : X ∈ g.unproductive ↔
    X ∈ g.productions ∧ X ∉ g.productive ∧ X ≠ .nonterminal g.start := by
  simp only [unproductive, SymbolSet.of, Std.ExtTreeSet.mem_ofList, List.contains_iff_mem,
    List.mem_filter, mem_heads, Bool.and_eq_true, Bool.not_eq_true', ← Bool.not_eq_true,
    Std.ExtTreeSet.contains_iff_mem, decide_eq_true_eq]

theorem reaches_of_mem {root : Symbol} {B : Name} (hX : g.mentions.Reaches root X)
    (hright : right ∈ g.rightsOf X) (hB : .nonterminal B ∈ right) :
    g.mentions.Reaches root (.nonterminal B) := by
  obtain ⟨children, hentry, hmem⟩ := exists_mentions_iff.2 ⟨right, hright, hB, rfl⟩
  exact .step hX hentry hmem

/-- What is reached is the root or a nonterminal that a right side of a reached symbol mentions. -/
@[elab_as_elim]
theorem reaches_induction {origin : Symbol}
    {motive : (X : Symbol) → g.mentions.Reaches origin X → Prop} (root : motive origin .root)
    (step : ∀ (Y : Symbol) (right : RightSide) (B : Name) (hY : g.mentions.Reaches origin Y)
      (hright : right ∈ g.rightsOf Y) (hB : .nonterminal B ∈ right), motive Y hY →
        motive (.nonterminal B) (reaches_of_mem hY hright hB))
    {X : Symbol} (hX : g.mentions.Reaches origin X) : motive X hX := by
  induction hX with
  | root => exact root
  | @step Y Z children hY hentry hmem ih =>
    obtain ⟨right, hright, hZ, hkind⟩ := exists_mentions_iff.1 ⟨children, hentry, hmem⟩
    cases Z with
    | terminal a => cases hkind
    | nonterminal B => exact step Y right B hY hright hZ ih

theorem start_notMem_unreachable (h : g.WellFormed) : .nonterminal g.start ∉ g.unreachable :=
  fun hstart => ((mem_unreachable h).1 hstart).2 .root

theorem start_notMem_unproductive : .nonterminal g.start ∉ g.unproductive :=
  fun hstart => (mem_unproductive.1 hstart).2.2 rfl

theorem mem_rightsOf_withoutUnreachable (h : g.WellFormed) :
    right ∈ g.withoutUnreachable.rightsOf X ↔
      right ∈ g.rightsOf X ∧ g.mentions.Reaches (.nonterminal g.start) X := by
  rw [withoutUnreachable, mem_rightsOf_without, mem_unreachable h]
  constructor
  · rintro ⟨hright, hX⟩
    exact ⟨hright, Classical.not_not.1 fun hnot =>
      hX ⟨mem_productions_of_mem_rightsOf hright, hnot⟩⟩
  · rintro ⟨hright, hX⟩
    exact ⟨hright, fun hnot => hnot.2 hX⟩

theorem isProductive_iff {productive : SymbolSet} :
    right.isProductive productive = true ↔
      ∀ B, .nonterminal B ∈ right → .nonterminal B ∈ productive := by
  rw [RightSide.isProductive, List.all_eq_true]
  constructor
  · intro hall B hB
    exact Std.ExtTreeSet.contains_iff_mem.1 (hall _ (RightSide.mem_nonterminals.2 ⟨hB, rfl⟩))
  · intro hall Y hY
    obtain ⟨hY, hkind⟩ := RightSide.mem_nonterminals.1 hY
    cases Y with
    | nonterminal B => exact Std.ExtTreeSet.contains_iff_mem.2 (hall B hY)
    | terminal a => cases hkind

theorem mem_rightsOf_withoutUnproductive : right ∈ g.withoutUnproductive.rightsOf X ↔
    right ∈ g.rightsOf X ∧ X ∉ g.unproductive ∧
      ∀ B, .nonterminal B ∈ right → .nonterminal B ∈ g.productive := by
  rw [← isProductive_iff, withoutUnproductive]
  constructor
  · intro hright
    obtain ⟨rights, hentry, hright⟩ := mem_rightsOf_map (g := g.without g.unproductive).1 hright
    obtain ⟨hright, hproductive⟩ : right ∈ rights ∧ right.isProductive g.productive = true := by
      simpa using hright
    obtain ⟨hright, hX⟩ := mem_rightsOf_without.1 (mem_rightsOf.2 ⟨rights, hentry, hright⟩)
    exact ⟨hright, hX, hproductive⟩
  · rintro ⟨hright, hX, hproductive⟩
    obtain ⟨rights, hentry, hright⟩ := mem_rightsOf.1 (mem_rightsOf_without.2 ⟨hright, hX⟩)
    exact mem_rightsOf_map (g := g.without g.unproductive).2
      ⟨rights, hentry, by simpa using ⟨hright, hproductive⟩⟩

/-- A right side consists of symbols that are left when none of its nonterminals is removed. -/
theorem WellFormed.has_without (h : g.WellFormed) {symbols : SymbolSet}
    (hright : right ∈ g.rightsOf X)
    (hkept : ∀ B, .nonterminal B ∈ right → .nonterminal B ∉ symbols) :
    ∀ Y ∈ right, (g.without symbols).has Y = true := by
  intro Y hY
  have hknown := h.closed X right hright Y hY
  cases Y with
  | nonterminal B =>
    exact Std.ExtTreeMap.contains_iff_mem.2 (mem_productions_without.2
      ⟨Std.ExtTreeMap.contains_iff_mem.1 hknown, hkept B hY⟩)
  | terminal a =>
    exact Bool.or_eq_true_iff.2 (.inr (Std.ExtTreeSet.contains_iff_mem.2 (h.has_terminal.1 hknown)))

theorem WellFormed.withoutUnreachable (h : g.WellFormed) : g.withoutUnreachable.WellFormed where
  start_mem := mem_productions_without.2 ⟨h.start_mem, start_notMem_unreachable h⟩
  heads_nonterminal X hX := h.heads_nonterminal X (mem_productions_without.1 hX).1
  disjoint A hA := h.disjoint A (mem_productions_without.1 hA).1
  closed X right hright := by
    obtain ⟨hright, hX⟩ := (mem_rightsOf_withoutUnreachable h).1 hright
    exact h.has_without hright fun B hB hnot =>
      ((mem_unreachable h).1 hnot).2 (reaches_of_mem hX hright hB)

theorem WellFormed.has_withoutUnproductive (h : g.WellFormed) (hright : right ∈ g.rightsOf X)
    (hproductive : ∀ B, .nonterminal B ∈ right → .nonterminal B ∈ g.productive) :
    ∀ Y ∈ right, (g.without g.unproductive).has Y = true :=
  h.has_without hright fun B hB hnot => (mem_unproductive.1 hnot).2.1 (hproductive B hB)

theorem WellFormed.filter_known (h : g.WellFormed) {rights : RightSides}
    (hentry : (g.without g.unproductive).productions[X]? = some rights) :
    ∀ right ∈ rights.filter (RightSide.isProductive g.productive), ∀ Y ∈ right,
      (g.without g.unproductive).has Y = true := by
  intro right hright
  obtain ⟨hmem, hproductive⟩ : right ∈ rights ∧ right.isProductive g.productive = true := by
    simpa using hright
  have hold := (mem_rightsOf_without.1 (mem_rightsOf.2 ⟨rights, hentry, hmem⟩)).1
  exact h.has_withoutUnproductive hold (isProductive_iff.1 hproductive)

theorem WellFormed.withoutUnproductive (h : g.WellFormed) :
    g.withoutUnproductive.WellFormed where
  start_mem := Std.ExtTreeMap.mem_map.2
    (mem_productions_without.2 ⟨h.start_mem, start_notMem_unproductive⟩)
  heads_nonterminal X hX :=
    h.heads_nonterminal X (mem_productions_without.1 (Std.ExtTreeMap.mem_map.1 hX)).1
  disjoint A hA := h.disjoint A (mem_productions_without.1 (Std.ExtTreeMap.mem_map.1 hA)).1
  closed X right hright Y hY := by
    obtain ⟨hright, -, hproductive⟩ := mem_rightsOf_withoutUnproductive.1 hright
    exact (has_map (g := g.without g.unproductive)).trans
      (h.has_withoutUnproductive hright hproductive Y hY)

theorem Yields.of_withoutUnreachable (h : g.WellFormed)
    (hw : g.withoutUnreachable.Yields form w) : g.Yields form w :=
  hw.mono fun _ _ hright => ((mem_rightsOf_withoutUnreachable h).1 hright).1

theorem Yields.of_withoutUnproductive (hw : g.withoutUnproductive.Yields form w) :
    g.Yields form w :=
  hw.mono fun _ _ hright => (mem_rightsOf_withoutUnproductive.1 hright).1

/-- Every nonterminal of a form that yields a word derives some word. -/
theorem Yields.exists_derives (hw : g.Yields form w) (hA : .nonterminal A ∈ form) :
    ∃ v, g.Derives A v := by
  obtain ⟨before, after, rfl⟩ := List.append_of_mem hA
  obtain ⟨u, v, rfl, -, hv⟩ := hw.split
  obtain ⟨x, y, rfl, hx, -⟩ := yields_cons_iff.1 hv
  exact ⟨x, hx⟩

section Kept

variable {k k' : Grammar} (hk : ∀ X, ∀ right ∈ k.rightsOf X, right ∈ g.rightsOf X)
include hk

/-- A derivation of a reachable nonterminal is kept where the rules that it uses are kept. -/
theorem Derives.withoutUnreachable_of (h : g.WellFormed)
    (hkept : ∀ X, ∀ right ∈ k.rightsOf X, right ∈ g.withoutUnreachable.rightsOf X →
      right ∈ k'.rightsOf X)
    (hA : g.mentions.Reaches (.nonterminal g.start) (.nonterminal A)) (hw : k.Derives A w) :
    k'.Derives A w := by
  refine Yields.restrict (S := fun B => g.mentions.Reaches (.nonterminal g.start) (.nonterminal B))
    (fun B hB right hright => ?_) hw fun B hmem => ?_
  · have hold := hk _ right hright
    exact ⟨hkept _ right hright ((mem_rightsOf_withoutUnreachable h).2 ⟨hold, hB⟩),
      fun C hC => reaches_of_mem hB hold hC⟩
  · obtain rfl : B = A := by simpa using hmem
    exact hA

/-- A derivation is kept where the productive rules that it uses are kept. -/
theorem Yields.withoutUnproductive_of (h : g.WellFormed)
    (hkept : ∀ X, ∀ right ∈ k.rightsOf X, right ∈ g.withoutUnproductive.rightsOf X →
      right ∈ k'.rightsOf X)
    (hw : k.Yields form w) : k'.Yields form w := by
  refine hw.transfer fun A right v hright hv hv' => ?_
  have hold := hk _ right hright
  have hyields : g.Yields right v := hv.mono fun B => hk (.nonterminal B)
  have hA : .nonterminal A ∈ g.productive :=
    (mem_productive h).2 ⟨v, derives_iff.2 ⟨right, hold, hyields⟩⟩
  refine derives_iff.2 ⟨right, hkept _ right hright ?_, hv'⟩
  exact mem_rightsOf_withoutUnproductive.2 ⟨hold, fun hnot => (mem_unproductive.1 hnot).2.1 hA,
    fun B hB => (mem_productive h).2 (hyields.exists_derives hB)⟩

end Kept

theorem Derives.withoutUnreachable (h : g.WellFormed)
    (hA : g.mentions.Reaches (.nonterminal g.start) (.nonterminal A)) (hw : g.Derives A w) :
    g.withoutUnreachable.Derives A w :=
  hw.withoutUnreachable_of (fun _ _ => id) h (fun _ _ _ => id) hA

theorem Derives.withoutUnreachable_positive (h : g.WellFormed)
    (hA : g.mentions.Reaches (.nonterminal g.start) (.nonterminal A))
    (hw : g.positive.Derives A w) :
    g.withoutUnreachable.positive.Derives A w :=
  hw.withoutUnreachable_of (fun _ _ hright => (mem_rightsOf_positive.1 hright).1) h
    (fun _ _ hright hkept => mem_rightsOf_positive.2 ⟨hkept, (mem_rightsOf_positive.1 hright).2⟩) hA

theorem Yields.withoutUnproductive (h : g.WellFormed) (hw : g.Yields form w) :
    g.withoutUnproductive.Yields form w :=
  hw.withoutUnproductive_of (fun _ _ => id) h fun _ _ _ => id

theorem Yields.withoutUnproductive_positive (h : g.WellFormed) (hw : g.positive.Yields form w) :
    g.withoutUnproductive.positive.Yields form w :=
  hw.withoutUnproductive_of (fun _ _ hright => (mem_rightsOf_positive.1 hright).1) h
    fun _ _ hright hkept => mem_rightsOf_positive.2 ⟨hkept, (mem_rightsOf_positive.1 hright).2⟩

end Grammar

namespace Transform

variable {g : Grammar}

theorem turns_removeUnreachable (h : g.WellFormed) :
    removeUnreachable.Turns g g.unreachable g.withoutUnreachable := by
  refine turns_current.bind ?_
  rw [(Grammar.reachable_eq h).1]
  exact turns_ofExcept.bind
    ((turns_remove (Grammar.start_notMem_unreachable h)).bind Turns.pure)

theorem turns_removeUnproductive (h : g.WellFormed) :
    removeUnproductive.Turns g g.unproductive g.withoutUnproductive :=
  turns_current.bind ((turns_remove Grammar.start_notMem_unproductive).bind
    ((turns_assignEach fun _ _ hentry => h.filter_known hentry).bind Turns.pure))

end Transform

end ContextFree
