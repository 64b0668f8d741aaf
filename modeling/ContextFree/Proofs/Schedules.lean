import ContextFree.Proofs.Iteration
import ContextFree.Proofs.Normalization
import ContextFree.Proofs.Writing

/-! # The conversion on any schedule

On a schedule, every part of the conversion goes through collections in orders of its own. Names
are minted in ascending order of what they are minted for, and right sides are assigned to heads
that differ from each other, so the grammar after each stage is the same on all schedules. What is
shown of it is sorted before.
-/

namespace ContextFree

open Normalization Event

namespace Iteration

variable (o : Iteration) {g : Grammar} {owner : Option Symbol}

section Edits

theorem ofList_order {α : Type} [Ord α] [Std.TransOrd α] [Std.LawfulEqOrd α] [BEq α] [LawfulBEq α]
    (s : Std.ExtTreeSet α) : Std.ExtTreeSet.ofList (o.order owner s.toList) = s := by
  ext x
  simp [Std.ExtTreeSet.mem_ofList]

/-- Replaces the right sides of a head. -/
def assign (X : Symbol) (rights : RightSides) : Transform Unit :=
  Transform.edit fun g => g.setRights (.tagged X)
    ((o.order X rights.toList).map fun right => right.map .tagged)

/-- Replaces the right sides of several heads, one after the other. -/
def assignAll (plan : List (Symbol × RightSides)) : Transform Unit :=
  plan.forM fun p => o.assign p.1 p.2

/-- Replaces the right sides of every head by others that depend on them. -/
def assignEach (f : Symbol → RightSides → RightSides) : Transform Unit := do
  let g ← Transform.current
  o.assignAll ((o.order none g.productions.toList).map fun (X, rights) => (X, f X rights))

/-- Removes heads, one after the other. -/
def remove (symbols : SymbolSet) : Transform Unit :=
  Transform.edit fun g =>
    if .nonterminal g.start ∈ symbols then .error (.startRemoved g.start)
    else .ok { g with productions := (o.order none symbols.toList).foldl (·.erase ·) g.productions }

theorem turns_assign {X : Symbol} {rights : RightSides} (hX : X ∈ g.productions)
    (h : ∀ right ∈ rights, ∀ Y ∈ right, g.has Y = true) :
    (o.assign X rights).Turns g () { g with productions := g.productions.insert X rights } :=
  Transform.turns_setRights (o.ofList_order rights) hX h

theorem turns_assignEach {f : Symbol → RightSides → RightSides}
    (hknown : ∀ X rights, g.productions[X]? = some rights →
      ∀ right ∈ f X rights, ∀ Y ∈ right, g.has Y = true) :
    (o.assignEach f).Turns g () { g with productions := g.productions.map f } := by
  refine Transform.turns_current.bind (Transform.turns_forM_map o.turns_assign (fun X rights => ?_)
    hknown)
  refine Transform.mem_map_entries fun X rights => ?_
  rw [o.mem_order, Std.ExtTreeMap.mem_toList_iff_getElem?_eq_some]

theorem turns_remove {symbols : SymbolSet} (hstart : .nonterminal g.start ∉ symbols) :
    (o.remove symbols).Turns g () (g.without symbols) := by
  refine Transform.turns_edit ?_
  have hproductions : (o.order none symbols.toList).foldl (·.erase ·) g.productions =
      (g.without symbols).productions := Grammar.foldl_erase fun X => by simp
  rw [if_neg hstart, hproductions]
  rfl

end Edits

section Stages

/-- The variants of the right sides of a head when epsilon rules are eliminated. -/
def rightsWithoutEpsilon (g : Grammar) (nullable : SymbolSet) (X : Symbol) (rights : RightSides) :
    RightSides :=
  let variants := ((o.order X rights.toList).flatMap (RightSide.omissions nullable)).filter
    (!·.isEmpty)
  .ofList (if X = .nonterminal g.start && nullable.contains X then [] :: variants else variants)

/-- Eliminates the epsilon rules. Gives the nullable heads of the grammar before. -/
def removeEpsilonRules : Transform SymbolSet := do
  let g ← Transform.current
  let nullable := o.nullable g
  o.assignEach (o.rightsWithoutEpsilon g nullable)
  return nullable

/-- The right sides that a head takes over from its unit closure. -/
def inherited (g : Grammar) (X : Symbol) (closure : SymbolSet) : RightSides :=
  .ofList ((o.order X closure.toList).flatMap fun Y : Symbol =>
    (o.order Y (g.rightsOf Y).toList).filter (g.inherits X))

/-- Eliminates the unit rules. Gives the unit closures of the grammar before. -/
def removeUnaryRules : Transform UnitClosures := do
  let g ← Transform.current
  let closures ← Transform.ofExcept (o.unitClosures g)
  o.assignAll (closures.map fun (X, closure) => (X, o.inherited g X closure))
  return arrangeBy Prod.fst closures

/-- Removes the heads that cannot be reached from the start symbol. Gives the removed heads. -/
def removeUnreachable : Transform SymbolSet := do
  let g ← Transform.current
  let reachable ← Transform.ofExcept (o.reachable g)
  let removed := SymbolSet.of ((o.order none g.heads).filter fun X => !reachable.contains X)
  o.remove removed
  return removed

/-- Removes the heads other than the start symbol that derive no string of terminals, and the
right sides that mention one. Gives the removed heads. -/
def removeUnproductive : Transform SymbolSet := do
  let g ← Transform.current
  let productive := o.productive g
  let removed := SymbolSet.of ((o.order none g.heads).filter fun X =>
    !productive.contains X && X ≠ .nonterminal g.start)
  o.remove removed
  o.assignEach fun X rights =>
    .ofList ((o.order X rights.toList).filter (RightSide.isProductive productive))
  return removed

/-- Replaces the terminals in right sides of two or more symbols. -/
def isolateTerminals : Minting Wrappers := do
  let names := arrangeBy id (o.order none (o.mixedTerminals (← get).grammar).toList)
  let wrappers ← Minting.wrapAll names
  Minting.transform (o.assignEach fun X rights =>
    .ofList ((o.order X rights.toList).map (RightSide.isolate wrappers)))
  return wrappers

/-- What remains of the right sides of each head, preceded by the links of its chains. -/
def splitRules :
    List (Symbol × RightSides) → Minting (List (Symbol × RightSides) × List Name)
  | [] => return ([], [])
  | (X, rights) :: rest => do
    let (pairs, links) ← Minting.splitAll (arrangeBy id (o.order X rights.toList))
    let (plan, names) ← splitRules rest
    return (links.map (fun (N, pair) => (.nonterminal N, {pair})) ++ (X, .ofList pairs) :: plan,
      links.map Prod.fst ++ names)

/-- Splits every right side of more than two symbols. Gives the links in the order in which
they were minted. -/
def shortenRules : Minting (List Name) := do
  let entries := arrangeBy Prod.fst (o.order none (← get).grammar.productions.toList)
  let (plan, names) ← o.splitRules entries
  Minting.transform (o.assignAll plan)
  return names

/-- Runs a stage. Gives what it did and the checkpoints on its way. -/
def runStage : Stage → Transform (Details × List Checkpoint)
  | .epsilon => return (.nullable (← o.removeEpsilonRules), [])
  | .unit => return (.closures (← o.removeUnaryRules), [])
  | .reachability => return (.removed (← o.removeUnreachable), [])
  | .productivity => do
    let removed ← o.removeUnproductive
    return (.trimmed removed (← o.removeUnreachable), [])
  | .binarization => Minting.withSupply {} do
    let wrappers ← o.isolateTerminals
    let isolated := (← get).grammar
    return (.minted wrappers (← o.shortenRules), [⟨Stage.isolatedTitle, isolated⟩])

theorem rightsWithoutEpsilon_eq : o.rightsWithoutEpsilon g = g.rightsWithoutEpsilon := by
  funext nullable X rights
  ext right
  rw [rightsWithoutEpsilon, Grammar.rightsWithoutEpsilon]
  split <;> simp [Std.ExtTreeSet.mem_ofList]

theorem inherited_eq : o.inherited g = g.inherited := by
  funext X closure
  ext right
  simp [inherited, Grammar.inherited, Std.ExtTreeSet.mem_ofList]

variable (h : g.WellFormed)
include h

theorem turns_removeEpsilonRules :
    o.removeEpsilonRules.Turns g g.nullable g.withoutEpsilon := by
  refine Transform.turns_current.bind ?_
  rw [o.nullable_eq, o.rightsWithoutEpsilon_eq]
  exact (o.turns_assignEach fun _ _ hentry => h.rightsWithoutEpsilon_known hentry).bind
    Transform.Turns.pure

theorem turns_removeUnaryRules : o.removeUnaryRules.Turns g
    (g.heads.map fun X => (X, g.unitClosureOf X)) g.withoutUnits := by
  have hclosures : arrangeBy Prod.fst ((o.order none g.heads).map fun X => (X, g.unitClosureOf X)) =
      g.heads.map fun X => (X, g.unitClosureOf X) :=
    arrangeBy_eq_of_ascending ((o.perm none _).map _)
      (List.pairwise_map.2 (Std.ExtTreeMap.ordered_keys (t := g.productions)))
  refine Transform.turns_current.bind ?_
  rw [o.unitClosures_eq h, o.inherited_eq]
  refine Transform.turns_ofExcept.bind ?_
  rw [hclosures]
  exact (Transform.turns_forM_map o.turns_assign (fun _ _ => Grammar.mem_map_inherited fun _ =>
    o.mem_order) fun _ _ _ => h.inherited_known).bind Transform.Turns.pure

theorem turns_removeUnreachable :
    o.removeUnreachable.Turns g g.unreachable g.withoutUnreachable := by
  have hremoved : SymbolSet.of ((o.order none g.heads).filter fun X =>
      !g.reachableSet.contains X) = g.unreachable := by
    ext X
    simp [SymbolSet.of, Grammar.unreachable]
  refine Transform.turns_current.bind ?_
  rw [o.reachable_eq h, (Grammar.reachable_eq h).1]
  refine Transform.turns_ofExcept.bind ?_
  rw [hremoved]
  exact (o.turns_remove (Grammar.start_notMem_unreachable h)).bind Transform.Turns.pure

theorem turns_removeUnproductive :
    o.removeUnproductive.Turns g g.unproductive g.withoutUnproductive := by
  have hremoved : SymbolSet.of ((o.order none g.heads).filter fun X =>
      !g.productive.contains X && X ≠ .nonterminal g.start) = g.unproductive := by
    ext X
    simp [SymbolSet.of, Grammar.unproductive]
  have hkept : (fun (X : Symbol) (rights : RightSides) => Std.ExtTreeSet.ofList
      ((o.order X rights.toList).filter (RightSide.isProductive g.productive))) =
        fun _ rights => rights.filter (RightSide.isProductive g.productive) := by
    funext X rights
    ext right
    simp [Std.ExtTreeSet.mem_ofList]
  refine Transform.turns_current.bind ?_
  dsimp only
  rw [o.productive_eq, hremoved, hkept]
  exact (o.turns_remove Grammar.start_notMem_unproductive).bind
    ((o.turns_assignEach fun _ _ hentry => h.filter_known hentry).bind Transform.Turns.pure)

variable {s : NameSupply}

theorem turns_isolateTerminals {wrappers : Wrappers} {glossary : Glossary}
    (hw : g.Wraps s g.mixedTerminals.toList wrappers glossary)
    (hwrap : (Minting.wrapAll g.mixedTerminals.toList).Turns g s wrappers
      (g.extend glossary.entries) s) :
    o.isolateTerminals.Turns g s wrappers (g.isolated wrappers glossary) s := by
  have hisolate : (fun (X : Symbol) (rights : RightSides) => Std.ExtTreeSet.ofList
      ((o.order X rights.toList).map (RightSide.isolate wrappers))) =
        fun _ => RightSide.isolateAll wrappers := by
    funext X rights
    ext right
    simp [RightSide.isolateAll, Std.ExtTreeSet.mem_ofList]
  refine Minting.Turns.get_bind fun added => ?_
  rw [o.mixedTerminals_eq, o.arrangeBy_order_toList]
  refine hwrap.bind ?_
  rw [hisolate]
  exact (Minting.turns_transform (o.turns_assignEach fun _ _ hX => hw.isolateAll_known h hX)).bind
    Minting.Turns.pure

omit h in
theorem splitRules_eq (entries : List (Symbol × RightSides)) :
    o.splitRules entries = Minting.splitRules entries := by
  induction entries with
  | nil => rfl
  | cons entry entries ih =>
    obtain ⟨X, rights⟩ := entry
    rw [splitRules, Minting.splitRules, o.arrangeBy_order_toList, ih]

theorem turns_shortenRules {s' : NameSupply} {cuts : Cuts} (hc : g.IsCutBy s cuts)
    (hsplit : (Minting.splitRules g.productions.toList).Turns g s (cuts.plan, cuts.names)
      (g.reserve cuts.names) s') :
    o.shortenRules.Turns g s cuts.names (g.shortened cuts) s' := by
  have hentries : arrangeBy Prod.fst (o.order none g.productions.toList) = g.productions.toList :=
    o.arrangeBy_order Std.ExtTreeMap.ordered_keys_toList
  have hassign : (o.assignAll cuts.plan).Turns (g.reserve cuts.names) () (g.shortened cuts) :=
    Transform.turns_forM_assign o.turns_assign (fun p hp => hc.mem_productions_of_mem_plan hp)
      (hc.plan_known h)
  refine Minting.Turns.get_bind fun added => ?_
  dsimp only
  rw [hentries, o.splitRules_eq]
  exact hsplit.bind ((Minting.turns_transform hassign).bind Minting.Turns.pure)

end Stages

section Data

/-- The names of the symbols of a set. -/
def nameData (symbols : SymbolSet) : Value :=
  .texts (Symbol.names (o.order none symbols.toList))

/-- The names of each head and of every other symbol of its unit closure. -/
def unitPairs (closures : UnitClosures) : List (List Name) :=
  arrangeBy id ((o.order none closures).flatMap fun (X, closure) =>
    ((o.order X closure.toList).filter (· ≠ X)).map fun Y => [X.name, Y.name])

/-- What a stage did, as structured data. -/
def data : Details → List (String × Value)
  | .nullable heads => [("nullable", o.nameData heads)]
  | .closures units => [("unit_pairs", .array ((o.unitPairs units).map .texts))]
  | .removed heads => [("removed", o.nameData heads)]
  | .trimmed dead stranded => [("removed", o.nameData dead), ("unreachable", o.nameData stranded)]
  | .minted wrappers chains =>
    [("terminal_wrappers", .object ((arrangeBy Prod.fst (o.order none wrappers.toList)).map
        fun (a, T) => (a, .text T))), ("chain_nonterminals", .texts chains)]

theorem nameData_eq : o.nameData = Normalization.nameData := by
  funext symbols
  rw [nameData, Normalization.nameData, Symbol.names_eq_of_perm (o.perm none _)]

theorem unitPairs_eq : o.unitPairs = Normalization.unitPairs := by
  funext closures
  refine arrangeBy_eq_of_perm ((List.Perm.flatMap_right _ (o.perm none _)).trans ?_)
    fun _ _ _ _ => Std.LawfulEqOrd.eq_of_compare
  exact List.Perm.flatMap_left _ fun entry _ => ((o.perm entry.1 _).filter _).map _

theorem data_eq : o.data = Details.data := by
  funext details
  cases details with
  | minted wrappers chains =>
    rw [data, Details.data, o.arrangeBy_order Std.ExtTreeMap.ordered_keys_toList]
  | _ => simp only [data, Details.data, o.nameData_eq, o.unitPairs_eq]

end Data

end Iteration

namespace Normalization

section Agreement

variable {α β : Type} {g : Grammar}

/-- Two transformations succeed with the same value and leave the same grammar, which is
well-formed. -/
def Agrees (t t' : Transform α) (g : Grammar) : Prop :=
  ∃ value g', t.Turns g value g' ∧ t'.Turns g value g' ∧ g'.WellFormed

theorem Agrees.pure (h : g.WellFormed) {value : α} : Agrees (Pure.pure value) (Pure.pure value) g :=
  ⟨value, g, Transform.Turns.pure, Transform.Turns.pure, h⟩

/-- Transformations agree if their parts do. -/
theorem Agrees.bind {t t' : Transform α} {f f' : α → Transform β} (h : Agrees t t' g)
    (hf : ∀ value g', g'.WellFormed → Agrees (f value) (f' value) g') :
    Agrees (t >>= f) (t' >>= f') g := by
  obtain ⟨value, g', ht, ht', hwell⟩ := h
  obtain ⟨result, g'', hfirst, hsecond, hwell'⟩ := hf value g' hwell
  exact ⟨result, g'', ht.bind hfirst, ht'.bind hsecond, hwell'⟩

theorem Agrees.mapM {f f' : α → Transform β}
    (hf : ∀ x g', g'.WellFormed → Agrees (f x) (f' x) g') (h : g.WellFormed) (xs : List α) :
    Agrees (xs.mapM f) (xs.mapM f') g := by
  induction xs generalizing g with
  | nil => exact .pure h
  | cons x xs ih =>
    rw [List.mapM_cons, List.mapM_cons]
    exact (hf x g h).bind fun _ _ hwell => (ih hwell).bind fun _ _ hwell' => .pure hwell'

/-- What a transformation gives and leaves is determined. -/
theorem Agrees.turns {t t' : Transform α} {value : α} {g' : Grammar} (h : Agrees t t' g)
    (ht' : t'.Turns g value g') : t.Turns g value g' := by
  obtain ⟨value', g'', hturns, hturns', -⟩ := h
  obtain ⟨added', hrun⟩ := ht' []
  obtain ⟨added'', hrun'⟩ := hturns' []
  rw [hrun] at hrun'
  cases hrun'
  exact hturns

theorem agrees_runStage (o : Iteration) (h : g.WellFormed) (stage : Stage) :
    Agrees (o.runStage stage) stage.run g := by
  cases stage with
  | epsilon =>
    exact ⟨_, _, (o.turns_removeEpsilonRules h).bind .pure, turns_epsilon h, h.withoutEpsilon⟩
  | unit => exact ⟨_, _, (o.turns_removeUnaryRules h).bind .pure, turns_unit h, h.withoutUnits⟩
  | reachability =>
    exact ⟨_, _, (o.turns_removeUnreachable h).bind .pure, turns_reachability h,
      h.withoutUnreachable⟩
  | productivity =>
    have hstranded := o.turns_removeUnreachable h.withoutUnproductive
    exact ⟨_, _, (o.turns_removeUnproductive h).bind (hstranded.bind .pure), turns_productivity h,
      h.withoutUnproductive.withoutUnreachable⟩
  | binarization =>
    obtain ⟨wrappers, glossary, hw, hwrap⟩ := Minting.turns_wrapAll_mixedTerminals (s := {}) h
    have hwell := hw.wellFormed_isolated h
    obtain ⟨cuts, counter, hc, hsplit⟩ := Minting.turns_splitRules_toList
      (g := g.isolated wrappers glossary) (s := {})
    have hisolate := Minting.turns_isolateTerminals_of_wraps h hw hwrap
    have hshorten := Minting.turns_shortenRules_of_isCutBy hwell hc hsplit
    have hisolate' := o.turns_isolateTerminals h hw hwrap
    have hshorten' := o.turns_shortenRules hwell hc hsplit
    exact ⟨(.minted wrappers cuts.names, [⟨Stage.isolatedTitle, g.isolated wrappers glossary⟩]), _,
      Minting.turns_withSupply (hisolate'.bind
        (Minting.Turns.get_bind fun _ => hshorten'.bind .pure)),
      Minting.turns_withSupply (hisolate.bind
        (Minting.Turns.get_bind fun _ => hshorten.bind .pure)), hc.wellFormed_shortened hwell⟩

end Agreement

/-- What is reported about a stage. -/
structure Report where
  name : String
  title : String
  nonterminals : Nat
  rules : Nat
  details : List (String × Value)

/-- The report about a stage, given how what it did is turned into data. -/
def report (data : Details → List (String × Value)) (p : Passage) : Report where
  name := p.stage.name
  title := p.stage.title
  nonterminals := p.nonterminals
  rules := p.rules
  details := data p.details

/-- What a program shows of a grammar and of its conversion. -/
structure Behaviour where
  rules : List Rule
  text : String
  layout : String
  listing : String
  final : Grammar
  reports : List Report
  printed : String
  events : List Record

/-- The behaviour of the programs that show a grammar and its conversion, or the fault at which
they stop. -/
def behaviour (r : Revision) : Except Fault Behaviour := do
  let rules ← r.grammar.listRules
  let text ← r.grammar.text
  match normalize.run r with
  | .error fault _ => throw fault
  | .ok passages r' =>
    return {
      rules, text
      layout := r.grammar.layout
      listing := Listing.write r.grammar
      final := r'.grammar
      reports := passages.map (report Details.data)
      printed := printed passages
      events := events r.grammar passages }

/-- The orders in which a program goes through collections: when it shows a grammar, and when it
runs a stage of the conversion and shows what it did. -/
structure Schedule where
  texts : Iteration
  stage : Stage → Iteration

namespace Schedule

variable (σ : Schedule) {g : Grammar}

/-- Runs one stage. -/
def pass (stage : Stage) : Transform Passage := do
  let (details, checkpoints) ← (σ.stage stage).runStage stage
  return { stage, details, checkpoints, grammar := ← Transform.current }

/-- Converts the grammar to Chomsky Normal Form. -/
def normalize : Transform (List Passage) :=
  Stage.all.mapM σ.pass

/-- What is printed in the course of a conversion. -/
def printed (passages : List Passage) : String :=
  String.join (passages.flatMap fun p => p.shown.map fun c =>
    "\n" ++ c.title ++ "\n" ++ (σ.stage p.stage).layout c.grammar ++ "\n")

/-- The event that follows a stage. -/
def event (p : Passage) : Record :=
  .ofGrammar "stage" p.grammar (("name", .text p.stage.name) :: (σ.stage p.stage).data p.details)

/-- The behaviour on the schedule. -/
def behaviour (r : Revision) : Except Fault Behaviour := do
  let rules ← σ.texts.listRules r.grammar
  let text ← σ.texts.text r.grammar
  match σ.normalize.run r with
  | .error fault _ => throw fault
  | .ok passages r' =>
    return {
      rules, text
      layout := σ.texts.layout r.grammar
      listing := σ.texts.write r.grammar
      final := r'.grammar
      reports := passages.map fun p => report (σ.stage p.stage).data p
      printed := σ.printed passages
      events := startEvent r.grammar :: passages.map σ.event }

theorem agrees_normalize (h : g.WellFormed) : Agrees σ.normalize Normalization.normalize g :=
  Agrees.mapM (fun stage _ hwell => (agrees_runStage (σ.stage stage) hwell stage).bind
    fun _ g' hwell' => ⟨_, g', Transform.turns_current.bind .pure,
      Transform.turns_current.bind .pure, hwell'⟩) h Stage.all

theorem printed_eq {passages : List Passage}
    (h : ∀ p ∈ passages, ∀ k ∈ p.shown, k.grammar.WellFormed) :
    σ.printed passages = Normalization.printed passages := by
  rw [printed, Normalization.printed, List.map_flatMap]
  congr 1
  refine List.flatMap_congr fun p hp => List.map_congr_left fun k hk => ?_
  rw [(σ.stage p.stage).layout_eq (h p hp k hk), Grammar.titled]

theorem event_eq : σ.event = Passage.event := by
  funext p
  rw [event, Passage.event, (σ.stage p.stage).data_eq]

end Schedule

/-- A program that goes through collections in any orders behaves as one that goes through them in
ascending order does. -/
theorem behaviour_eq_ok {g : Grammar} (h : g.WellFormed) : ∃ b : Behaviour, ∀ added,
    behaviour ⟨g, added⟩ = .ok b ∧ ∀ σ : Schedule, σ.behaviour ⟨g, added⟩ = .ok b := by
  obtain ⟨c, hturns⟩ := turns_normalize h
  have hrules : g.listRules = .ok g.rules := Grammar.listRules_eq h.heads_nonterminal
  have htext : g.text = .ok ("\n".intercalate (g.rules.map Rule.text)) := by
    rw [Grammar.text, hrules]
    rfl
  refine ⟨{
    rules := g.rules
    text := "\n".intercalate (g.rules.map Rule.text)
    layout := g.layout
    listing := Listing.write g
    final := c.final
    reports := c.passages.map (report Details.data)
    printed := printed c.passages
    events := events g c.passages }, fun added => ⟨?_, fun σ => ?_⟩⟩
  · obtain ⟨added', hrun⟩ := hturns added
    rw [behaviour]
    simp only [hrules, htext, hrun]
    rfl
  · obtain ⟨added', hrun⟩ := (σ.agrees_normalize h).turns hturns added
    rw [Schedule.behaviour]
    simp only [σ.texts.listRules_eq, σ.texts.text_eq, hrules, htext, hrun, σ.texts.layout_eq h,
      σ.texts.write_eq h, Iteration.data_eq, σ.printed_eq (c.wellFormed_shown h), σ.event_eq]
    rfl

end Normalization

namespace Draft

/-- Two drafts list the same values, in whatever order and with whatever repetitions. The right
sides of a left side may be listed all at once or bit by bit. -/
structure Alike (d d' : Draft) : Prop where
  nonterminals : ∀ x, x ∈ d.nonterminals ↔ x ∈ d'.nonterminals
  terminals : ∀ x, x ∈ d.terminals ↔ x ∈ d'.terminals
  start : d.start = d'.start
  rights : ∀ left right, (∃ rights, (left, rights) ∈ d.productions ∧ right ∈ rights) ↔
    ∃ rights, (left, rights) ∈ d'.productions ∧ right ∈ rights

theorem exists_mem_handedIn {productions : List (Name × List RightSide)} {A : Name}
    {side : RightSide} :
    (∃ rights, (.tagged (.nonterminal A), rights) ∈ Grammar.handedIn productions ∧
      side.map .tagged ∈ rights) ↔ ∃ sides, (A, sides) ∈ productions ∧ side ∈ sides := by
  have hinj (x y : RightSide) (heq : x.map RawSymbol.tagged = y.map RawSymbol.tagged) : x = y :=
    (List.map_inj_right fun _ _ => RawSymbol.tagged.inj).1 heq
  constructor
  · rintro ⟨rights, hmem, hside⟩
    obtain ⟨⟨B, sides⟩, hB, heq⟩ := List.mem_map.1 hmem
    cases heq
    obtain ⟨side', hside', heq⟩ := List.mem_map.1 hside
    exact ⟨sides, hB, hinj _ _ heq ▸ hside'⟩
  · rintro ⟨sides, hA, hside⟩
    exact ⟨_, List.mem_map.2 ⟨(A, sides), hA, rfl⟩, List.mem_map.2 ⟨side, hside, rfl⟩⟩

variable {d d' : Draft} {g g' : Grammar}

theorem Alike.grammar_eq (hsame : d.Alike d') (h : d.grammar = .ok g) (h' : d'.grammar = .ok g') :
    g = g' := by
  obtain ⟨p, hfit, rfl, rfl⟩ := grammar_eq_ok.1 h
  obtain ⟨p', hfit', rfl, rfl⟩ := grammar_eq_ok.1 h'
  have hnonterminals (A : Name) : A ∈ p.nonterminals ↔ A ∈ p'.nonterminals := by
    simpa [Parts.draft] using hsame.nonterminals (.tagged (.nonterminal A))
  have hterminals (a : Name) : a ∈ p.terminals ↔ a ∈ p'.terminals := by
    simpa [Parts.draft] using hsame.terminals (.tagged (.terminal a))
  have hstart : p.start = p'.start := by simpa [Parts.draft] using hsame.start
  apply Grammar.ext_of_rightsOf
  · rw [Parts.start_grammar, Parts.start_grammar, hstart]
  · rw [Parts.terminals_grammar, Parts.terminals_grammar]
    ext a
    simpa [NameSet.of] using hterminals a
  · intro X
    simp only [hfit.mem_productions, hfit'.mem_productions, hnonterminals]
  · intro X right
    have hrights (A : Name) : (∃ sides, (A, sides) ∈ p.productions ∧ right ∈ sides) ↔
        ∃ sides, (A, sides) ∈ p'.productions ∧ right ∈ sides := by
      rw [← exists_mem_handedIn, ← exists_mem_handedIn]
      exact hsame.rights _ _
    rw [Parts.mem_rightsOf_grammar, Parts.mem_rightsOf_grammar]
    constructor
    · rintro ⟨A, sides, hA, rfl, hright⟩
      obtain ⟨sides', hA', hright'⟩ := (hrights A).1 ⟨sides, hA, hright⟩
      exact ⟨A, sides', hA', rfl, hright'⟩
    · rintro ⟨A, sides, hA, rfl, hright⟩
      obtain ⟨sides', hA', hright'⟩ := (hrights A).2 ⟨sides, hA, hright⟩
      exact ⟨A, sides', hA', rfl, hright'⟩

/-- Drafts that list the same values in different orders and with different repetitions describe
one grammar, and whatever the orders in which collections are gone through, the programs behave in
the same way on it. -/
theorem behaviour_of_alike (h : d.grammar = .ok g) (h' : d'.grammar = .ok g')
    (hsame : d.Alike d') : g = g' ∧ ∃ b : Behaviour,
      ∀ (σ σ' : Schedule) (added added' : List Symbol),
        behaviour ⟨g, added⟩ = .ok b ∧ behaviour ⟨g', added'⟩ = .ok b ∧
          σ.behaviour ⟨g, added⟩ = .ok b ∧ σ'.behaviour ⟨g', added'⟩ = .ok b := by
  obtain rfl := hsame.grammar_eq h h'
  obtain ⟨b, hb⟩ := behaviour_eq_ok (wellFormed_of_grammar h)
  exact ⟨rfl, b, fun σ σ' added added' =>
    ⟨(hb added).1, (hb added').1, (hb added).2 σ, (hb added').2 σ'⟩⟩

end Draft

namespace Parts

/-- The same parts from the last to the first, with every name and right side repeated. -/
def relisted (p : Parts) : Parts where
  nonterminals := p.nonterminals.reverse ++ p.nonterminals
  terminals := p.terminals.reverse ++ p.terminals
  start := p.start
  productions := p.productions.reverse.map fun (A, sides) => (A, sides.reverse ++ sides)

variable {p : Parts}

theorem exists_mem_relisted {A : Name} {sides : List RightSide}
    (h : (A, sides) ∈ p.relisted.productions) :
    ∃ old, (A, old) ∈ p.productions ∧ ∀ side ∈ sides, side ∈ old := by
  obtain ⟨⟨B, old⟩, hB, heq⟩ := List.mem_map.1 h
  cases heq
  exact ⟨old, List.mem_reverse.1 hB, by simp⟩

theorem Fit.relisted (h : p.Fit) : p.relisted.Fit where
  start_mem := List.mem_append_right _ h.start_mem
  disjoint A hA := by
    have hdisjoint := h.disjoint A (by simpa [Parts.relisted] using hA)
    simpa [Parts.relisted] using hdisjoint
  left_mem A sides hA := by
    obtain ⟨old, hold, -⟩ := exists_mem_relisted hA
    exact List.mem_append_right _ (h.left_mem A old hold)
  known A sides hA side hside Y hY := by
    obtain ⟨old, hold, hall⟩ := exists_mem_relisted hA
    have hknown := h.known A old hold side (hall side hside) Y hY
    cases Y with
    | nonterminal B =>
      exact has_bare_nonterminal.2 (List.mem_append_right _ (has_bare_nonterminal.1 hknown))
    | terminal b => exact has_bare_terminal.2 (List.mem_append_right _ (has_bare_terminal.1 hknown))

theorem alike_relisted : p.draft.Alike p.relisted.draft where
  nonterminals x := by simp [draft, relisted]
  terminals x := by simp [draft, relisted]
  start := rfl
  rights left right := by
    simp only [draft, relisted, Grammar.handedIn, List.mem_map, List.mem_reverse]
    constructor
    · rintro ⟨rights, ⟨⟨A, sides⟩, hA, heq⟩, hright⟩
      cases heq
      exact ⟨_, ⟨_, ⟨(A, sides), hA, rfl⟩, rfl⟩, by simpa using hright⟩
    · rintro ⟨rights, ⟨_, ⟨⟨A, sides⟩, hA, rfl⟩, heq⟩, hright⟩
      cases heq
      exact ⟨_, ⟨(A, sides), hA, rfl⟩, by simpa using hright⟩

end Parts

namespace Draft

/-- The mixture behaves in the same way when it is listed from the last part to the first and
everything is gone through backwards. -/
theorem behaviour_of_relisted_mixture :
    Parts.mixture.draft.grammar = .ok Parts.mixture.grammar ∧
      Parts.mixture.relisted.draft.grammar = .ok Parts.mixture.relisted.grammar ∧
      Parts.mixture.draft.Alike Parts.mixture.relisted.draft ∧
      ∃ b : Behaviour, behaviour ⟨Parts.mixture.grammar, []⟩ = .ok b ∧
        Schedule.behaviour ⟨.descending, fun _ => .descending⟩
          ⟨Parts.mixture.relisted.grammar, []⟩ = .ok b := by
  have hfit := Parts.fit_mixture
  have hgrammar := grammar_eq_ok.2 ⟨_, hfit, rfl, rfl⟩
  have hrelisted := grammar_eq_ok.2 ⟨_, hfit.relisted, rfl, rfl⟩
  obtain ⟨-, b, hb⟩ := behaviour_of_alike hgrammar hrelisted Parts.alike_relisted
  obtain ⟨hfirst, -, -, hlast⟩ := hb ⟨.descending, fun _ => .descending⟩
    ⟨.descending, fun _ => .descending⟩ [] []
  exact ⟨hgrammar, hrelisted, Parts.alike_relisted, b, hfirst, hlast⟩

end Draft

end ContextFree
