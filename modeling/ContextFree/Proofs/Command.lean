import ContextFree.Command.Run
import ContextFree.Command.Workspace
import ContextFree.Proofs.Normalization
import ContextFree.Proofs.Reading

/-! # Runs of the command

Whatever the surroundings answer, the command converts a well-formed grammar only, so the
conversion succeeds and its result passes the check of the normal form.
-/

namespace ContextFree.Command

open Normalization

/-- Every value that a computation can give has the property. -/
def Always {m : Type → Type} [Monad m] {α : Type} (p : α → Prop) (x : m α) : Prop :=
  ∃ y : m {a // p a}, Subtype.val <$> y = x

namespace Always

variable {m : Type → Type} [Monad m] [LawfulMonad m] {α β : Type} {p : α → Prop} {x : m α}

theorem of_forall (h : ∀ a, p a) : Always p x := by
  refine ⟨(fun a => ⟨a, h a⟩) <$> x, ?_⟩
  rw [Functor.map_map]
  exact id_map x

theorem pure {a : α} (h : p a) : Always p (Pure.pure a : m α) :=
  ⟨Pure.pure ⟨a, h⟩, map_pure _ _⟩

theorem bind {q : β → Prop} {f : α → m β} (hx : Always p x) (hf : ∀ a, p a → Always q (f a)) :
    Always q (x >>= f) := by
  obtain ⟨y, rfl⟩ := hx
  obtain ⟨k, hk⟩ := Classical.axiomOfChoice fun a : {a // p a} => hf a.1 a.2
  refine ⟨y >>= k, ?_⟩
  rw [map_bind, bind_map_left]
  exact bind_congr hk

/-- In a directory it is the value that a computation gives there. -/
theorem run_workspace {x : StateM Workspace α} (h : Always p x) (w : Workspace) :
    p (x.run w).1 := by
  obtain ⟨y, rfl⟩ := h
  exact (y.run w).1.2

end Always

/-- The run did not end at a rule that is out of normal form. -/
def Outcome.Regular (o : Outcome) : Prop :=
  ∀ rule, o ≠ .broken (.notNormal rule)

/-- The run was stopped, and not at a rule that is out of normal form. -/
structure Outcome.Stopped (o : Outcome) : Prop where
  ne_done : o ≠ .done
  regular : o.Regular

theorem Outcome.stopped_failed : Outcome.failed.Stopped :=
  ⟨nofun, nofun⟩

theorem Outcome.stopped_misused {cause : Misuse} : (Outcome.misused cause).Stopped :=
  ⟨nofun, nofun⟩

theorem Outcome.stopped_broken {cause : Fault} (h : ∀ rule, cause ≠ .notNormal rule) :
    (Outcome.broken cause).Stopped :=
  ⟨nofun, fun rule heq => h rule (Outcome.broken.inj heq)⟩

/-- A run that goes on does so with a value that has the property, and one that ends early does
not end at a rule that is out of normal form. -/
def Ensures {m : Type → Type} [Monad m] {α : Type} (p : α → Prop) (x : Run m α) : Prop :=
  Always (fun | .ok a => p a | .error o => o.Stopped) x.run

variable {m : Type → Type} [Monad m] [LawfulMonad m] {α β : Type} {p : α → Prop}

namespace Ensures

theorem pure {a : α} (h : p a) : Ensures p (Pure.pure a : Run m α) :=
  Always.pure (a := Except.ok a) h

theorem throw {o : Outcome} (h : o.Stopped) : Ensures p (MonadExcept.throw o : Run m α) :=
  Always.pure (a := Except.error o) h

theorem perform {action : m α} : Ensures (fun _ => True) (perform action) := by
  have hrun : (Command.perform action).run = Except.ok <$> action := ExceptT.run_lift action
  rw [Ensures, hrun, map_eq_pure_bind]
  exact (Always.of_forall fun _ => trivial).bind fun a (_ : True) => Always.pure trivial

theorem bind {q : β → Prop} {x : Run m α} {f : α → Run m β} (hx : Ensures p x)
    (hf : ∀ a, p a → Ensures q (f a)) : Ensures q (x >>= f) := by
  rw [Ensures, ExceptT.run_bind]
  refine Always.bind hx fun result hresult => ?_
  cases result with
  | ok a => exact hf a hresult
  | error o => exact Always.pure (a := Except.error o) hresult

theorem andThen {q : β → Prop} {x : Run m α} {f : α → Run m β}
    (hx : Ensures (fun _ => True) x) (hf : ∀ a, Ensures q (f a)) : Ensures q (x >>= f) :=
  hx.bind fun a _ => hf a

theorem forM {f : α → Run m Unit} {xs : List α} (hf : ∀ x, Ensures (fun _ => True) (f x)) :
    Ensures (fun _ => True) (xs.forM f) := by
  induction xs with
  | nil => exact Ensures.pure trivial
  | cons x xs ih => exact (hf x).andThen fun _ => ih

theorem forIn {f : α → Run m Unit} {xs : List α} (hf : ∀ x, Ensures (fun _ => True) (f x)) :
    Ensures (fun _ => True) (ForIn.forIn xs PUnit.unit fun x _ => do
      f x
      return ForInStep.yield PUnit.unit) := by
  induction xs with
  | nil => exact Ensures.pure trivial
  | cons x xs ih =>
    rw [List.forIn_cons, bind_assoc]
    refine (hf x).andThen fun _ => ?_
    rw [pure_bind]
    exact ih

end Ensures

variable [Host m]

theorem ensures_fail {message : String} : Ensures p (fail message : Run m α) :=
  Ensures.perform.andThen fun _ => .throw Outcome.stopped_failed

theorem ensures_inform {o : Options} {message : String} :
    Ensures (fun _ => True) (inform o message : Run m Unit) := by
  rw [inform]
  split
  · exact .pure trivial
  · exact .perform

theorem ensures_display {o : Options} {title : String} {g : Grammar} :
    Ensures (fun _ => True) (display o title g : Run m Unit) := by
  rw [display]
  split
  · exact .pure trivial
  · exact .perform

theorem ensures_opened {result : Except FileFault α} :
    Ensures (fun _ => True) (opened result : Run m α) := by
  cases result with
  | ok a => exact .pure trivial
  | error fault => exact ensures_fail

omit [Host m] in
theorem ensures_named {given : Given} : Ensures (fun _ => True) (named given : Run m String) := by
  cases given with
  | text path => exact .pure trivial
  | nothing => exact .throw (Outcome.stopped_broken nofun)

/-- A fault of what was read is reported where it is one of the grammar, so it does not break the
run. -/
theorem ensures_loaded {result : Except Fault α} (h : ∀ a, result = .ok a → p a) :
    Ensures p (loaded result : Run m α) := by
  cases result with
  | ok a => exact .pure (h a rfl)
  | error fault =>
    rw [loaded]
    split
    · exact ensures_fail
    next hkind =>
      refine .throw (Outcome.stopped_broken ?_)
      rintro rule rfl
      exact hkind rfl

/-- The grammar was read from a listing, or it is the sample grammar. -/
def Loaded (g : Grammar) : Prop :=
  (∃ text start?, Listing.read text start? = .ok g) ∨ sampleGrammar = .ok g

theorem Loaded.wellFormed {g : Grammar} (h : Loaded g) : g.WellFormed := by
  rcases h with ⟨text, start?, hread⟩ | hsample
  · exact Listing.wellFormed_of_read hread
  · exact wellFormed_of_sampleGrammar hsample

/-- The grammar to convert was read, or it is the sample grammar. -/
theorem ensures_load {o : Options} : Ensures Loaded (load o : Run m Grammar) := by
  rw [load]
  split
  next =>
    split
    · exact (Ensures.throw Outcome.stopped_misused).andThen fun _ => ensures_loaded fun _ => .inr
    · exact ensures_loaded fun _ => .inr
  next path =>
    refine Ensures.perform.andThen fun result => ensures_opened.andThen fun text => ?_
    split
    next => exact ensures_loaded fun _ hread => .inl ⟨_, _, hread⟩
    next start => exact ensures_loaded fun _ hread => .inl ⟨_, _, hread⟩
    next =>
      refine (ensures_loaded fun _ _ => trivial).andThen fun _ => ?_
      exact .throw (Outcome.stopped_broken nofun)

theorem ensures_logEvent {o : Options} {e : Event.Record} :
    Ensures (fun _ => True) (logEvent o e : Run m Unit) := by
  rw [logEvent]
  split
  · exact ensures_named.andThen fun path => Ensures.perform.andThen fun stamp => .perform
  · exact .pure trivial

theorem ensures_follow {o : Options} {p : Passage} :
    Ensures (fun _ => True) (follow o p : Run m Unit) := by
  rw [follow]
  refine (Ensures.forIn fun c => ensures_display).andThen fun _ => ?_
  exact ensures_inform.andThen fun _ => ensures_logEvent.andThen fun _ => ensures_display

/-- The conversion of `g` ends with `g'`. -/
def Converts (g g' : Grammar) : Prop :=
  ∃ passages added, normalize.run { grammar := g } = .ok passages ⟨g', added⟩

/-- The conversion of a well-formed grammar does not break a run. -/
theorem ensures_convert {o : Options} {g : Grammar} (h : g.WellFormed) :
    Ensures (Converts g) (convert o g : Run m Grammar) := by
  obtain ⟨c, hturns⟩ := turns_normalize h
  obtain ⟨added', hrun⟩ := hturns []
  have hperform : normalize.perform { grammar := g } = (.ok c.passages, ⟨c.final, added'⟩) := by
    rw [Transform.perform, hrun]
  rw [convert]
  refine ensures_logEvent.andThen fun _ => ?_
  rw [hperform]
  refine (Ensures.forM fun p => ensures_follow).andThen fun _ => ?_
  rw [c.checkNormal_final h]
  exact .pure ⟨c.passages, added', hrun⟩

theorem ensures_save {o : Options} {g : Grammar} :
    Ensures (fun _ => True) (save o g : Run m Unit) := by
  rw [save]
  split
  · refine ensures_named.andThen fun path => Ensures.perform.andThen fun result => ?_
    exact ensures_opened.andThen fun _ => Ensures.perform.andThen fun _ => ensures_inform
  · exact .pure trivial

/-- The part of a run between the reading of a grammar and the writing of the result. -/
def process (o : Options) (g : Grammar) : Run m Grammar := do
  inform o (loadedMessage g)
  display o "Original Grammar" g
  if let some given := o.logFile then
    let path ← named given
    opened (← perform (Host.createFile path))
  convert o g

theorem execute_eq {o : Options} :
    (execute o : Run m Unit) = load o >>= fun g => process o g >>= save o := by
  rw [execute]
  refine bind_congr fun g => ?_
  rw [process]
  cases o.logFile <;> simp

theorem ensures_process {o : Options} {g : Grammar} (h : g.WellFormed) :
    Ensures (Converts g) (process o g : Run m Grammar) := by
  rw [process]
  refine ensures_inform.andThen fun _ => ensures_display.andThen fun _ => ?_
  split
  · refine ensures_named.andThen fun path => Ensures.perform.andThen fun result => ?_
    exact ensures_opened.andThen fun _ => ensures_convert h
  · exact ensures_convert h

theorem ensures_execute {o : Options} : Ensures (fun _ => True) (execute o : Run m Unit) := by
  rw [execute_eq]
  exact ensures_load.bind fun g hg => (ensures_process hg.wellFormed).bind fun _ _ => ensures_save

/-- No run of the command ends at a rule that is out of normal form, whatever its arguments and
its surroundings. -/
theorem run_regular {args : List String} : Always Outcome.Regular (run args : m Outcome) := by
  rw [run]
  split
  next => exact .pure fun _ h => nomatch h
  next => exact (Always.of_forall fun _ => trivial).bind fun _ (_ : True) =>
      .pure fun _ h => nomatch h
  next o hargs =>
    refine Always.bind ensures_execute fun result hresult => ?_
    cases result with
    | ok a => exact .pure fun _ h => nomatch h
    | error outcome => exact .pure hresult.regular

omit [LawfulMonad m] [Host m] [Monad m] in
theorem run_of_execute {σ : Type} [Host (StateM σ)] {args : List String} {o : Options} {s s' : σ}
    {result : Except Outcome Unit} (hargs : Invocation.ofArgs args = .ok (.conversion o)) :
    (ExceptT.run (execute o) : StateM σ _).run s = (result, s') →
    (run args : StateM σ Outcome).run s =
      (match result with | .ok () => .done | .error outcome => outcome, s') := by
  intro h
  rw [run, hargs]
  dsimp only
  rw [StateT.run_bind, h]
  cases result <;> rfl

omit [LawfulMonad m] [Host m] [Monad m] in
/-- What a stage of the conversion establishes, all later checkpoints show: that only the start
symbol has the empty right side, that no right side is one nonterminal, and that no longer right
side contains a terminal. At the end all rules are in normal form, so the check finds nothing, and
no run of the command ends at it. -/
theorem normalize_shapes {r : Revision} (h : r.grammar.WellFormed) :
    (∃ passages r', normalize.run r = .ok passages r' ∧ passages.map Passage.stage = Stage.all ∧
      (∀ p ∈ passages, ∀ k ∈ p.shown, k.grammar.EpsilonAtStart) ∧
      (∀ p ∈ passages, p.stage ≠ .epsilon → ∀ k ∈ p.shown, k.grammar.UnitFree) ∧
      (∀ p ∈ passages, p.stage = .binarization → ∀ k ∈ p.shown, k.grammar.TerminalsIsolated) ∧
      r'.grammar.InNormalForm ∧ r'.grammar.nonNormalRule? = .ok none ∧
      r'.grammar.checkNormal = .ok ()) ∧
    ∀ (m : Type → Type) [Monad m] [LawfulMonad m] [Host m] (args : List String),
      Always Outcome.Regular (run args : m Outcome) := by
  obtain ⟨c, hturns⟩ := turns_normalize h
  obtain ⟨added', hrun⟩ := hturns r.added
  exact ⟨⟨c.passages, ⟨c.final, added'⟩, hrun, c.map_stage, c.epsilonAtStart_shown h,
    c.unitFree_shown h, c.terminalsIsolated_shown, c.inNormalForm_final h,
    c.nonNormalRule?_final h, c.checkNormal_final h⟩, fun m _ _ _ args => run_regular⟩

/-- The conversion of the brackets ends in normal form, and in a directory the command runs
through. -/
theorem normalize_brackets_shapes : Parts.brackets.grammar.WellFormed ∧
    (∃ passages r', normalize.run { grammar := Parts.brackets.grammar } = .ok passages r' ∧
      r'.grammar.InNormalForm) ∧
    ∀ (args : List String) (w : Workspace), ((run args : StateM Workspace Outcome).run w).1.Regular := by
  have hwell := Parts.fit_brackets.wellFormed
  obtain ⟨⟨passages, r', hrun, -, -, -, -, hnormal, -⟩, hregular⟩ :=
    normalize_shapes (r := { grammar := Parts.brackets.grammar }) hwell
  exact ⟨hwell, ⟨passages, r', hrun, hnormal⟩, fun args w =>
    (hregular (StateM Workspace) args).run_workspace w⟩

end ContextFree.Command
