import ContextFree.Proofs.Faults
import ContextFree.Proofs.Storage

/-! # What the parts of a run do

Each part of a run touches no file but the one for events, prints nothing if the options ask for
quiet, and is stopped only for reasons that were provided for. Saving the result comes last and
touches the file for it alone.
-/

namespace ContextFree.Command

open Normalization

variable {σ α β : Type}

/-- What a run gives and the state that it leaves are as stated. -/
def Meets (s : σ) (x : Run (StateM σ) α) (post : Except Outcome α → σ → Prop) : Prop :=
  post (x.run.run s).1 (after x.run s)

namespace Meets

variable {s : σ} {x : Run (StateM σ) α} {post : Except Outcome α → σ → Prop}

theorem bind {post' : Except Outcome β → σ → Prop} {f : α → Run (StateM σ) β}
    (hx : Meets s x post) (hf : ∀ a s', post (.ok a) s' → Meets s' (f a) post')
    (herror : ∀ o s', post (.error o) s' → post' (.error o) s') : Meets s (x >>= f) post' := by
  obtain ⟨result, s', hrun⟩ : ∃ result s', x.run.run s = (result, s') := ⟨_, _, rfl⟩
  rw [Meets, after, hrun] at hx
  rw [Meets, after, ExceptT.run_bind, StateT.run_bind, hrun]
  cases result with
  | ok a => exact hf a s' hx
  | error o => exact herror o s' hx

theorem mono {post' : Except Outcome α → σ → Prop} (hx : Meets s x post)
    (h : ∀ result s', post result s' → post' result s') : Meets s x post' :=
  h _ _ hx

theorem perform {action : StateM σ α} : Meets s (Command.perform action)
    fun result s' => result = .ok (action.run s).1 ∧ s' = after action s :=
  ⟨rfl, rfl⟩

end Meets

/-- The run was stopped for a reason that was provided for, or a setting that is needed is given
without a value. -/
inductive Outcome.Foreseen (o : Options) (why : Prop) : Outcome → Prop
  | failed (hwhy : why) : Foreseen o why .failed
  | misused {cause : Misuse} (hinput : o.input = none) (hstart : o.start.isSome = true) :
    Foreseen o why (.misused cause)
  | startUnnamed (hstart : o.start = some .nothing) : Foreseen o why (.broken .startUnnamed)
  | pathUnnamed (hpath : o.output = some .nothing ∨ o.logFile = some .nothing) :
    Foreseen o why (.broken .pathUnnamed)

theorem Outcome.Foreseen.mono {o : Options} {why why' : Prop} {outcome : Outcome}
    (h : outcome.Foreseen o why) (hwhy : why → why') : outcome.Foreseen o why' := by
  cases h with
  | failed h => exact .failed (hwhy h)
  | misused hinput hstart => exact .misused hinput hstart
  | startUnnamed hstart => exact .startUnnamed hstart
  | pathUnnamed hpath => exact .pathUnnamed hpath

variable [Host (StateM σ)] [Storage σ]

open Storage (view Same)

/-- The file cannot always be opened for writing. -/
def Refuses (σ : Type) [Host (StateM σ)] (path : String) : Prop :=
  ∃ (s : σ) (fault : FileFault), ((Host.createFile path : StateM σ _).run s).1 = .error fault

/-- The path does not lead to the file for events. -/
def Options.Clears (σ : Type) [Host (StateM σ)] [Storage σ] (o : Options) (path : String) : Prop :=
  ∀ log, o.logFile = some (.text log) → ¬Same σ log path

/-- Between two states nothing is seen but the file for events and what is printed, and nothing
is printed if the options ask for quiet. -/
structure Discreet (o : Options) (s s' : σ) : Prop where
  stored : ∀ path, o.Clears σ path → (view s').stored path = (view s).stored path
  printed : o.quiet = true → (view s').printed = (view s).printed

namespace Discreet

variable {o : Options} {s s' s'' : σ}

theorem of_eq (h : view s' = view s) : Discreet o s s' :=
  ⟨fun _ _ => by rw [h], fun _ => by rw [h]⟩

theorem trans (h : Discreet o s s') (h' : Discreet o s' s'') : Discreet o s s'' :=
  ⟨fun path hpath => (h'.stored path hpath).trans (h.stored path hpath),
    fun hquiet => (h'.printed hquiet).trans (h.printed hquiet)⟩

theorem print {text : String} (h : o.quiet ≠ true) :
    Discreet o s (after (Host.print text) s) where
  stored path _ := by rw [Storage.stored_print]
  printed hquiet := absurd hquiet h

theorem createFile {log : String} (h : o.logFile = some (.text log)) :
    Discreet o s (after (Host.createFile log) s) where
  stored path hpath := Storage.stored_createFile_of_not_same log path s (hpath log h)
  printed _ := Storage.printed_createFile log s

theorem appendFile {log text : String} (h : o.logFile = some (.text log)) :
    Discreet o s (after (Host.appendFile log text) s) where
  stored path hpath := Storage.stored_appendFile_of_not_same log text path s (hpath log h)
  printed _ := Storage.printed_appendFile log text s

end Discreet

/-- A part of a run that is discreet, and that goes on with a value that has the property or was
stopped for a reason that was provided for. -/
def Passes (o : Options) (why : Prop) (p : α → Prop) (s : σ) (x : Run (StateM σ) α) : Prop :=
  Meets s x fun result s' => Discreet o s s' ∧
    match result with
    | .ok a => p a
    | .error outcome => outcome.Foreseen o why

variable {o : Options} {why : Prop} {p : α → Prop} {s : σ}

namespace Passes

theorem pure {a : α} (h : p a) : Passes o why p s (Pure.pure a) :=
  ⟨.of_eq rfl, h⟩

theorem throw {outcome : Outcome} (h : outcome.Foreseen o why) :
    Passes o why p s (MonadExcept.throw outcome) :=
  ⟨.of_eq rfl, h⟩

theorem perform {action : StateM σ α} (h : Discreet o s (after action s)) :
    Passes o why (fun a => a = (action.run s).1) s (perform action) :=
  ⟨h, rfl⟩

theorem bind {q : β → Prop} {x : Run (StateM σ) α} {f : α → Run (StateM σ) β}
    (hx : Passes o why p s x) (hf : ∀ a s', p a → Passes o why q s' (f a)) :
    Passes o why q s (x >>= f) :=
  Meets.bind hx
    (fun a s' ha => Meets.mono (hf a s' ha.2) fun _ _ h => ⟨ha.1.trans h.1, h.2⟩) fun _ _ h => h

theorem mono {q : α → Prop} {x : Run (StateM σ) α} (hx : Passes o why p s x)
    (h : ∀ a, p a → q a) : Passes o why q s x := by
  refine Meets.mono hx fun result _ hresult => ⟨hresult.1, ?_⟩
  cases result with
  | ok a => exact h a hresult.2
  | error outcome => exact hresult.2

theorem forM {f : α → Run (StateM σ) Unit} {xs : List α}
    (hf : ∀ x s, Passes o why (fun _ => True) s (f x)) :
    Passes o why (fun _ => True) s (xs.forM f) := by
  induction xs generalizing s with
  | nil => exact pure trivial
  | cons x xs ih => exact (hf x s).bind fun _ _ _ => ih

theorem forIn {f : α → Run (StateM σ) Unit} {xs : List α}
    (hf : ∀ x s, Passes o why (fun _ => True) s (f x)) :
    Passes o why (fun _ => True) s (ForIn.forIn xs PUnit.unit fun x _ => do
      f x
      return ForInStep.yield PUnit.unit) := by
  induction xs generalizing s with
  | nil => exact pure trivial
  | cons x xs ih =>
    rw [List.forIn_cons, bind_assoc]
    refine (hf x s).bind fun _ _ _ => ?_
    rw [pure_bind]
    exact ih

end Passes

theorem meets_fail {message : String} : Meets s (fail message : Run (StateM σ) α)
    fun result s' => result = .error .failed ∧ view s' = view s :=
  ⟨rfl, Storage.view_report _ s⟩

theorem meets_inform {message : String} : Meets s (inform o message)
    fun result s' => result = .ok () ∧ view s' = view s := by
  rw [inform]
  split
  · exact ⟨rfl, rfl⟩
  · exact ⟨rfl, Storage.view_report _ s⟩

theorem passes_fail {message : String} (h : why) : Passes o why p s (fail message) :=
  meets_fail.mono fun _ _ ⟨hresult, hview⟩ => ⟨.of_eq hview, hresult ▸ .failed h⟩

theorem passes_inform {message : String} : Passes o why (fun _ => True) s (inform o message) :=
  meets_inform.mono fun _ _ ⟨hresult, hview⟩ => ⟨.of_eq hview, hresult ▸ trivial⟩

theorem passes_display {title : String} {g : Grammar} :
    Passes o why (fun _ => True) s (display o title g) := by
  rw [display]
  split
  · exact .pure trivial
  next hloud => exact (Passes.perform (.print hloud)).mono fun _ _ => trivial

theorem passes_opened {result : Except FileFault α}
    (h : ∀ fault, result = .error fault → why) :
    Passes o why (fun a => result = .ok a) s (opened result) := by
  cases result with
  | ok a => exact .pure rfl
  | error fault => exact passes_fail (h fault rfl)

theorem passes_named {given : Given} (h : o.output = some given ∨ o.logFile = some given) :
    Passes o why (fun path => given = .text path) s (named given) := by
  cases given with
  | text path => exact .pure rfl
  | nothing => exact .throw (.pathUnnamed h)

theorem passes_loaded {result : Except Fault α} (hvetted : Vetted result)
    (h : ∀ fault, result = .error fault → why) :
    Passes o why (fun a => result = .ok a) s (loaded result) := by
  cases result with
  | ok a => exact .pure rfl
  | error fault =>
    rw [loaded, if_pos (hvetted fault rfl)]
    exact passes_fail (h fault rfl)

/-- The grammar is the one that is read from the input, or the sample grammar. -/
def Loads (input : Option String) (start : Option Name) (s : σ) (g : Grammar) : Prop :=
  match input with
  | none => sampleGrammar = .ok g
  | some path => ∃ text, ((Host.readFile path : StateM σ _).run s).1 = .ok text ∧
      Listing.read text start = .ok g

omit [Storage σ] in
theorem Loads.loaded {input : Option String} {start : Option Name} {g : Grammar}
    (h : Loads input start s g) : Loaded g := by
  cases input with
  | none => exact .inr h
  | some path =>
    obtain ⟨text, -, hread⟩ := h
    exact .inl ⟨text, start, hread⟩

/-- The grammar is the one for which the options ask. -/
def Options.Loads (o : Options) (s : σ) (g : Grammar) : Prop :=
  ∃ start : Option Name, o.start = start.map .text ∧ Command.Loads o.input start s g

omit [Storage σ] in
theorem loads_of_sample {g : Grammar} (hinput : o.input = none) (hstart : o.start = none) :
    o.Loads s g ↔ sampleGrammar = .ok g := by
  rw [Options.Loads, hinput, hstart]
  exact ⟨fun ⟨_, _, h⟩ => h, fun h => ⟨none, rfl, h⟩⟩

omit [Storage σ] in
theorem loads_of_text {path text : String} {start : Option Name} {g : Grammar}
    (hinput : o.input = some path) (hstart : o.start = start.map .text)
    (htext : ((Host.readFile path : StateM σ _).run s).1 = .ok text) :
    o.Loads s g ↔ Listing.read text start = .ok g := by
  rw [Options.Loads, hinput]
  constructor
  · rintro ⟨start', hstart', text', htext', hread⟩
    have heq : start = start' :=
      Option.map_injective (fun _ _ => Given.text.inj) (hstart.symm.trans hstart')
    rw [heq, Except.ok.inj (htext.symm.trans htext')]
    exact hread
  · exact fun h => ⟨start, hstart, text, htext, h⟩

omit [Storage σ] in
theorem not_loads_of_error {result : Except Fault Grammar}
    (h : ∀ g, o.Loads s g ↔ result = .ok g) (fault : Fault) (hfault : result = .error fault) :
    ¬∃ g, o.Loads s g := by
  rintro ⟨g, hg⟩
  cases hfault.symm.trans ((h g).1 hg)

omit [Storage σ] in
theorem not_loads_of_fault {path : String} {fault : FileFault} (hinput : o.input = some path)
    (hfault : ((Host.readFile path : StateM σ _).run s).1 = .error fault) :
    ¬∃ g, o.Loads s g := by
  rintro ⟨g, start, -, hloads⟩
  rw [hinput] at hloads
  obtain ⟨text, htext, -⟩ := hloads
  cases hfault.symm.trans htext

omit [Storage σ] in
theorem not_loads_of_nothing (hstart : o.start = some .nothing) : ¬∃ g, o.Loads s g := by
  rintro ⟨g, start, hgiven, -⟩
  cases start <;> cases hstart.symm.trans hgiven

/-- Loading ends with a result that tells which grammar the options ask for. -/
theorem passes_loaded_of_iff {s' : σ} {result : Except Fault Grammar} (hvetted : Vetted result)
    (h : ∀ g, o.Loads s g ↔ result = .ok g) :
    Passes o (¬∃ g, o.Loads s g) (o.Loads s) s' (loaded result) :=
  (passes_loaded hvetted (not_loads_of_error h)).mono fun g => (h g).2

/-- Loading is stopped if there is no grammar to load. -/
theorem passes_load : Passes o (¬∃ g, o.Loads s g) (o.Loads s) s (load o) := by
  rw [load]
  split
  next hinput =>
    split
    next hstart =>
      exact (Passes.throw (p := fun _ => False) (.misused hinput hstart)).bind fun _ _ h => h.elim
    next hstart =>
      have hnone : o.start = none := by simpa using hstart
      exact passes_loaded_of_iff Spelling.vetted_grammar fun g => loads_of_sample hinput hnone
  next path hinput =>
    refine (Passes.perform (.of_eq (Storage.view_readFile path s))).bind fun result s' hresult => ?_
    have hfile : ∀ fault, result = .error fault → ¬∃ g, o.Loads s g := fun fault hfault =>
      not_loads_of_fault hinput (hresult.symm.trans hfault)
    refine (passes_opened hfile).bind fun text s'' htext => ?_
    have hread := hresult.symm.trans htext
    split
    next hstart =>
      exact passes_loaded_of_iff Listing.vetted_read fun g => loads_of_text hinput hstart hread
    next start hstart =>
      have hgiven : o.start = (some start).map .text := hstart
      exact passes_loaded_of_iff Listing.vetted_read fun g => loads_of_text hinput hgiven hread
    next hstart =>
      -- The text is checked, though nothing is read from it without a start symbol.
      refine (passes_loaded Listing.vetted_check fun _ _ => not_loads_of_nothing hstart).bind
        fun _ _ _ => ?_
      exact .throw (.startUnnamed hstart)

theorem passes_logEvent {e : Event.Record} : Passes o why (fun _ => True) s (logEvent o e) := by
  rw [logEvent]
  split
  next given hlog =>
    refine (passes_named (.inr hlog)).bind fun path s' hpath => ?_
    refine (Passes.perform (.of_eq (Storage.view_now s'))).bind fun stamp s'' _ => ?_
    exact (Passes.perform (.appendFile (hpath ▸ hlog))).mono fun _ _ => trivial
  next => exact .pure trivial

theorem passes_follow {p : Passage} : Passes o why (fun _ => True) s (follow o p) := by
  rw [follow]
  refine (Passes.forIn fun c s => passes_display).bind fun _ _ _ => ?_
  exact passes_inform.bind fun _ _ _ => passes_logEvent.bind fun _ _ _ => passes_display

/-- The conversion of a well-formed grammar is not stopped for any reason of its own. -/
theorem passes_convert {g : Grammar} (h : g.WellFormed) :
    Passes o why (Converts g) s (convert o g) := by
  obtain ⟨c, hturns⟩ := turns_normalize h
  obtain ⟨added, hrun⟩ := hturns []
  have hperform : normalize.perform { grammar := g } = (.ok c.passages, ⟨c.final, added⟩) := by
    rw [Transform.perform, hrun]
  rw [convert]
  refine passes_logEvent.bind fun _ _ _ => ?_
  rw [hperform]
  refine (Passes.forM fun p s => passes_follow).bind fun _ _ _ => ?_
  rw [c.checkNormal_final h]
  exact .pure ⟨c.passages, added, hrun⟩

/-- A file that was asked for cannot always be opened for writing. -/
def Options.Refused (σ : Type) [Host (StateM σ)] (o : Options) : Prop :=
  ∃ path, (o.output = some (.text path) ∨ o.logFile = some (.text path)) ∧ Refuses σ path

theorem passes_process {g : Grammar} (h : g.WellFormed) :
    Passes o (o.Refused σ) (Converts g) s (process o g) := by
  rw [process]
  refine passes_inform.bind fun _ _ _ => passes_display.bind fun _ _ _ => ?_
  split
  next given hlog =>
    refine (passes_named (.inr hlog)).bind fun path s' hpath => ?_
    have hpath : o.logFile = some (.text path) := hpath ▸ hlog
    refine (Passes.perform (.createFile hpath)).bind fun result s'' hresult => ?_
    refine (passes_opened fun fault hfault => ?_).bind fun _ _ _ => passes_convert h
    exact ⟨path, .inr hpath, s', fault, hresult.symm.trans hfault⟩
  next => exact passes_convert h

/-- What saving a grammar gives and leaves. -/
structure Saves (o : Options) (g : Grammar) (s : σ) (result : Except Outcome Unit) (s' : σ) :
    Prop where
  /-- Saving is stopped if the file cannot be opened. -/
  ends : ∀ outcome, result = .error outcome → outcome.Foreseen o (o.Refused σ)
  /-- On success the file holds the listing. -/
  saved : result = .ok () → ∀ given, o.output = some given → ∃ path, given = .text path ∧
    (view s').stored path = some (Listing.write g)
  /-- Other files are left alone, and so is this one otherwise. -/
  stored : ∀ other, (result = .ok () → ∀ path, o.output = some (.text path) → ¬Same σ path other) →
    (view s').stored other = (view s).stored other
  printed : (view s').printed = (view s).printed

namespace Saves

variable {g : Grammar} {s' : σ} {path : String}

theorem of_error {outcome : Outcome} (houtcome : outcome.Foreseen o (o.Refused σ))
    (hstored : (view s').stored = (view s).stored)
    (hprinted : (view s').printed = (view s).printed) : Saves o g s (.error outcome) s' where
  ends
    | _, rfl => houtcome
  saved h := by cases h
  stored _ _ := by rw [hstored]
  printed := hprinted

theorem of_unasked (h : ∀ given, o.output ≠ some given) : Saves o g s (.ok ()) s where
  ends _ houtcome := by cases houtcome
  saved _ given hgiven := absurd hgiven (h given)
  stored _ _ := rfl
  printed := rfl

/-- A file that could be opened holds what is then written. -/
theorem of_created (houtput : o.output = some (.text path))
    (hcreate : ((Host.createFile path : StateM σ _).run s).1 = .ok ())
    (hview : view s' = view (after (Host.appendFile path (Listing.write g))
      (after (Host.createFile path) s))) : Saves o g s (.ok ()) s' where
  ends _ h := by cases h
  saved
    | _, given, hgiven => by
      have hempty := Storage.stored_createFile path s hcreate
      refine ⟨path, Option.some.inj (hgiven.symm.trans houtput), ?_⟩
      rw [hview, Storage.stored_appendFile path _ _ "" hempty, String.empty_append]
  stored other hother := by
    have hsame : ¬Same σ path other := hother rfl path houtput
    rw [hview, Storage.stored_appendFile_of_not_same path _ other _ hsame,
      Storage.stored_createFile_of_not_same path other s hsame]
  printed := by
    rw [hview, Storage.printed_appendFile, Storage.printed_createFile]

end Saves

/-- A file is made empty first, and the listing is written if that is possible. -/
theorem meets_write {g : Grammar} {path : String} (houtput : o.output = some (.text path)) :
    Meets s (do
      opened (← perform (Host.createFile path))
      perform (Host.appendFile path (Listing.write g))
      inform o ("wrote grammar to " ++ path)) (Saves o g s) := by
  refine Meets.perform.bind ?_ fun _ _ h => by cases h.1
  rintro created _ ⟨hcreated, rfl⟩
  have hcreated := (Except.ok.inj hcreated).symm
  -- If the file cannot be made, the run stops before a line of it is written.
  cases created with
  | error fault =>
    refine meets_fail.bind (fun _ _ h => by cases h.1) ?_
    rintro _ s' ⟨heq, hview⟩
    cases heq
    refine .of_error (.failed ⟨path, .inl houtput, s, fault, hcreated⟩) ?_ ?_
    · rw [hview, Storage.stored_createFile_error path s fault hcreated]
    · rw [hview, Storage.printed_createFile]
  | ok _ =>
    have hopened : (opened (.ok ()) : Run (StateM σ) Unit) = pure () := rfl
    rw [hopened, pure_bind]
    refine Meets.perform.bind ?_ fun _ _ h => by cases h.1
    rintro _ _ ⟨-, rfl⟩
    refine meets_inform.mono ?_
    rintro _ s' ⟨rfl, hview⟩
    exact .of_created houtput hcreated hview

theorem meets_save {g : Grammar} : Meets s (save o g) (Saves o g s) := by
  rw [save]
  split
  next given houtput =>
    cases given with
    | nothing => exact .of_error (.pathUnnamed (.inl houtput)) rfl rfl
    | text path =>
      have hnamed : (named (.text path) : Run (StateM σ) String) = pure path := rfl
      rw [hnamed, pure_bind]
      exact meets_write houtput
  next hnone => exact .of_unasked hnone

/-- What a conversion gives and leaves. -/
structure Executes (o : Options) (s : σ) (result : Except Outcome Unit) (s' : σ) : Prop where
  ends : ∀ outcome, result = .error outcome →
    outcome.Foreseen o ((¬∃ g, o.Loads s g) ∨ o.Refused σ)
  saved : result = .ok () → ∀ given, o.output = some given → ∃ path g g', given = .text path ∧
    o.Loads s g ∧ Converts g g' ∧ (view s').stored path = some (Listing.write g')
  stored : ∀ other, o.Clears σ other →
    (result = .ok () → ∀ path, o.output = some (.text path) → ¬Same σ path other) →
      (view s').stored other = (view s).stored other
  printed : o.quiet = true → (view s').printed = (view s).printed

theorem Executes.of_stopped {s' : σ} {outcome : Outcome} (hdiscreet : Discreet o s s')
    (houtcome : outcome.Foreseen o ((¬∃ g, o.Loads s g) ∨ o.Refused σ)) :
    Executes o s (.error outcome) s' where
  ends
    | _, rfl => houtcome
  saved h := by cases h
  stored other hother _ := hdiscreet.stored other hother
  printed := hdiscreet.printed

theorem meets_execute : Meets s (execute o) (Executes o s) := by
  rw [execute_eq]
  refine Meets.bind passes_load ?_ fun outcome s' h => .of_stopped h.1 (h.2.mono .inl)
  rintro g s' ⟨hload, hg⟩
  have hwell : g.WellFormed := by
    obtain ⟨start, -, hloads⟩ := hg
    exact hloads.loaded.wellFormed
  refine Meets.bind (passes_process hwell) ?_
    fun outcome s'' h => .of_stopped (hload.trans h.1) (h.2.mono .inr)
  rintro g' s'' ⟨hprocess, hg'⟩
  have hdiscreet := hload.trans hprocess
  refine meets_save.mono fun result s''' hsave => ?_
  exact {
    ends := fun outcome h => (hsave.ends outcome h).mono .inr
    saved := fun h given hgiven => by
      obtain ⟨path, hpath, hstored⟩ := hsave.saved h given hgiven
      exact ⟨path, g, g', hpath, hg, hg', hstored⟩
    stored := fun other hother h =>
      (hsave.stored other h).trans (hdiscreet.stored other hother)
    printed := fun hquiet => hsave.printed.trans (hdiscreet.printed hquiet) }

theorem executes_of_run {result : Except Outcome Unit} {s' : σ}
    (h : (ExceptT.run (execute o) : StateM σ _).run s = (result, s')) : Executes o s result s' := by
  have hmeets : Meets s (execute o) (Executes o s) := meets_execute
  rwa [Meets, after, h] at hmeets

omit [Storage σ] in
/-- A start symbol without an input is no conversion. -/
theorem execute_of_start_alone (hinput : o.input = none) (hstart : o.start.isSome = true) :
    (execute o : Run (StateM σ) Unit) = throw (.misused .startWithoutInput) := by
  have hload : (load o : Run (StateM σ) Grammar) = throw (.misused .startWithoutInput) := by
    rw [load, hinput]
    dsimp only
    rw [if_pos hstart]
    rfl
  rw [execute_eq, hload]
  rfl

end ContextFree.Command
