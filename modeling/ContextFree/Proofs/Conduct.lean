import ContextFree.Proofs.Arguments
import ContextFree.Proofs.Execution

/-! # How runs end and what they leave

However a command line is put, its run ends in a way that was provided for, unless a setting has
the separator for its value. The result is written where it was asked for, whatever else was asked
for; a run that does not end well leaves that file alone, and a quiet run prints nothing.
-/

namespace ContextFree.Command

open Storage (view Same)

variable {σ : Type} [Host (StateM σ)] [Storage σ] {o : Options} {s : σ}

namespace Line

variable {l : Line} {args : List String} {s' : σ}

/-- A setting has the separator for its value, behind an equals sign. -/
def Hollow (l : Line) (i : Setting) : Prop :=
  ∃ e ∈ l.values i, e.glued = true ∧ e.value = Argument.separatorWord

/-- The command line makes no sense: an option lacks its value, or a start symbol is given for
no input. -/
def Senseless (l : Line) : Prop :=
  ¬l.Sound ∨ l.input = none ∧ (l.values .start).isSome = true

/-- The grammar is the one that is read from the input with the start symbol that is given, or
the sample grammar. -/
def Loads (l : Line) (s : σ) (g : Grammar) : Prop :=
  Command.Loads l.input ((l.values .start).map Entry.value) s g

/-- How a run may end, and for which reasons. -/
inductive Ends (l : Line) (s : σ) : Outcome → Prop
  | done : Ends l s .done
  | failed (hwhy : l.Hollow .start ∨ (¬∃ g, l.Loads s g) ∨
      ∃ i ∈ [Setting.output, .logFile], ∃ e ∈ l.values i, Refuses σ e.value) : Ends l s .failed
  | misused {cause : Misuse} (hsense : l.Senseless) : Ends l s (.misused cause)
  | startUnnamed (hstart : l.Hollow .start) : Ends l s (.broken .startUnnamed)
  | pathUnnamed (hpath : l.Hollow .output ∨ l.Hollow .logFile) : Ends l s (.broken .pathUnnamed)

/-- What is right for a run that starts in one state and ends in another. -/
structure Conduct (l : Line) (s : σ) (outcome : Outcome) (s' : σ) : Prop where
  ends : l.Ends s outcome
  /-- Arguments without sense are always refused. -/
  misused : l.Senseless → ∃ cause, outcome = .misused cause
  /-- What was asked for holds the result, whatever else was asked for. -/
  written : outcome = .done → ∀ e ∈ l.values .output, ∃ g g', l.Loads s g ∧ Converts g g' ∧
    (view s').stored e.value = some (Listing.write g')
  /-- A file is left alone unless the events are written to it, or a run that ends well writes its
  result to it. -/
  spared : ∀ path, (∀ e ∈ l.values .logFile, ¬Same σ e.value path) →
    (outcome = .done → ∀ e ∈ l.values .output, ¬Same σ e.value path) →
      (view s').stored path = (view s).stored path
  /-- A quiet run prints nothing. -/
  silent : l.quiet = true → (view s').printed = (view s).printed

/-- Only behind an equals sign a separator may be taken for a value. -/
theorem hollow_of_given (hsound : l.Sound) {i : Setting} {e : Entry} (he : e ∈ l.values i)
    (h : e.value = Argument.separatorWord) : l.Hollow i := by
  refine ⟨e, he, ?_, h⟩
  rw [← Bool.not_eq_false]
  exact fun hglued => (hsound i e he hglued).ne_separatorWord h

theorem hollow_of_map (hsound : l.Sound) {i : Setting}
    (h : (l.values i).map Entry.given = some .nothing) : l.Hollow i := by
  obtain ⟨e, he, hgiven⟩ := Option.map_eq_some_iff.1 h
  exact hollow_of_given hsound he (Entry.given_eq_nothing.1 hgiven)

theorem exists_value {i : Setting} {path : String}
    (h : (l.values i).map Entry.given = some (.text path)) : ∃ e ∈ l.values i, e.value = path := by
  obtain ⟨e, he, hgiven⟩ := Option.map_eq_some_iff.1 h
  exact ⟨e, he, Entry.value_eq_of_given hgiven⟩

omit [Storage σ] in
theorem loads_of_options {g : Grammar} (h : l.options.Loads s g) : l.Loads s g := by
  obtain ⟨start, hstart, hloads⟩ := h
  have hgiven : (l.values .start).map Entry.given = start.map .text := hstart
  have heq : (l.values .start).map Entry.value = start := by
    cases start with
    | none => rw [Option.map_eq_none_iff.1 hgiven, Option.map_none]
    | some name =>
      obtain ⟨e, he, rfl⟩ := exists_value hgiven
      exact congrArg (Option.map Entry.value) he
  rw [Loads, heq]
  exact hloads

omit [Storage σ] in
theorem options_loads {g : Grammar} (hsound : l.Sound) (hstart : ¬l.Hollow .start)
    (h : l.Loads s g) : l.options.Loads s g := by
  refine ⟨(l.values .start).map Entry.value, ?_, h⟩
  change (l.values .start).map Entry.given = _
  rw [Option.map_map]
  refine Option.map_congr fun e he => ?_
  rw [Function.comp_apply, Entry.given, Given.ofText, if_neg]
  exact fun hvalue => hstart (hollow_of_given hsound he hvalue)

omit [Storage σ] in
/-- The reasons for which a run of the options is stopped are reasons of the line. -/
theorem ends_of_foreseen {outcome : Outcome} (hsound : l.Sound)
    (h : outcome.Foreseen l.options ((¬∃ g, l.options.Loads s g) ∨ l.options.Refused σ)) :
    l.Ends s outcome := by
  cases h with
  | failed hwhy =>
    -- An empty start option counts as the fault, whatever else went wrong.
    by_cases hhollow : l.Hollow .start
    · exact .failed (.inl hhollow)
    · refine .failed (.inr (hwhy.imp ?_ ?_))
      · rintro hnone ⟨g, hg⟩
        exact hnone ⟨g, options_loads hsound hhollow hg⟩
      · rintro ⟨path, hgiven, hrefuses⟩
        rcases hgiven with hgiven | hgiven
        · obtain ⟨e, he, rfl⟩ := exists_value hgiven
          exact ⟨.output, by simp, e, he, hrefuses⟩
        · obtain ⟨e, he, rfl⟩ := exists_value hgiven
          exact ⟨.logFile, by simp, e, he, hrefuses⟩
  | misused hinput hstart =>
    refine .misused (.inr ⟨hinput, ?_⟩)
    have hgiven : ((l.values .start).map Entry.given).isSome = true := hstart
    rwa [Option.isSome_map] at hgiven
  | startUnnamed hstart => exact .startUnnamed (hollow_of_map hsound hstart)
  | pathUnnamed hpath =>
    exact .pathUnnamed (hpath.imp (hollow_of_map hsound) (hollow_of_map hsound))

theorem conduct_of_not_sound {outcome : Outcome} (h : l.PutAs args) (hunsound : ¬l.Sound)
    (hrun : (run args : StateM σ Outcome).run s = (outcome, s')) : l.Conduct s outcome s' := by
  obtain ⟨cause, hargs⟩ := ofArgs_of_not_sound h hunsound
  have hmisused : (run args : StateM σ Outcome).run s = (.misused cause, s) := by
    rw [run, hargs]
    rfl
  rw [hmisused] at hrun
  cases hrun
  exact {
    ends := .misused (.inl hunsound)
    misused := fun _ => ⟨cause, rfl⟩
    written := fun h => by cases h
    spared := fun _ _ _ => rfl
    silent := fun _ => rfl }

theorem clears_options {path : String} (h : ∀ e ∈ l.values .logFile, ¬Same σ e.value path) :
    l.options.Clears σ path := by
  intro log hlog
  obtain ⟨e, he, rfl⟩ := exists_value hlog
  exact h e he

omit [Storage σ] in
theorem result_of_senseless {result : Except Outcome Unit} (hsound : l.Sound)
    (hresult : (ExceptT.run (execute l.options) : StateM σ _).run s = (result, s'))
    (h : l.Senseless) : result = .error (.misused .startWithoutInput) := by
  obtain ⟨hinput, hstart⟩ := h.resolve_left (not_not_intro hsound)
  have hgiven : l.options.start.isSome = true := by
    change ((l.values .start).map Entry.given).isSome = true
    rwa [Option.isSome_map]
  rw [execute_of_start_alone hinput hgiven] at hresult
  cases hresult
  rfl

theorem conduct_of_sound {outcome : Outcome} (h : l.PutAs args) (hsound : l.Sound)
    (hrun : (run args : StateM σ Outcome).run s = (outcome, s')) : l.Conduct s outcome s' := by
  obtain ⟨result, s'', hresult⟩ : ∃ result s'',
    (ExceptT.run (execute l.options) : StateM σ _).run s = (result, s'') := ⟨_, _, rfl⟩
  have hexecutes := executes_of_run hresult
  have hsense := result_of_senseless hsound hresult
  rw [run_of_execute (ofArgs_of_sound h hsound) hresult] at hrun
  cases result with
  | error outcome =>
    cases hrun
    have hforeseen := hexecutes.ends outcome rfl
    have hne : outcome ≠ .done := by
      rintro rfl
      cases hforeseen
    exact {
      ends := ends_of_foreseen hsound hforeseen
      misused := fun h => ⟨_, Except.error.inj (hsense h)⟩
      written := fun hdone => absurd hdone hne
      spared := fun path hlog _ => hexecutes.stored path (clears_options hlog) fun h => by
        cases h
      silent := hexecutes.printed }
  | ok _ =>
    cases hrun
    exact {
      ends := .done
      misused := fun h => by cases hsense h
      written := fun _ e he => by
        have hgiven : l.options.output = some e.given := congrArg (Option.map _) he
        obtain ⟨path, g, g', hpath, hg, hg', hstored⟩ := hexecutes.saved rfl _ hgiven
        exact ⟨g, g', loads_of_options hg, hg', Entry.value_eq_of_given hpath ▸ hstored⟩
      spared := fun path hlog hout => hexecutes.stored path (clears_options hlog) fun _ => by
        intro name hname
        obtain ⟨e, he, rfl⟩ := exists_value hname
        exact hout rfl e he
      silent := hexecutes.printed }

omit [Storage σ] in
/-- A run with a grammar and with files that can be opened ends well, unless a path is asked for
but not given. -/
theorem Ends.eq_done_or {outcome : Outcome} (h : l.Ends s outcome) (hsense : ¬l.Senseless)
    (hstart : ¬l.Hollow .start) (hloads : ∃ g, l.Loads s g)
    (hopen : ∀ i, ∀ e ∈ l.values i, ¬Refuses σ e.value) : outcome = .done ∨
      outcome = .broken .pathUnnamed ∧ (l.Hollow .output ∨ l.Hollow .logFile) := by
  cases h with
  | done => exact .inl rfl
  | failed hwhy =>
    rcases hwhy with hhollow | hnone | ⟨i, -, e, he, hrefuses⟩
    · exact absurd hhollow hstart
    · exact absurd hloads hnone
    · exact absurd hrefuses (hopen i e he)
  | misused h => exact absurd h hsense
  | startUnnamed hhollow => exact absurd hhollow hstart
  | pathUnnamed hpath => exact .inr ⟨rfl, hpath⟩

/-- No run ends well that is to write its result to the separator. -/
theorem ne_done_of_hollow {outcome : Outcome} (h : l.PutAs args) (hsound : l.Sound)
    (hhollow : l.Hollow .output)
    (hrun : (run args : StateM σ Outcome).run s = (outcome, s')) : outcome ≠ .done := by
  obtain ⟨result, s'', hresult⟩ : ∃ result s'',
    (ExceptT.run (execute l.options) : StateM σ _).run s = (result, s'') := ⟨_, _, rfl⟩
  have hexecutes := executes_of_run hresult
  rw [run_of_execute (ofArgs_of_sound h hsound) hresult] at hrun
  cases result with
  | error outcome =>
    cases hrun
    rintro rfl
    cases hexecutes.ends .done rfl
  | ok _ =>
    obtain ⟨e, he, -, hvalue⟩ := hhollow
    have hgiven : l.options.output = some e.given := congrArg (Option.map _) he
    obtain ⟨path, -, -, hpath, -⟩ := hexecutes.saved rfl _ hgiven
    rw [Entry.given_eq_nothing.2 hvalue] at hpath
    cases hpath

/-- The command lines ask for the same grammar, and they find the same text in their input. -/
def Agrees (l₁ l₂ : Line) (s₁ s₂ : σ) : Prop :=
  l₁.input = l₂.input ∧
    (l₁.values .start).map Entry.value = (l₂.values .start).map Entry.value ∧
    ∀ path ∈ l₁.input, ((Host.readFile path : StateM σ _).run s₁).1 =
      ((Host.readFile path : StateM σ _).run s₂).1

omit [Storage σ] in
theorem Agrees.eq_of_loads {l₁ l₂ : Line} {s₁ s₂ : σ} {g₁ g₂ : Grammar}
    (h : l₁.Agrees l₂ s₁ s₂) (h₁ : l₁.Loads s₁ g₁) (h₂ : l₂.Loads s₂ g₂) : g₁ = g₂ := by
  obtain ⟨hinput, hstart, htexts⟩ := h
  rw [Loads, ← hinput, ← hstart] at h₂
  rw [Loads] at h₁
  cases hpath : l₁.input with
  | none =>
    rw [hpath] at h₁ h₂
    exact Except.ok.inj (h₁.symm.trans h₂)
  | some path =>
    rw [hpath] at h₁ h₂
    obtain ⟨text₁, htext₁, hread₁⟩ := h₁
    obtain ⟨text₂, htext₂, hread₂⟩ := h₂
    have htext := htext₁.symm.trans ((htexts path hpath).trans htext₂)
    rw [Except.ok.inj htext] at hread₁
    exact Except.ok.inj (hread₁.symm.trans hread₂)

omit [Host (StateM σ)] [Storage σ] in
theorem eq_of_converts {g g₁ g₂ : Grammar} (h₁ : Converts g g₁) (h₂ : Converts g g₂) : g₁ = g₂ := by
  obtain ⟨passages₁, added₁, hrun₁⟩ := h₁
  obtain ⟨passages₂, added₂, hrun₂⟩ := h₂
  cases hrun₁.symm.trans hrun₂
  rfl

theorem conduct {outcome : Outcome} (h : l.PutAs args)
    (hrun : (run args : StateM σ Outcome).run s = (outcome, s')) : l.Conduct s outcome s' := by
  by_cases hsound : l.Sound
  · exact conduct_of_sound h hsound hrun
  · exact conduct_of_not_sound h hsound hrun

end Line

/-- A command line that converts the grammar with an arrow. -/
def arrowLine (values : Setting → Option Entry) (quiet : Bool) : Line where
  input := some "g.txt"
  values
  quiet
  isValue_input := by
    rintro _ ⟨⟩
    rfl

/-- The result is to be written to one file and the events to another. -/
def loggedLine : Line :=
  arrowLine (fun
    | .start => none
    | .output => some ⟨"h.txt", false⟩
    | .logFile => some ⟨"e.log", true⟩) false

/-- The result is to be written, and nothing is to be printed. -/
def quietLine : Line :=
  arrowLine (fun | .output => some ⟨"k.txt", true⟩ | _ => none) true

/-- The separator stands in the place of the file for the result. -/
def separatorLine : Line :=
  arrowLine (fun | .output => some ⟨Argument.separatorWord, true⟩ | _ => none) true

theorem exists_run_arrowLine {values : Setting → Option Entry} {quiet : Bool}
    {args : List String} (hput : (arrowLine values quiet).PutAs args)
    (hsound : (arrowLine values quiet).Sound) (hstart : values .start = none)
    (hfound : ∀ i, ∀ e ∈ values i, ∃ name, Workspace.locate {} e.value = .ok name) :
    ∃ outcome w', (run args : StateM Workspace Outcome).run arrowFiles = (outcome, w') ∧
      (outcome = .done ∨ outcome = .broken .pathUnnamed ∧
        ((arrowLine values quiet).Hollow .output ∨ (arrowLine values quiet).Hollow .logFile)) := by
  obtain ⟨outcome, w', hrun⟩ : ∃ outcome w',
    (run args : StateM Workspace Outcome).run arrowFiles = (outcome, w') := ⟨_, _, rfl⟩
  refine ⟨outcome, w', hrun, (Line.conduct hput hrun).ends.eq_done_or ?_ ?_ ?_ ?_⟩
  · rintro (hunsound | ⟨hinput, -⟩)
    · exact hunsound hsound
    · cases hinput
  · rintro ⟨e, he, -⟩
    cases hstart.symm.trans he
  · refine ⟨(arrows.parts "S").grammar, arrowText, read_arrowFiles, ?_⟩
    change Listing.read arrowText ((values .start).map Entry.value) = _
    rw [hstart]
    exact read_arrowText
  · rintro i e he ⟨w, fault, hfault⟩
    obtain ⟨name, hname⟩ := hfound i e he
    change (w.create e.value).1 = .error fault at hfault
    rw [Workspace.create_of_locate (Workspace.locate_congr hname)] at hfault
    cases hfault

theorem exists_done_of_arrowLine {values : Setting → Option Entry} {quiet : Bool}
    {args : List String} (hput : (arrowLine values quiet).PutAs args)
    (hstart : values .start = none) (hvalues : ∀ i, ∀ e ∈ values i,
      Argument.IsValue e.value ∧ ∃ name, Workspace.locate {} e.value = .ok name) :
    ∃ w', (run args : StateM Workspace Outcome).run arrowFiles = (.done, w') := by
  obtain ⟨outcome, w', hrun, hends⟩ := exists_run_arrowLine hput
    (fun i e he _ => (hvalues i e he).1) hstart fun i e he => (hvalues i e he).2
  have hsolid (i : Setting) : ¬(arrowLine values quiet).Hollow i := by
    rintro ⟨e, he, -, hvalue⟩
    exact (hvalues i e he).1.ne_separatorWord hvalue
  have hdone : outcome = .done :=
    hends.resolve_right fun h => h.2.elim (hsolid .output) (hsolid .logFile)
  exact ⟨w', hdone ▸ hrun⟩

theorem putAs_loggedLine : loggedLine.PutAs ["--output", "h.txt", "g.txt", "--log-file=e.log"] := by
  refine ⟨[.setting .output ⟨"h.txt", false⟩, .input "g.txt", .setting .logFile ⟨"e.log", true⟩],
    ?_, by decide⟩
  decide

theorem putAs_quietLine : quietLine.PutAs ["--quiet", "--output=k.txt", "g.txt"] := by
  refine ⟨[.quiet, .setting .output ⟨"k.txt", true⟩, .input "g.txt"], ?_, by decide⟩
  decide

theorem putAs_separatorLine : separatorLine.PutAs ["g.txt", "--output=--", "--quiet"] := by
  refine ⟨[.input "g.txt", .setting .output ⟨"--", true⟩, .quiet], ?_, by decide⟩
  decide

end ContextFree.Command
