import ContextFree.Proofs.Command
import ContextFree.Proofs.RoundTrip

/-! # The file that a run writes

A run that ends well leaves the listing of its result in the file that was asked for. Whether the
file is read back as the grammar that was written depends on the names of the grammar that was
loaded: a new nonterminal is named after a terminal, and a name that holds an arrow cannot begin
a rule.
-/

namespace ContextFree.Command

open Listing Normalization

namespace Workspace

variable {w w' : Workspace} {path name text : String}

/-- Which file a path leads to does not depend on the files. -/
theorem locate_congr (h : w.locate path = .ok name) : w'.locate path = .ok name := by
  rw [locate] at h ⊢
  split at h
  · cases h
  next hempty =>
    rw [if_neg hempty]
    dsimp only at h ⊢
    split at h
    · cases h
    next first rest hsteps =>
      split at h
      · cases h
      next hparents =>
        rw [if_neg hparents]
        split at h
        · cases h
        next hroot =>
          rw [if_neg hroot]
          split at h
          next hlast => rwa [if_pos hlast]
          · cases h

/-- What a run gives in a directory, and the directory that it leaves. -/
def leaves {α : Type} (w : Workspace) (x : Run (StateM Workspace) α) :
    Except Outcome α × Workspace :=
  StateT.run (ExceptT.run x) w

variable {α β : Type} {x : Run (StateM Workspace) α} {f : α → Run (StateM Workspace) β}

theorem leaves_bind_ok {a : α} (h : w.leaves x = (.ok a, w')) :
    w.leaves (x >>= f) = w'.leaves (f a) := by
  have hx : StateT.run (ExceptT.run x) w = (.ok a, w') := h
  rw [leaves, ExceptT.run_bind, StateT.run_bind, hx]
  rfl

theorem leaves_bind_error {o : Outcome} (h : w.leaves x = (.error o, w')) :
    w.leaves (x >>= f) = (.error o, w') := by
  have hx : StateT.run (ExceptT.run x) w = (.error o, w') := h
  rw [leaves, ExceptT.run_bind, StateT.run_bind, hx]
  rfl

theorem leaves_bind_eq_ok {b : β} {v : Workspace} (h : w.leaves (x >>= f) = (.ok b, v)) :
    ∃ a w', w.leaves x = (.ok a, w') ∧ w'.leaves (f a) = (.ok b, v) := by
  obtain ⟨result, w', hx⟩ : ∃ result w', w.leaves x = (result, w') := ⟨_, _, rfl⟩
  cases result with
  | error o =>
    rw [leaves_bind_error hx] at h
    cases h
  | ok a =>
    rw [leaves_bind_ok hx] at h
    exact ⟨a, w', hx, h⟩

theorem leaves_inform {o : Options} {message : String} : w.leaves (inform o message) =
    (.ok (), if o.quiet then w else { w with reported := w.reported ++ [message] }) := by
  rw [inform]
  cases o.quiet <;> rfl

theorem modify_insert (files : Std.ExtTreeMap String String) :
    (files.insert name "").modify name (· ++ text) = files.insert name text := by
  ext1 other
  rw [Std.ExtTreeMap.getElem?_modify, Std.ExtTreeMap.getElem?_insert_self,
    Std.ExtTreeMap.getElem?_insert, Std.ExtTreeMap.getElem?_insert]
  split <;> simp

/-- The result is the only thing that a file holds to which it was written. -/
theorem leaves_save {o : Options} {g : Grammar} (hout : o.output = some (.text path))
    (hname : w.locate path = .ok name) : w.leaves (save o g) = leaves
      { w with files := w.files.insert name (Listing.write g) }
      (inform o ("wrote grammar to " ++ path)) := by
  have hnamed : w.leaves (named (.text path)) = (.ok path, w) := rfl
  have hcreate : w.leaves (perform (Host.createFile path)) =
      (.ok (.ok ()), { w with files := w.files.insert name "" }) := by
    change (Except.ok (w.create path).1, (w.create path).2) = _
    rw [create, hname]
  have hopened (w : Workspace) : w.leaves (opened (.ok ())) = (.ok (), w) := rfl
  have happend : leaves { w with files := w.files.insert name "" }
      (perform (Host.appendFile path (Listing.write g))) =
        (.ok (), { w with files := w.files.insert name (Listing.write g) }) := by
    change (Except.ok (), append _ _ _) = _
    rw [append, locate_congr hname]
    dsimp only
    rw [modify_insert]
  rw [save, hout]
  dsimp only
  rw [leaves_bind_ok hnamed, leaves_bind_ok hcreate, leaves_bind_ok (hopened _),
    leaves_bind_ok happend]

theorem leaves_save_error {o : Options} {g : Grammar} (hout : o.output = some (.text path))
    {fault : FileFault} (hname : w.locate path = .error fault) :
    ∃ outcome w', w.leaves (save o g) = (.error outcome, w') := by
  have hnamed : w.leaves (named (.text path)) = (.ok path, w) := rfl
  obtain ⟨fault', hcreate⟩ : ∃ fault', w.leaves (perform (Host.createFile path)) =
      (.ok (.error fault'), w) := by
    refine ⟨if w.isSlashed path then .directory path else fault, ?_⟩
    change (Except.ok (w.create path).1, (w.create path).2) = _
    rw [create, hname]
  have hopened : w.leaves (opened (.error fault') : Run (StateM Workspace) Unit) =
      (.error .failed, { w with reported := w.reported ++ ["error: " ++ fault'.message] }) := rfl
  refine ⟨.failed, { w with reported := w.reported ++ ["error: " ++ fault'.message] }, ?_⟩
  rw [save, hout]
  dsimp only
  rw [leaves_bind_ok hnamed, leaves_bind_ok hcreate, leaves_bind_error hopened]

theorem read_of_leaves_save {o : Options} {g : Grammar} (hout : o.output = some (.text path))
    (hsave : w.leaves (save o g) = (.ok (), w')) : w'.read path = .ok (Listing.write g) := by
  cases hname : w.locate path with
  | error fault =>
    obtain ⟨outcome, w'', hfail⟩ := leaves_save_error hout hname (g := g)
    rw [hfail] at hsave
    cases hsave
  | ok name =>
    rw [leaves_save hout hname, leaves_inform] at hsave
    have hfiles : w'.files = w.files.insert name (Listing.write g) := by
      cases hsave
      split <;> rfl
    rw [read, locate_congr hname, hfiles]
    simp [bind, Except.bind]

end Workspace

section Sample

variable {g : Grammar} (h : sampleGrammar = .ok g)
include h

theorem name_of_sample {Y : Symbol} (hY : g.has Y = true) :
    Y.name ∈ ["S", "A", "B", "C", "D"] ++ ["a", "b"] := by
  obtain ⟨hspells, -⟩ := Spelling.grammar_eq_ok_iff.1 h
  rw [List.mem_append]
  cases Y with
  | nonterminal A =>
    exact .inl (hspells.nonterminal_mem_iff.1 (Std.ExtTreeMap.contains_iff_mem.1 hY))
  | terminal a =>
    have ha := (wellFormed_of_sampleGrammar h).has_terminal.1 hY
    rw [hspells.terminals] at ha
    exact .inr (by simpa [NameSet.of, sampleSpelling, Symbol.name] using ha)

theorem handy_of_sample {Y : Symbol} (hY : g.has Y = true) : Handy Y.name ∧ Plain Y.name := by
  have hname := name_of_sample h hY
  simp only [List.cons_append, List.nil_append, List.mem_cons, List.not_mem_nil, or_false] at hname
  rcases hname with heq | heq | heq | heq | heq | heq | heq
  all_goals
    rw [heq]
    exact ⟨⟨by decide, by decide, by decide, by decide⟩,
      ⟨by decide, by decide, fun heading => by cases heading <;> decide⟩⟩

theorem legible_of_sample : g.Legible where
  field _ hY := (handy_of_sample h hY).1.field
  marker _ hY := (handy_of_sample h hY).1.marker
  bars X right hright Y hY :=
    (handy_of_sample h ((wellFormed_of_sampleGrammar h).closed X right hright Y hY)).1.bar
  comment A hcomment _ hright := (handy_of_sample h (Y := .nonterminal A)
    (Std.ExtTreeMap.contains_iff_mem.2
      (Grammar.mem_productions_of_mem_rightsOf hright))).1.comment hcomment

end Sample

namespace Loaded

variable {g : Grammar} (h : Loaded g)
include h

theorem legible : g.Legible := by
  rcases h with ⟨text, start?, hread⟩ | hsample
  · exact legible_of_read hread
  · exact legible_of_sample hsample

theorem plain (A : Name) (right : RightSide) (hright : right ∈ g.rightsOf (.nonterminal A)) :
    Plain A := by
  rcases h with ⟨text, start?, hread⟩ | hsample
  · exact plain_of_read hread hright
  · exact (handy_of_sample hsample (Y := .nonterminal A) (Std.ExtTreeMap.contains_iff_mem.2
      (Grammar.mem_productions_of_mem_rightsOf hright))).2

/-- What the conversion makes of a grammar that was loaded is read back unless the trimmed grammar
tells otherwise. -/
theorem rereads {passages : List Passage} {g' : Grammar} {added added' : List Symbol}
    (hrun : normalize.run ⟨g, added⟩ = .ok passages ⟨g', added'⟩) : Rereads passages g' := by
  obtain ⟨c, hturns⟩ := turns_normalize h.wellFormed
  obtain ⟨added'', hrun'⟩ := hturns added
  rw [hrun'] at hrun
  cases hrun
  exact c.rereads h.wellFormed h.legible h.plain

end Loaded

section Ensured

variable {α : Type} {p : α → Prop} {x : Run (StateM Workspace) α} {w w' : Workspace}

theorem Ensures.of_leaves_ok {a : α} (hx : Ensures p x) (h : w.leaves x = (.ok a, w')) : p a := by
  have hresult := Always.run_workspace hx w
  rw [Workspace.leaves] at h
  rw [h] at hresult
  exact hresult

theorem Ensures.of_leaves_error {o : Outcome} (hx : Ensures p x)
    (h : w.leaves x = (.error o, w')) : o.Stopped := by
  have hresult := Always.run_workspace hx w
  rw [Workspace.leaves] at h
  rw [h] at hresult
  exact hresult

end Ensured

section Run

variable {args : List String} {o : Options} {path : String} {w w' : Workspace}
  (hargs : Invocation.ofArgs args = .ok (.conversion o))
include hargs

theorem run_of_leaves {result : Except Outcome Unit} (h : w.leaves (execute o) = (result, w')) :
    (run args : StateM Workspace Outcome).run w =
      (match result with | .ok () => .done | .error outcome => outcome, w') := by
  cases result <;> exact run_of_execute hargs h

/-- A run that ends well has loaded a grammar, and it leaves what the conversion made of it. -/
theorem read_of_run (hout : o.output = some (.text path))
    (hrun : (run args : StateM Workspace Outcome).run w = (.done, w')) :
    ∃ g v g', w.leaves (load o) = (.ok g, v) ∧ Loaded g ∧ Converts g g' ∧
      w'.read path = .ok (write g') := by
  obtain ⟨result, v, hexecute⟩ : ∃ result v, w.leaves (execute o) = (result, v) := ⟨_, _, rfl⟩
  rw [run_of_leaves hargs hexecute] at hrun
  cases result with
  | error outcome =>
    cases hrun
    exact absurd rfl (ensures_execute.of_leaves_error hexecute).ne_done
  | ok =>
    cases hrun
    rw [execute_eq] at hexecute
    obtain ⟨g, v, hload, hrest⟩ := Workspace.leaves_bind_eq_ok hexecute
    obtain ⟨g', u, hprocess, hsave⟩ := Workspace.leaves_bind_eq_ok hrest
    have hloaded := ensures_load.of_leaves_ok hload
    exact ⟨g, v, g', hload, hloaded, (ensures_process hloaded.wellFormed).of_leaves_ok hprocess,
      Workspace.read_of_leaves_save hout hsave⟩

end Run

section Quiet

variable {m : Type → Type} [Monad m] [Host m] {o : Options}
  {path input text name : String} {w : Workspace} {g : Grammar}

theorem leaves_load (hinput : o.input = some input) (hstart : o.start = none)
    (htext : w.read input = .ok text) (hread : read text none = .ok g) :
    w.leaves (load o) = (.ok g, w) := by
  have hfile : w.leaves (perform (Host.readFile input)) = (.ok (.ok text), w) := by
    rw [← htext]
    rfl
  have hopened : w.leaves (opened (.ok text)) = (.ok text, w) := rfl
  rw [load, hinput, hstart]
  dsimp only
  rw [Workspace.leaves_bind_ok hfile, Workspace.leaves_bind_ok hopened, hread]
  rfl

theorem inform_of_quiet (hquiet : o.quiet = true) (message : String) :
    (inform o message : Run m Unit) = pure () := by
  rw [inform, hquiet]
  rfl

theorem display_of_quiet (hquiet : o.quiet = true) (title : String) (g : Grammar) :
    (display o title g : Run m Unit) = pure () := by
  rw [display, hquiet]
  rfl

theorem logEvent_of_none (hlog : o.logFile = none) (e : Event.Record) :
    (logEvent o e : Run m Unit) = pure () := by
  rw [logEvent, hlog]

variable [LawfulMonad m]

theorem follow_of_quiet (hquiet : o.quiet = true) (hlog : o.logFile = none) (p : Passage) :
    (follow o p : Run m Unit) = pure () := by
  simp [follow, inform_of_quiet hquiet, display_of_quiet hquiet, logEvent_of_none hlog]

omit [Host m] in
theorem forM_eq_pure {f : Passage → Run m Unit} (h : ∀ p, f p = pure ()) (ps : List Passage) :
    ps.forM f = pure () := by
  induction ps with
  | nil => rfl
  | cons p ps ih =>
    change (f p >>= fun _ => ps.forM f) = pure ()
    rw [h, pure_bind, ih]

/-- A quiet conversion without events gives its result and does nothing else. -/
theorem convert_of_quiet (hquiet : o.quiet = true) (hlog : o.logFile = none) (h : g.WellFormed) :
    ∃ g', Converts g g' ∧ (convert o g : Run m Grammar) = pure g' := by
  obtain ⟨c, hturns⟩ := turns_normalize h
  obtain ⟨added, hrun⟩ := hturns []
  refine ⟨c.final, ⟨c.passages, added, hrun⟩, ?_⟩
  have hperform : normalize.perform { grammar := g } = (.ok c.passages, ⟨c.final, added⟩) := by
    rw [Transform.perform, hrun]
  rw [convert, logEvent_of_none hlog, pure_bind, hperform]
  dsimp only
  rw [forM_eq_pure (follow_of_quiet hquiet hlog), pure_bind, c.checkNormal_final h]

/-- A quiet run without events writes the result and nothing else. -/
theorem leaves_execute (hload : w.leaves (load o) = (.ok g, w)) (hquiet : o.quiet = true)
    (hlog : o.logFile = none) (hout : o.output = some (.text path))
    (hname : w.locate path = .ok name) : ∃ g', Converts g g' ∧ w.leaves (execute o) =
      (.ok (), { w with files := w.files.insert name (write g') }) := by
  have hwell := (ensures_load.of_leaves_ok hload).wellFormed
  obtain ⟨g', hconverts, hconvert⟩ :=
    convert_of_quiet (m := StateM Workspace) hquiet hlog hwell
  refine ⟨g', hconverts, ?_⟩
  have hprocess : (process o g : Run (StateM Workspace) Grammar) = pure g' := by
    rw [process, inform_of_quiet hquiet, pure_bind, display_of_quiet hquiet, pure_bind, hlog]
    exact hconvert
  have hgiven : w.leaves (pure g' : Run (StateM Workspace) Grammar) = (.ok g', w) := rfl
  rw [execute_eq, Workspace.leaves_bind_ok hload, hprocess, Workspace.leaves_bind_ok hgiven,
    Workspace.leaves_save hout hname, inform_of_quiet hquiet]
  rfl

end Quiet

/-- A grammar that was read is converted, and what is written of the result is read back exactly if
the fourth stage left a lossless grammar. The file that a run writes holds such a result. -/
theorem normalize_rereads (text : String) (start? : Option Name) (r : Revision)
    (args : List String) (o : Options) (path : String) (w w' : Workspace) :
    (read text start? = .ok r.grammar →
      ∃ passages r', normalize.run r = .ok passages r' ∧ Rereads passages r'.grammar) ∧
    (Invocation.ofArgs args = .ok (.conversion o) → o.output = some (.text path) →
      (run args : StateM Workspace Outcome).run w = (.done, w') →
        ∃ g v passages r', w.leaves (load o) = (.ok g, v) ∧
          normalize.run { grammar := g } = .ok passages r' ∧
            w'.read path = .ok (write r'.grammar) ∧ Rereads passages r'.grammar) := by
  constructor
  · intro hread
    have hloaded : Loaded r.grammar := .inl ⟨text, start?, hread⟩
    obtain ⟨c, hturns⟩ := turns_normalize hloaded.wellFormed
    obtain ⟨added, hrun⟩ := hturns r.added
    exact ⟨c.passages, ⟨c.final, added⟩, hrun, hloaded.rereads hrun⟩
  · intro hargs hout hrun
    obtain ⟨g, v, g', hload, hloaded, ⟨passages, added, hnormalize⟩, hfile⟩ :=
      read_of_run hargs hout hrun
    exact ⟨g, v, passages, ⟨g', added⟩, hload, hnormalize, hfile, hloaded.rereads hnormalize⟩

section Arrows

/-- A grammar with an arrow among its terminals. -/
def arrows : Spelling where
  nonterminals := ["S"]
  terminals := ["→", "a"]
  productions := [("S", ["→ a"])]

/-- The listing of the grammar with an arrow. -/
def arrowText : String :=
  "terminals: → a\nS -> → a\n"

theorem has_arrows {name : Name} : arrows.vocabulary.has name = true ↔ name ∈ ["S", "→", "a"] := by
  simp [Spelling.Vocabulary.has, Spelling.vocabulary, arrows, @eq_comm _ "S" name]

theorem side?_arrows : arrows.vocabulary.side? epsilonMarker "→ a" =
    some [.terminal "→", .terminal "a"] := by
  refine Spelling.Vocabulary.side?_eq_some.2 ⟨["→", "a"], ?_, ?_, ?_⟩
  · have hfree : ¬arrows.vocabulary.has "→ a" = true := by
      rw [has_arrows]
      decide
    exact splitRightSide_of_blank (by decide) (by decide) hfree (by decide)
  · simp [has_arrows]
  · simp [Spelling.Vocabulary.symbolOf, Spelling.vocabulary, arrows]

theorem spells_arrows : arrows.Spells (arrows.parts "S").grammar := by
  have hreads : arrows.Reads := by
    constructor
    · rw [← Bool.not_eq_true, has_arrows]
      decide
    · rintro p hp
      obtain rfl := List.mem_singleton.1 hp
      refine ⟨List.mem_singleton.2 rfl, fun text htext => ?_⟩
      obtain rfl := List.mem_singleton.1 htext
      exact Option.isSome_iff_exists.2 ⟨_, side?_arrows⟩
  have hfit : (arrows.parts "S").Fit := hreads.fit (by decide) (by decide)
  exact hreads.spells hfit

theorem read_arrowText : read arrowText none = .ok (arrows.parts "S").grammar := by
  refine read_eq_ok.2 ⟨[.declaration .terminals ["→", "a"], .rule "S" ["→ a"]], ["→", "a"],
    rfl, ?_, rfl, ?_, spells_arrows⟩
  · exact List.nodup_cons.2 ⟨List.not_mem_nil, .nil⟩
  · rw [Parts.start_grammar]
    rfl

theorem not_lossless_arrows : ¬(arrows.parts "S").grammar.trimmed.Lossless := by
  intro hl
  have hwell := wellFormed_of_read read_arrowText
  have hright : [.terminal "→", .terminal "a"] ∈ (arrows.parts "S").grammar.rightsOf
      (.nonterminal (arrows.parts "S").grammar.start) := by
    rw [Parts.start_grammar, Spelling.mem_rightsOf_parts]
    exact ⟨_, List.mem_cons_self, rfl, _, List.mem_cons_self, side?_arrows⟩
  have hkept := Grammar.mem_rightsOf_trimmed hwell hright (by simp) (by simp)
  have harrow : "→" ∈ (arrows.parts "S").grammar.trimmed.mixedTerminals :=
    Grammar.mem_mixedTerminals.2 ⟨_, _, hkept, by simp, by simp⟩
  exact (hl.mixed _ harrow).2.2 (by decide)

/-- The conversion names a nonterminal after the arrow, and no rule can begin with that name. -/
theorem read_write_arrows_ne {passages : List Passage} {g' : Grammar} {added : List Symbol}
    (hrun : normalize.run { grammar := (arrows.parts "S").grammar } = .ok passages ⟨g', added⟩) :
    read (write g') none ≠ .ok g' := by
  have hloaded : Loaded (arrows.parts "S").grammar := .inl ⟨arrowText, none, read_arrowText⟩
  rw [ne_eq, (hloaded.rereads hrun).read_write_iff hloaded.wellFormed hrun]
  exact not_lossless_arrows

/-- A directory with the listing of the grammar with an arrow. -/
def arrowFiles : Workspace where
  files := Std.ExtTreeMap.insert ∅ "g.txt" arrowText

/-- The options of a quiet run from one file to another. -/
def arrowOptions : Options where
  input := some "g.txt"
  output := some (.text "h.txt")
  quiet := true

theorem ofArgs_arrows : Invocation.ofArgs ["g.txt", "--output", "h.txt", "--quiet"] =
    .ok (.conversion arrowOptions) :=
  rfl

theorem read_arrowFiles : arrowFiles.read "g.txt" = .ok arrowText := by
  have hname : arrowFiles.locate "g.txt" = .ok "g.txt" := rfl
  rw [Workspace.read, hname]
  simp [arrowFiles, bind, Except.bind]

theorem leaves_load_arrows :
    arrowFiles.leaves (load arrowOptions) = (.ok (arrows.parts "S").grammar, arrowFiles) :=
  leaves_load rfl rfl read_arrowFiles read_arrowText

theorem exists_run_arrows : ∃ w',
    (run ["g.txt", "--output", "h.txt", "--quiet"] : StateM Workspace Outcome).run arrowFiles =
      (.done, w') := by
  obtain ⟨g', -, hexecute⟩ := leaves_execute leaves_load_arrows rfl rfl rfl
    (show arrowFiles.locate "h.txt" = .ok "h.txt" from rfl)
  exact ⟨_, run_of_leaves ofArgs_arrows hexecute⟩

/-- What the conversion makes of the grammar with an arrow, alone and in a run, can be told from
its trimmed grammar. -/
theorem normalize_rereads_arrows : read arrowText none = .ok (arrows.parts "S").grammar ∧
    (∃ passages r', normalize.run { grammar := (arrows.parts "S").grammar } = .ok passages r' ∧
      Rereads passages r'.grammar) ∧
    ∃ w' passages, ∃ r' : Revision,
      (run ["g.txt", "--output", "h.txt", "--quiet"] : StateM Workspace Outcome).run arrowFiles =
          (.done, w') ∧ w'.read "h.txt" = .ok (write r'.grammar) ∧
      Rereads passages r'.grammar := by
  obtain ⟨w', hdone⟩ := exists_run_arrows
  obtain ⟨hread, hrun⟩ := normalize_rereads arrowText none
    { grammar := (arrows.parts "S").grammar } ["g.txt", "--output", "h.txt", "--quiet"]
    arrowOptions "h.txt" arrowFiles w'
  obtain ⟨g, v, passages, r', -, -, hfile, hrereads⟩ := hrun ofArgs_arrows rfl hdone
  exact ⟨read_arrowText, hread read_arrowText, w', passages, r', hdone, hfile, hrereads⟩

/-- The grammar with an arrow is read, and neither what is written of its conversion nor the file
that a run leaves is read back as the grammar that was written. -/
theorem arrows_not_reread : read arrowText none = .ok (arrows.parts "S").grammar ∧
    (∃ passages r', normalize.run { grammar := (arrows.parts "S").grammar } = .ok passages r' ∧
      read (write r'.grammar) none ≠ .ok r'.grammar) ∧
    ∃ w' g', (run ["g.txt", "--output", "h.txt", "--quiet"] : StateM Workspace Outcome).run
        arrowFiles = (.done, w') ∧ w'.read "h.txt" = .ok (write g') ∧
      read (write g') none ≠ .ok g' := by
  have hwell := wellFormed_of_read read_arrowText
  refine ⟨read_arrowText, ?_, ?_⟩
  · obtain ⟨c, hturns⟩ := turns_normalize hwell
    obtain ⟨added, hrun⟩ := hturns []
    exact ⟨c.passages, ⟨c.final, added⟩, hrun, read_write_arrows_ne hrun⟩
  · obtain ⟨w', hdone⟩ := exists_run_arrows
    obtain ⟨g, v, g', hload, -, ⟨passages, added, hnormalize⟩, hfile⟩ :=
      read_of_run ofArgs_arrows rfl hdone
    rw [leaves_load_arrows] at hload
    cases hload
    exact ⟨w', g', hdone, hfile, read_write_arrows_ne hnormalize⟩

end Arrows

end ContextFree.Command
