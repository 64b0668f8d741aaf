import ContextFree.Proofs.Output

/-! # Surroundings that keep files

What the command relies on when it opens, writes and prints: a file that is opened for writing is
empty and then holds what is added to it, a file that cannot be opened is left alone, other files
are not touched, and only printing is seen on the standard output.
-/

namespace ContextFree.Command

/-- What is seen of a state of the surroundings. -/
structure View where
  /-- The text of the file at a path, if there is such a file. -/
  stored : String → Option String
  /-- All that was printed. -/
  printed : String

/-- The state that an action leaves. -/
def after {σ α : Type} (action : StateM σ α) (s : σ) : σ :=
  (action.run s).2

/-- Surroundings that keep files. -/
class Storage (σ : Type) [Host (StateM σ)] where
  /-- What is seen of a state. -/
  view : σ → View
  /-- Whether two paths lead to the same file. -/
  Same : String → String → Prop
  view_readFile : ∀ path s, view (after (Host.readFile path) s) = view s
  view_report : ∀ message s, view (after (Host.report message) s) = view s
  view_now : ∀ s, view (after Host.now s) = view s
  stored_print : ∀ text s, (view (after (Host.print text) s)).stored = (view s).stored
  printed_createFile : ∀ path s, (view (after (Host.createFile path) s)).printed = (view s).printed
  printed_appendFile : ∀ path text s,
    (view (after (Host.appendFile path text) s)).printed = (view s).printed
  /-- A file that cannot be opened leaves all files as they were. -/
  stored_createFile_error : ∀ path s fault,
    ((Host.createFile path : StateM σ _).run s).1 = .error fault →
      (view (after (Host.createFile path) s)).stored = (view s).stored
  stored_createFile : ∀ path s, ((Host.createFile path : StateM σ _).run s).1 = .ok () →
    (view (after (Host.createFile path) s)).stored path = some ""
  stored_createFile_of_not_same : ∀ path other s, ¬Same path other →
    (view (after (Host.createFile path) s)).stored other = (view s).stored other
  stored_appendFile : ∀ path text s old, (view s).stored path = some old →
    (view (after (Host.appendFile path text) s)).stored path = some (old ++ text)
  stored_appendFile_of_not_same : ∀ path text other s, ¬Same path other →
    (view (after (Host.appendFile path text) s)).stored other = (view s).stored other

namespace Workspace

variable {w : Workspace} {path other name : String}

/-- The text of the file at a path. -/
def stored (w : Workspace) (path : String) : Option String :=
  (w.read path).toOption

theorem stored_of_locate (h : w.locate path = .ok name) : w.stored path = w.files[name]? := by
  rw [stored, read, h]
  change ((w.files[name]?).elim (.error (.absent path)) .ok : Except FileFault String).toOption = _
  cases w.files[name]? <;> rfl

theorem stored_of_locate_error {fault : FileFault} (h : w.locate path = .error fault) :
    w.stored path = none := by
  rw [stored, read, h]
  rfl

/-- Two paths lead to the same file of a directory. -/
def Same (path other : String) : Prop :=
  ∃ name, locate {} path = .ok name ∧ locate {} other = .ok name

theorem ne_of_not_same {name' : String} (h : ¬Same path other) (hname : w.locate path = .ok name)
    (hother : w.locate other = .ok name') : name ≠ name' := by
  rintro rfl
  exact h ⟨name, locate_congr hname, locate_congr hother⟩

/-- A path leads to a file of which only the content may have changed. -/
theorem stored_congr {w' : Workspace} (h : ∀ name, w.locate path = .ok name →
    w'.files[name]? = w.files[name]?) : w'.stored path = w.stored path := by
  cases hname : w.locate path with
  | ok name =>
    rw [stored_of_locate hname, stored_of_locate (locate_congr hname), h name hname]
  | error fault =>
    cases hname' : w'.locate path with
    | ok name =>
      have hlocate : w.locate path = .ok name := locate_congr hname'
      rw [hname] at hlocate
      cases hlocate
    | error fault' => rw [stored_of_locate_error hname, stored_of_locate_error hname']

theorem create_of_locate (h : w.locate path = .ok name) :
    w.create path = (.ok (), { w with files := w.files.insert name "" }) := by
  rw [create, h]

theorem create_of_locate_error {fault : FileFault} (h : w.locate path = .error fault) :
    ∃ fault', w.create path = (.error fault', w) := by
  rw [create, h]
  exact ⟨_, rfl⟩

theorem append_of_locate {text : String} (h : w.locate path = .ok name) :
    w.append path text = { w with files := w.files.modify name (· ++ text) } := by
  rw [append, h]

theorem append_of_locate_error {text : String} {fault : FileFault}
    (h : w.locate path = .error fault) : w.append path text = w := by
  rw [append, h]

/-- A directory keeps files. -/
instance : Storage Workspace where
  view w := ⟨w.stored, w.printed⟩
  Same := Same
  view_readFile _ _ := rfl
  view_report _ _ := rfl
  view_now _ := rfl
  stored_print _ _ := rfl
  printed_createFile path w := by
    change (w.create path).2.printed = w.printed
    cases h : w.locate path with
    | ok name => rw [create_of_locate h]
    | error fault =>
      obtain ⟨fault', hcreate⟩ := create_of_locate_error h
      rw [hcreate]
  printed_appendFile path text w := by
    change (w.append path text).printed = w.printed
    cases h : w.locate path with
    | ok name => rw [append_of_locate h]
    | error fault => rw [append_of_locate_error h]
  stored_createFile_error path w fault hfault := by
    change (w.create path).1 = .error fault at hfault
    change (w.create path).2.stored = w.stored
    cases h : w.locate path with
    | ok name =>
      rw [create_of_locate h] at hfault
      cases hfault
    | error fault =>
      obtain ⟨fault', hcreate⟩ := create_of_locate_error h
      rw [hcreate]
  stored_createFile path w hdone := by
    change (w.create path).1 = .ok () at hdone
    change (w.create path).2.stored path = some ""
    cases h : w.locate path with
    | ok name =>
      rw [create_of_locate h, stored_of_locate (locate_congr h)]
      simp
    | error fault =>
      obtain ⟨fault', hcreate⟩ := create_of_locate_error h
      rw [hcreate] at hdone
      cases hdone
  stored_createFile_of_not_same path other w hsame := by
    change (w.create path).2.stored other = w.stored other
    cases h : w.locate path with
    | ok name =>
      rw [create_of_locate h]
      refine stored_congr fun name' hother => ?_
      simp [Std.ExtTreeMap.getElem?_insert, ne_of_not_same hsame h hother]
    | error fault =>
      obtain ⟨fault', hcreate⟩ := create_of_locate_error h
      rw [hcreate]
  stored_appendFile path text w old hold := by
    change (w.append path text).stored path = some (old ++ text)
    change w.stored path = some old at hold
    cases h : w.locate path with
    | ok name =>
      rw [stored_of_locate h] at hold
      rw [append_of_locate h, stored_of_locate (locate_congr h)]
      simp [hold]
    | error fault =>
      rw [stored_of_locate_error h] at hold
      cases hold
  stored_appendFile_of_not_same path text other w hsame := by
    change (w.append path text).stored other = w.stored other
    cases h : w.locate path with
    | ok name =>
      rw [append_of_locate h]
      refine stored_congr fun name' hother => ?_
      simp [Std.ExtTreeMap.getElem?_modify, ne_of_not_same hsame h hother]
    | error fault => rw [append_of_locate_error h]

end Workspace

end ContextFree.Command
