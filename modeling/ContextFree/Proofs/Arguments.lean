import ContextFree.Command.Options

/-! # Reading command lines

A command line names an input at most once and gives each option at most once. Whatever the order
of its pieces, it asks for the same, unless an option is followed by an argument that is no value.
Then it makes no sense.
-/

namespace ContextFree.Command

namespace Argument

variable {text : String} {cs ds : List Char}

/-- The text is taken for a plain value. -/
def IsValue (text : String) : Prop :=
  read text = .ok (.value text)

theorem isValue_of_read {value : String} (h : read text = .ok (.value value)) : IsValue text := by
  have hdashed : ofDashed text = .value value → value = text := by
    rw [ofDashed]
    split
    · exact fun heq => (Argument.value.inj heq).symm
    · exact nofun
  suffices value = text by rwa [this] at h
  rw [read] at h
  split at h
  next =>
    rw [ofLong] at h
    dsimp only at h
    split at h
    · exact hdashed (Except.ok.inj h)
    · cases h
    · cases h
  next => cases h
  next => exact hdashed (Except.ok.inj h)
  next => exact (Argument.value.inj (Except.ok.inj h)).symm

theorem IsValue.ne_separatorWord (h : IsValue text) : text ≠ separatorWord := by
  rintro rfl
  cases h

theorem readAll_cons (h : text ≠ separatorWord) {rest : List String} :
    readAll (text :: rest) = do return (← read text) :: (← readAll rest) := by
  rw [readAll, if_neg h]

theorem cutEquals_append (h : '=' ∉ cs) : cutEquals (cs ++ '=' :: ds) = (cs, some ds) := by
  have hall : ∀ c ∈ cs, (c ≠ '=') = true := by
    intro c hc
    simpa using ne_of_mem_of_not_mem hc h
  have hdrop : (cs ++ '=' :: ds).dropWhile (· ≠ '=') = '=' :: ds := by
    rw [List.dropWhile_append_of_pos (by simpa using hall)]
    simp
  have htake : (cs ++ '=' :: ds).takeWhile (· ≠ '=') = cs := by
    rw [List.takeWhile_append_of_pos (by simpa using hall)]
    simp
  rw [cutEquals, hdrop]
  dsimp only
  rw [htake]

/-- A value behind an equals sign is handed on as it is written. -/
theorem read_glued {s : Setting} {value : String} :
    read (s.word ++ "=" ++ value) = .ok (.option (.setting s) (some value)) := by
  have hcut : cutEquals (s.word ++ "=" ++ value).toList = (s.word.toList, some value.toList) := by
    rw [String.toList_append, String.toList_append, List.append_assoc]
    exact cutEquals_append (by cases s <;> decide)
  have hname : Flag.all.filter (fun flag => s.word.toList.isPrefixOf flag.word.toList) =
      [.setting s] := by
    cases s <;> rfl
  have hlong : ofLong (s.word ++ "=" ++ value) = .ok (.option (.setting s) (some value)) := by
    rw [ofLong, hcut]
    dsimp only
    rw [hname]
    dsimp only [Option.map_some]
    rw [String.ofList_toList]
  obtain ⟨cs, hcs⟩ : ∃ cs, (s.word ++ "=" ++ value).toList = '-' :: '-' :: cs := by
    rw [String.toList_append, String.toList_append]
    cases s <;> exact ⟨_, rfl⟩
  rw [read, hcs]
  exact hlong

theorem read_word {s : Setting} : read s.word = .ok (.option (.setting s) none) := by
  cases s <;> rfl

theorem word_ne_separatorWord {s : Setting} : s.word ≠ separatorWord := by
  cases s <;> decide

theorem glued_ne_separatorWord {s : Setting} {value : String} :
    s.word ++ "=" ++ value ≠ separatorWord := by
  intro h
  have hread : read (s.word ++ "=" ++ value) = .ok (.option (.setting s) (some value)) := read_glued
  rw [h] at hread
  cases hread

theorem read_ne_separator : read text ≠ .ok .separator := by
  have hdashed : ofDashed text ≠ .separator := by
    rw [ofDashed]
    split <;> exact nofun
  intro h
  rw [read] at h
  split at h
  next =>
    rw [ofLong] at h
    dsimp only at h
    split at h
    · exact hdashed (Except.ok.inj h)
    · cases h
    · cases h
  next => cases h
  next => exact hdashed (Except.ok.inj h)
  next => cases h

theorem head?_readAll {texts : List String} {args : List Argument}
    (htexts : texts.head? ≠ some separatorWord) (h : readAll texts = .ok args) :
    args.head? ≠ some .separator := by
  cases texts with
  | nil =>
    cases h
    exact nofun
  | cons text rest =>
    rw [readAll_cons fun heq => htexts (congrArg some heq)] at h
    cases hread : read text with
    | error cause =>
      rw [hread] at h
      cases h
    | ok arg =>
      cases hrest : readAll rest with
      | error cause =>
        rw [hread, hrest] at h
        cases h
      | ok args' =>
        rw [hread, hrest] at h
        cases h
        rintro ⟨⟩
        exact read_ne_separator hread

end Argument

/-- What a command line gives for a setting: behind an equals sign, or as the next argument. -/
structure Entry where
  value : String
  glued : Bool
  deriving DecidableEq, Repr

namespace Entry

variable {e : Entry}

/-- What is given by it. -/
def given (e : Entry) : Given :=
  .ofText e.value

theorem value_eq_of_given {text : String} (h : e.given = .text text) : e.value = text := by
  rw [given, Given.ofText] at h
  split at h
  · cases h
  · exact Given.text.inj h

theorem given_eq_nothing : e.given = .nothing ↔ e.value = Argument.separatorWord := by
  rw [given, Given.ofText]
  split
  next hvalue => exact iff_of_true rfl hvalue
  next hvalue => exact iff_of_false nofun hvalue

end Entry

/-- Something that a command line says. -/
inductive Piece where
  | input (path : String)
  | setting (s : Setting) (e : Entry)
  | quiet
  deriving DecidableEq, Repr

namespace Piece

/-- The arguments in which it is said. -/
def words : Piece → List String
  | input path => [path]
  | setting s e => if e.glued then [s.word ++ "=" ++ e.value] else [s.word, e.value]
  | quiet => [Flag.quiet.word]

/-- What it adds to the options. -/
def apply (o : Options) : Piece → Options
  | input path => { o with input := some path }
  | setting s e => o.set e.value s
  | quiet => { o with quiet := true }

def isInput : Piece → Bool
  | input _ => true
  | _ => false

/-- What stands in the place of a value is taken for one. -/
def Sound : Piece → Prop
  | input path => Argument.IsValue path
  | setting _ e => e.glued = false → Argument.IsValue e.value
  | quiet => True

end Piece

namespace Options

open Argument

variable {o : Options} {p : Piece} {ps : List Piece} {texts : List String}

/-- Reads texts that follow others without fault. -/
def readTexts (o : Options) (texts : List String) : Except Misuse Invocation := do
  readArguments o [] (← readAll texts)

theorem ofArgs_eq_readTexts {args : List String} : Invocation.ofArgs args = readTexts {} args :=
  rfl

theorem readTexts_cons {text : String} (h : text ≠ separatorWord) :
    readTexts o (text :: texts) =
      read text >>= fun arg => readAll texts >>= fun args => readArguments o [] (arg :: args) := by
  rw [readTexts, readAll_cons h]
  cases read text with
  | error cause => rfl
  | ok arg => cases readAll texts <;> rfl

theorem set_comm {s s' : Setting} {value value' : String} (h : s ≠ s') :
    (o.set value s).set value' s' = (o.set value' s').set value s := by
  cases s <;> cases s' <;> simp_all [set]

theorem readArguments_input {path : String} {args : List Argument} (h : o.input = none)
    (hhead : args.head? ≠ some .separator) : readArguments o [] (.value path :: args) =
      readArguments { o with input := some path } [] args := by
  rw [readArguments, h]
  · rfl
  · rintro rest rfl
    exact hhead rfl

/-- A sound piece is read, and the rest behind it. -/
theorem readTexts_words (hp : p.Sound) (hinput : p.isInput = true → o.input = none)
    (hhead : texts.head? ≠ some separatorWord) :
    readTexts o (p.words ++ texts) = readTexts (p.apply o) texts := by
  cases p with
  | input path =>
    have hread : Argument.read path = .ok (.value path) := hp
    change readTexts o (path :: texts) = _
    rw [readTexts_cons (IsValue.ne_separatorWord hp), hread, readTexts]
    cases hargs : readAll texts with
    | error cause => rfl
    | ok args => exact readArguments_input (hinput rfl) (head?_readAll hhead hargs)
  | setting s e =>
    obtain ⟨value, glued⟩ := e
    cases glued with
    | true =>
      change readTexts o ((s.word ++ "=" ++ value) :: texts) = _
      rw [readTexts_cons glued_ne_separatorWord, read_glued, readTexts]
      cases readAll texts <;> rfl
    | false =>
      have hvalue : IsValue value := hp rfl
      have hread : Argument.read value = .ok (.value value) := hvalue
      change readTexts o (s.word :: value :: texts) = _
      rw [readTexts_cons word_ne_separatorWord, read_word,
        readAll_cons hvalue.ne_separatorWord, hread, readTexts]
      cases readAll texts <;> rfl
  | quiet =>
    have hread : Argument.read Flag.quiet.word = .ok (.option .quiet none) := rfl
    change readTexts o (Flag.quiet.word :: texts) = _
    rw [readTexts_cons (by decide), hread, readTexts]
    cases readAll texts <;> rfl

/-- An option is refused whose value is not taken for one. -/
theorem readTexts_unsound {s : Setting} {value : String} (h : ¬IsValue value) :
    ∃ cause, readTexts o (s.word :: value :: texts) = .error cause := by
  rw [readTexts_cons word_ne_separatorWord, read_word]
  by_cases hseparator : value = separatorWord
  · rw [readAll, if_pos hseparator]
    exact ⟨_, rfl⟩
  · rw [readAll_cons hseparator]
    cases hread : Argument.read value with
    | error cause => exact ⟨cause, rfl⟩
    | ok arg =>
      cases readAll texts with
      | error cause => exact ⟨cause, rfl⟩
      | ok args =>
        cases arg with
        | value text => exact absurd (isValue_of_read hread) h
        | option flag value => exact ⟨_, rfl⟩
        | unknown text => exact ⟨_, rfl⟩
        | separator => exact absurd hread read_ne_separator

theorem head?_words (hinputs : ∀ path, .input path ∈ ps → IsValue path) :
    (ps.flatMap Piece.words).head? ≠ some separatorWord := by
  cases ps with
  | nil => exact nofun
  | cons p ps =>
    cases p with
    | input path =>
      have hpath := (hinputs path List.mem_cons_self).ne_separatorWord
      exact fun h => hpath (Option.some.inj h)
    | setting s e =>
      obtain ⟨value, glued⟩ := e
      cases glued with
      | true => exact fun h => glued_ne_separatorWord (Option.some.inj h)
      | false => exact fun h => word_ne_separatorWord (Option.some.inj h)
    | quiet => exact fun h => absurd (Option.some.inj h) (by decide)

/-- No second input is given. -/
def OneInput (o : Options) (ps : List Piece) : Prop :=
  ps.countP Piece.isInput + o.input.toList.length ≤ 1

theorem OneInput.free (h : o.OneInput (p :: ps)) (hp : p.isInput = true) : o.input = none := by
  rw [OneInput, List.countP_cons_of_pos hp] at h
  cases hinput : o.input with
  | none => rfl
  | some path =>
    rw [hinput, Option.toList_some, List.length_singleton] at h
    omega

theorem OneInput.tail (h : o.OneInput (p :: ps)) : (p.apply o).OneInput ps := by
  cases p with
  | input path =>
    have hfree := h.free rfl
    rw [OneInput, List.countP_cons_of_pos rfl, hfree] at h
    exact h
  | setting s e => cases s <;> exact h
  | quiet => exact h

/-- Sound pieces are read in the order in which they stand. -/
theorem readTexts_pieces (hsound : ∀ p ∈ ps, p.Sound) (hinput : o.OneInput ps) :
    readTexts o (ps.flatMap Piece.words) = .ok (.conversion (ps.foldl Piece.apply o)) := by
  induction ps generalizing o with
  | nil => rfl
  | cons p ps ih =>
    have hrest : ∀ q ∈ ps, q.Sound := fun q hq => hsound q (List.mem_cons_of_mem _ hq)
    rw [List.flatMap_cons, readTexts_words (hsound p List.mem_cons_self) hinput.free
      (head?_words fun path hpath => hrest _ hpath)]
    exact ih hrest hinput.tail

/-- Pieces that are not all sound are refused: if nothing is wrong before, at the first that is
not. -/
theorem readTexts_pieces_error (hinputs : ∀ path, .input path ∈ ps → IsValue path)
    (hinput : o.OneInput ps) (hunsound : ∃ p ∈ ps, ¬p.Sound) :
    ∃ cause, readTexts o (ps.flatMap Piece.words) = .error cause := by
  induction ps generalizing o with
  | nil =>
    obtain ⟨p, hp, -⟩ := hunsound
    cases hp
  | cons p ps ih =>
    have hrest : ∀ path, .input path ∈ ps → IsValue path :=
      fun path hpath => hinputs path (List.mem_cons_of_mem _ hpath)
    -- The reading goes on up to the first piece that is not sound, and ends there.
    by_cases hp : p.Sound
    · rw [List.flatMap_cons, readTexts_words hp hinput.free (head?_words hrest)]
      refine ih hrest hinput.tail ?_
      obtain ⟨q, hq, hbad⟩ := hunsound
      rcases List.mem_cons.1 hq with rfl | hq
      · exact absurd hp hbad
      · exact ⟨q, hq, hbad⟩
    · cases p with
      | input path => exact absurd (hinputs path List.mem_cons_self) hp
      | quiet => exact absurd trivial hp
      | setting s e =>
        obtain ⟨value, glued⟩ := e
        cases glued with
        | true => exact absurd nofun hp
        | false => exact readTexts_unsound fun hvalue => hp fun _ => hvalue

end Options

/-- What a command line says. A text that is no plain value cannot be said to be the input. -/
structure Line where
  input : Option String := none
  values : Setting → Option Entry := fun _ => none
  quiet : Bool := false
  isValue_input : ∀ path ∈ input, Argument.IsValue path := by simp

namespace Line

variable {l : Line} {args : List String}

/-- The pieces of a command line. -/
def pieces (l : Line) : List Piece :=
  l.input.toList.map .input ++
    [.start, .output, .logFile].flatMap (fun s => (l.values s).toList.map (.setting s)) ++
      if l.quiet then [.quiet] else []

/-- The arguments say it, in one order or another. -/
def PutAs (l : Line) (args : List String) : Prop :=
  ∃ ps : List Piece, ps.Perm l.pieces ∧ args = ps.flatMap Piece.words

/-- The options for which a command line asks. -/
def options (l : Line) : Options where
  input := l.input
  start := (l.values .start).map Entry.given
  output := (l.values .output).map Entry.given
  logFile := (l.values .logFile).map Entry.given
  quiet := l.quiet

/-- Every value that does not stand behind an equals sign is taken for a value. -/
def Sound (l : Line) : Prop :=
  ∀ s, ∀ e ∈ l.values s, e.glued = false → Argument.IsValue e.value

theorem mem_pieces {p : Piece} : p ∈ l.pieces ↔ match p with
    | .input path => l.input = some path
    | .setting s e => l.values s = some e
    | .quiet => l.quiet = true := by
  have hquiet : p ∈ (if l.quiet then [Piece.quiet] else []) ↔ l.quiet = true ∧ p = .quiet := by
    split <;> simp_all
  rw [pieces, List.mem_append, List.mem_append, hquiet]
  cases p with
  | input path => simp
  | setting s e => cases s <;> simp
  | quiet => simp

theorem countP_pieces : l.pieces.countP Piece.isInput = l.input.toList.length := by
  have hsettings (s : Setting) (x : Option Entry) :
      (x.toList.map (Piece.setting s)).countP Piece.isInput = 0 := by
    cases x <;> rfl
  have hquiet : (if l.quiet then [Piece.quiet] else []).countP Piece.isInput = 0 := by
    split <;> rfl
  rw [pieces, List.countP_append, List.countP_append, hquiet]
  simp only [List.flatMap_cons, List.flatMap_nil, List.countP_append, hsettings]
  cases l.input <;> rfl

theorem oneInput_of_perm {ps : List Piece} (h : ps.Perm l.pieces) : Options.OneInput {} ps := by
  rw [Options.OneInput, h.countP_eq, countP_pieces]
  cases l.input with
  | none => exact Nat.zero_le _
  | some path => exact Nat.le_refl _

theorem foldl_apply_pieces : l.pieces.foldl Piece.apply {} = l.options := by
  rw [pieces, options]
  simp only [List.flatMap_cons, List.flatMap_nil]
  cases l.input <;> cases l.values .start <;> cases l.values .output <;>
    cases l.values .logFile <;> cases l.quiet <;> rfl

/-- Different pieces may be exchanged. -/
theorem apply_comm {p q : Piece} (hp : p ∈ l.pieces) (hq : q ∈ l.pieces) (o : Options) :
    q.apply (p.apply o) = p.apply (q.apply o) := by
  rw [mem_pieces] at hp hq
  cases p with
  | input path =>
    cases q with
    | input path' =>
      rw [Option.some.inj (hp.symm.trans hq)]
    | setting s e => cases s <;> rfl
    | quiet => rfl
  | setting s e =>
    cases q with
    | input path => cases s <;> rfl
    | setting s' e' =>
      by_cases hs : s = s'
      · subst hs
        rw [Option.some.inj (hp.symm.trans hq)]
      · exact Options.set_comm hs
    | quiet => cases s <;> rfl
  | quiet =>
    cases q with
    | input path => rfl
    | setting s e => cases s <;> rfl
    | quiet => rfl

/-- In whatever order it is said, a sound command line asks for its options. -/
theorem ofArgs_of_sound (h : l.PutAs args) (hsound : l.Sound) :
    Invocation.ofArgs args = .ok (.conversion l.options) := by
  obtain ⟨ps, hperm, rfl⟩ := h
  have hpieces : ∀ p ∈ ps, p.Sound := by
    intro p hp
    have hmem := mem_pieces.1 (hperm.mem_iff.1 hp)
    cases p with
    | input path => exact l.isValue_input path hmem
    | setting s e => exact hsound s e hmem
    | quiet => trivial
  rw [Options.ofArgs_eq_readTexts, Options.readTexts_pieces hpieces (oneInput_of_perm hperm),
    hperm.foldl_eq' (fun p hp q hq o => ?_), foldl_apply_pieces]
  exact apply_comm (hperm.mem_iff.1 hp) (hperm.mem_iff.1 hq) o

/-- A command line that is not sound makes no sense. -/
theorem ofArgs_of_not_sound (h : l.PutAs args) (hunsound : ¬l.Sound) :
    ∃ cause, Invocation.ofArgs args = .error cause := by
  obtain ⟨ps, hperm, rfl⟩ := h
  have hinputs : ∀ path, .input path ∈ ps → Argument.IsValue path :=
    fun path hpath => l.isValue_input path (mem_pieces.1 (hperm.mem_iff.1 hpath))
  refine Options.readTexts_pieces_error hinputs (oneInput_of_perm hperm) ?_
  obtain ⟨s, e, he, hglued, hbad⟩ :
      ∃ s, ∃ e ∈ l.values s, e.glued = false ∧ ¬Argument.IsValue e.value := by
    simpa [Sound] using hunsound
  exact ⟨.setting s e, hperm.mem_iff.2 (mem_pieces.2 he), fun h => hbad (h hglued)⟩

end Line

end ContextFree.Command
