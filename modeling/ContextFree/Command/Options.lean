import ContextFree.Command.Argument

/-! # The command line

The arguments name an input file and give options in any order. A setting takes its value from
behind its equals sign or else from the next argument, and the last value counts. A separator is
never a value: where one stands behind an equals sign, the setting is given without a value.
-/

namespace ContextFree.Command

/-- What is given for a setting. -/
inductive Given where
  /-- A text. -/
  | text (value : String)
  /-- Nothing: a separator stands in the place of the value, and it is dropped. -/
  | nothing
  deriving DecidableEq, Repr

/-- What a text gives. -/
def Given.ofText (value : String) : Given :=
  if value = Argument.separatorWord then nothing else text value

/-- What a conversion is asked to do. -/
structure Options where
  input : Option String := none
  start : Option Given := none
  output : Option Given := none
  logFile : Option Given := none
  quiet : Bool := false
  deriving DecidableEq, Repr

/-- What the arguments ask for. -/
inductive Invocation where
  /-- An explanation of the command. -/
  | help
  /-- A conversion. -/
  | conversion (options : Options)
  deriving DecidableEq, Repr

namespace Options

/-- Changes a setting. -/
def set (o : Options) (value : String) : Setting → Options
  | .start => { o with start := some (.ofText value) }
  | .output => { o with output := some (.ofText value) }
  | .logFile => { o with logFile := some (.ofText value) }

/-- Reads arguments one after the other; `strays` are the earlier ones without meaning, the
last one first. The first value that no setting takes is the input, and a separator next to it
has no other meaning. -/
def readArguments (o : Options) (strays : List String) :
    List Argument → Except Misuse Invocation
  | [] =>
    if strays.isEmpty then .ok (.conversion o) else .error (.unrecognized strays.reverse)
  | .option .help none :: _ => .ok .help
  | .option .quiet none :: rest => readArguments { o with quiet := true } strays rest
  | .option (.setting s) none :: .value value :: rest =>
    readArguments (o.set value s) strays rest
  | .option (.setting s) none :: _ => .error (.noValue s)
  | .option (.setting s) (some value) :: rest =>
    readArguments (o.set value s) strays rest
  | .option flag (some value) :: _ => .error (.extraValue flag value)
  | .unknown text :: rest => readArguments o (text :: strays) rest
  | .value text :: rest =>
    if o.input.isSome then readArguments o (text :: strays) rest
    else match rest with
      | .separator :: rest => readArguments { o with input := some text } strays rest
      | rest => readArguments { o with input := some text } strays rest
  | .separator :: rest =>
    if o.input.isSome then readArguments o (Argument.separatorWord :: strays) rest
    else match rest with
      | .value text :: rest => readArguments { o with input := some text } strays rest
      | rest => readArguments o strays rest

end Options

/-- What a list of arguments asks for. -/
def Invocation.ofArgs (args : List String) : Except Misuse Invocation := do
  Options.readArguments {} [] (← Argument.readAll args)

end ContextFree.Command
