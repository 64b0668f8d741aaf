import ContextFree.Text.Digit
import ContextFree.Text.Quoted

/-! # Arguments of the command

An argument is a value, an option or the separator behind which only values follow. The name of
an option may be cut short, and a value may stand behind it after an equals sign. Behind a short
form a value may also stand without one. What begins with a minus sign is still a value if it is
a negative number or holds a space.
-/

namespace ContextFree.Command

/-- The settings, which need a value. -/
inductive Setting where
  /-- The start symbol, in place of the one in the input. -/
  | start
  /-- The file for the final grammar. -/
  | output
  /-- The file for the events. -/
  | logFile
  deriving DecidableEq, Repr

/-- How a setting is written. -/
def Setting.word : Setting → String
  | start => "--start"
  | output => "--output"
  | logFile => "--log-file"

/-- The options. -/
inductive Flag where
  /-- Explains the command instead of running it. -/
  | help
  /-- Changes a setting. -/
  | setting (s : Setting)
  /-- Keeps the command from printing. -/
  | quiet
  deriving DecidableEq, Repr

namespace Flag

/-- All options. -/
def all : List Flag :=
  [help, setting .start, setting .output, setting .logFile, quiet]

/-- How an option is written. -/
def word : Flag → String
  | help => "--help"
  | setting s => s.word
  | quiet => "--quiet"

/-- What messages call an option: all its spellings. -/
def label : Flag → String
  | help => "-h/--help"
  | flag => flag.word

end Flag

/-- What is wrong with the arguments. -/
inductive Misuse where
  /-- An option is cut so short that it may be one of several. -/
  | ambiguous (arg : String) (flags : List Flag)
  /-- A setting lacks its value. -/
  | noValue (setting : Setting)
  /-- A value stands behind an option that takes none. -/
  | extraValue (flag : Flag) (value : String)
  /-- Arguments have no meaning. -/
  | unrecognized (args : List String)
  /-- A start symbol is given, but no input. -/
  | startWithoutInput
  deriving DecidableEq, Repr

/-- The wording of a misuse. -/
def Misuse.message : Misuse → String
  | ambiguous arg flags =>
    "ambiguous option: " ++ arg ++ " could match " ++ ", ".intercalate (flags.map Flag.word)
  | noValue setting => "argument " ++ setting.word ++ ": expected one argument"
  | extraValue flag value =>
    "argument " ++ flag.label ++ ": ignored explicit argument " ++ Text.quote value
  | unrecognized args => "unrecognized arguments: " ++ " ".intercalate args
  | startWithoutInput => "--start requires an input grammar file"

/-- What an argument is taken for. -/
inductive Argument where
  /-- A plain value. -/
  | value (text : String)
  /-- An option, with the value behind its equals sign. -/
  | option (flag : Flag) (value : Option String)
  /-- An option that does not exist. -/
  | unknown (text : String)
  /-- The mark behind which all arguments are values. -/
  | separator
  deriving DecidableEq, Repr

namespace Argument

/-- The texts before and behind the first equals sign. -/
def cutEquals (cs : List Char) : List Char × Option (List Char) :=
  match cs.dropWhile (· ≠ '=') with
  | [] => (cs, none)
  | _ :: behind => (cs.takeWhile (· ≠ '='), some behind)

/-- Whether a text is a minus sign and a number: digits, or digits with a point before the last
of them. A line feed may follow. -/
def isNegativeNumber : List Char → Bool
  | '-' :: cs =>
    let cs := if cs.getLast? = some '\n' then cs.dropLast else cs
    match cs.dropWhile Text.isDigit with
    | [] => !cs.isEmpty
    | '.' :: places => !places.isEmpty && places.all Text.isDigit
    | _ => false
  | _ => false

/-- What a text is taken for that begins with a minus sign and is no option. -/
def ofDashed (text : String) : Argument :=
  if isNegativeNumber text.toList || text.toList.contains ' ' then .value text
  else .unknown text

/-- What a text is taken for that begins with two minus signs: the only option whose name
continues the text before the first equals sign. -/
def ofLong (text : String) : Except Misuse Argument :=
  let (word, behind) := cutEquals text.toList
  match Flag.all.filter fun flag => word.isPrefixOf flag.word.toList with
  | [] => .ok (ofDashed text)
  | [flag] => .ok (.option flag (behind.map String.ofList))
  | flags => .error (.ambiguous text flags)

/-- What is left of letters behind the short form of the help option when those are dropped that
only repeat it. -/
def repeated (cs : List Char) : Option (List Char) :=
  match cs.dropWhile (· = 'h') with
  | [] => none
  | rest => some rest

/-- The value behind the short form of the help option. An equals sign may stand before it, and
letters that repeat the option are no part of it. -/
def shortValue : List Char → Option (List Char)
  | ['='] => some []
  | '=' :: behind => repeated behind
  | cs => repeated cs

/-- What a text is taken for. -/
def read (text : String) : Except Misuse Argument :=
  match text.toList with
  | '-' :: '-' :: _ => ofLong text
  | '-' :: 'h' :: rest => .ok (.option .help ((shortValue rest).map String.ofList))
  | '-' :: _ :: _ => .ok (ofDashed text)
  | _ => .ok (.value text)

/-- How the separator is written. -/
def separatorWord : String := "--"

/-- What texts are taken for; behind the separator all are values. -/
def readAll : List String → Except Misuse (List Argument)
  | [] => .ok []
  | text :: rest =>
    if text = separatorWord then .ok (.separator :: rest.map .value)
    else return (← read text) :: (← readAll rest)

end Argument

end ContextFree.Command
