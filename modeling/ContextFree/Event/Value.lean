import ContextFree.Arrangement
import ContextFree.Decimal.Notation

/-! # Structured data

The data of an event: null, truth values, integers, numbers of double precision, text, arrays
and objects. The written form is compact, lists the fields of an object in the order of their
keys, and keeps characters beyond the control characters as they are.
-/

namespace ContextFree.Event

/-- A structured value. -/
inductive Value where
  | null
  | bool (value : Bool)
  | int (value : Int)
  | double (value : Double)
  | text (value : String)
  | array (items : List Value)
  | object (fields : List (String × Value))

namespace Value

/-- An array of texts. -/
def texts (items : List String) : Value :=
  array (items.map text)

/-- The number `n`. -/
def nat (n : Nat) : Value :=
  int n

/-- A lower-case hexadecimal digit. -/
def hexDigit (n : Nat) : Char :=
  Nat.digitChar n

/-- The written form of one character of a text. -/
def escapeChar (c : Char) : List Char :=
  if c = '\x22' || c = '\x5C' then ['\x5C', c]
  else if c = '\n' then ['\x5C', 'n']
  else if c = '\r' then ['\x5C', 'r']
  else if c = '\t' then ['\x5C', 't']
  else if c = '\x08' then ['\x5C', 'b']
  else if c = '\x0C' then ['\x5C', 'f']
  else if c.toNat < 0x20 then
    ['\x5C', 'u', '0', '0', hexDigit (c.toNat / 16), hexDigit (c.toNat % 16)]
  else [c]

/-- A text between double quotes. -/
def writeText (value : String) : String :=
  String.ofList ('\x22' :: (value.toList.flatMap escapeChar ++ ['\x22']))

/-- Items between two marks, separated by commas. -/
def enclose (before after : Char) (items : List String) : String :=
  before.toString ++ ",".intercalate items ++ after.toString

mutual

/-- The written form of a value. -/
def write : Value → String
  | null => "null"
  | bool true => "true"
  | bool false => "false"
  | int value => toString value
  | double value => value.text
  | text value => writeText value
  | array items => enclose '[' ']' (writeItems items)
  | object fields =>
    enclose '\x7B' '\x7D' ((arrangeBy Prod.fst (writeFields fields)).map fun (key, item) =>
      writeText key ++ ":" ++ item)

/-- The written forms of the items of an array. -/
def writeItems : List Value → List String
  | [] => []
  | item :: items => write item :: writeItems items

/-- The keys of an object with the written forms of their values. -/
def writeFields : List (String × Value) → List (String × String)
  | [] => []
  | (key, item) :: fields => (key, write item) :: writeFields fields

end

/-- The fields of an object, where later ones take the place of earlier ones with the same
key. -/
def override (fields later : List (String × Value)) : List (String × Value) :=
  fields.filter (fun field => !later.any (·.1 = field.1)) ++ later

end Value

end ContextFree.Event
