import ContextFree.Text.Printable

/-! # Quoted text

How a name is shown inside a message: between quotes, with the characters that cannot
be printed written as escapes.
-/

namespace ContextFree.Text

/-- The lower-case hexadecimal digits of `n`, filled up with zeros to `width`. -/
def hex (width n : Nat) : List Char :=
  let digits := Nat.toDigits 16 n
  List.replicate (width - digits.length) '0' ++ digits

/-- The written form of one character between quotes `delimiter`. -/
def quoteChar (delimiter c : Char) : List Char :=
  if c = delimiter || c = '\x5C' then ['\x5C', c]
  else if c = '\n' then ['\x5C', 'n']
  else if c = '\r' then ['\x5C', 'r']
  else if c = '\t' then ['\x5C', 't']
  else if isPrintable c then [c]
  else if c.toNat < 0x100 then '\x5C' :: 'x' :: hex 2 c.toNat
  else if c.toNat < 0x10000 then '\x5C' :: 'u' :: hex 4 c.toNat
  else '\x5C' :: 'U' :: hex 8 c.toNat

/-- Quoted text stands between single quotes, unless it holds a single quote and no
double quote. -/
def delimiterFor (cs : List Char) : Char :=
  if cs.contains '\x27' && !cs.contains '\x22' then '\x22' else '\x27'

/-- The text between quotes, with escapes. -/
def quote (text : String) : String :=
  let cs := text.toList
  let delimiter := delimiterFor cs
  String.ofList (delimiter :: (cs.flatMap (quoteChar delimiter) ++ [delimiter]))

end ContextFree.Text
