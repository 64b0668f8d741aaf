import ContextFree.Decimal.Shortest

/-! # Written numbers

A decimal is written with a point: between its digits, before or behind them with zeros to fill
the gap, or, where the gap would be wide, behind the first digit and with an exponent. A number
that is not finite is written as a word.
-/

namespace ContextFree

namespace Decimal

/-- Digits with the point behind the first `point` of them; zeros fill the gap where there are
fewer digits, and at least one digit stands on either side. -/
def positional (digits : List Char) (point : Int) : List Char :=
  let whole := digits.take point.toNat
  let places := digits.drop point.toNat
  let filled := whole ++ List.replicate (point.toNat - whole.length) '0'
  (if filled.isEmpty then ['0'] else filled) ++ '.' :: List.replicate (-point).toNat '0' ++
    (if places.isEmpty then ['0'] else places)

/-- Digits with the point behind the first one, if there are others, and an exponent of at least
two digits. -/
def scientific (digits : List Char) (exponent : Int) : List Char :=
  let places := digits.drop 1
  let power := Nat.toDigits 10 exponent.natAbs
  digits.take 1 ++ (if places.isEmpty then [] else '.' :: places) ++
    'e' :: (if exponent < 0 then '-' else '+') :: List.replicate (2 - power.length) '0' ++ power

/-- The written form: positional if the number is at least a ten-thousandth and has at most
sixteen digits before the point. -/
def text (d : Decimal) : String :=
  let digits := Nat.toDigits 10 d.digits
  let point : Int := digits.length + d.exponent
  String.ofList <|
    if -4 < point && point ≤ 16 then positional digits point else scientific digits (point - 1)

end Decimal

/-- The written form of a magnitude: the shortest decimal that stands for it. -/
def Magnitude.text (x : Magnitude) : String :=
  if x.factor = 0 then "0.0" else x.shortest.text

namespace Double

/-- The mark in front of a negative number. -/
def mark (negative : Bool) : String :=
  if negative then "-" else ""

/-- The written form of a number. -/
def text : Double → String
  | finite negative magnitude => mark negative ++ magnitude.text
  | infinite negative => mark negative ++ "Infinity"
  | undefined => "NaN"

end Double

end ContextFree
