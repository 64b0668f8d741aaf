import ContextFree.Decimal.Double

/-! # Shortest decimals

Many decimals have one and the same nearest magnitude of double precision. Among them the one
on the coarsest grid of powers of ten is chosen, and there the one nearest to the magnitude; of
two that are equally near, the even one. The magnitude itself is a decimal, so there always is
one.
-/

namespace ContextFree

/-- The decimal `digits * 10 ^ exponent`. -/
structure Decimal where
  digits : Nat
  exponent : Int
  deriving DecidableEq, Repr

namespace Magnitude

/-- Whether the next magnitude below is only half as far away as the next one above. -/
def isNarrow (x : Magnitude) : Bool :=
  x.factor = leastFactor && -1074 < x.exponent

/-- Whether `x` is the magnitude nearest to `digits * 10 ^ e`. The ends of the interval of such
decimals lie halfway to the next magnitudes and belong to it if the factor is even. -/
def isNearest (x : Magnitude) (e : Int) (digits : Nat) : Bool :=
  let (n, d) := scale 2 x.exponent 1 1
  let (unit, den) := scale 10 (-e) n d
  let low := (4 * x.factor - if x.isNarrow then 1 else 2) * unit
  let high := (4 * x.factor + 2) * unit
  let value := 4 * digits * den
  if x.factor % 2 = 0 then low ≤ value && value ≤ high else low < value && value < high

/-- How many units of `10 ^ e` are in `x`, as a ratio. -/
def inUnits (x : Magnitude) (e : Int) : Nat × Nat :=
  let (n, d) := scale 2 x.exponent x.factor 1
  scale 10 (-e) n d

/-- The multiple of `10 ^ e` that is closest to `x` among those next to it for which `x` is the
nearest magnitude. -/
def onGrid? (x : Magnitude) (e : Int) : Option Nat :=
  let (n, d) := x.inUnits e
  let closer := roundRatio n d
  [closer, 2 * (n / d) + 1 - closer].find? (x.isNearest e)

/-- The decimal on the first of the grids `10 ^ e`, `10 ^ (e - 1)`, … that has one, and the
multiple below `x` on the last grid if no grid before it does. -/
def search (x : Magnitude) : (tries : Nat) → (e : Int) → Decimal
  | 0, e => ⟨(x.inUnits e).1 / (x.inUnits e).2, e⟩
  | tries + 1, e =>
    match x.onGrid? e with
    | some digits => ⟨digits, e⟩
    | none => search x tries (e - 1)

/-- The shortest decimal for which `x` is the nearest magnitude. The search begins with a power of
ten above `x` and ends with one of which `x` is a multiple. -/
def shortest (x : Magnitude) : Decimal :=
  let (n, d) := x.inUnits 0
  let top : Nat := (Nat.toDigits 10 (n / d)).length
  x.search ((top : Int) - min x.exponent 0).toNat top

/-- A decimal that is found on a grid has `x` as the magnitude nearest to it. -/
theorem isNearest_of_onGrid? {x : Magnitude} {e : Int} {digits : Nat}
    (h : x.onGrid? e = some digits) : x.isNearest e digits = true :=
  List.find?_some h

end Magnitude

end ContextFree
