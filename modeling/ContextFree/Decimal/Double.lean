/-! # Numbers of double precision

The magnitude of a number of double precision is a multiple of a power of two: the factor has at
most 53 binary digits, and the exponent of the power lies between -1074 and 971. Every ratio has a
nearest magnitude; of two that are equally near, the one with the even factor is taken. A ratio
whose nearest magnitude would need a greater exponent counts as infinite.
-/

namespace ContextFree

/-- The magnitude `factor * 2 ^ exponent`. -/
structure Magnitude where
  factor : Nat
  exponent : Int
  deriving DecidableEq, Repr

/-- A number of double precision. -/
inductive Double where
  /-- A magnitude with a sign. Zero has a sign, too. -/
  | finite (negative : Bool) (magnitude : Magnitude)
  /-- What lies beyond all magnitudes. -/
  | infinite (negative : Bool)
  /-- The result of a calculation that has none. -/
  | undefined
  deriving DecidableEq, Repr

namespace Magnitude

/-- The least factor of 53 binary digits. -/
def leastFactor : Nat := 1 <<< 52

/-- The integer nearest to `num / den`; of two that are equally near, the even one. -/
def roundRatio (num den : Nat) : Nat :=
  let floor := num / den
  match compare (2 * (num % den)) den with
  | .lt => floor
  | .eq => floor + floor % 2
  | .gt => floor + 1

/-- The ratio `num / den` times `base ^ e`. -/
def scale (base : Nat) (e : Int) (num den : Nat) : Nat × Nat :=
  (num * base.pow e.toNat, den * base.pow (-e).toNat)

/-- The exponent at which the factor of a ratio has 53 binary digits, or the least exponent. -/
def exponentFor (num den : Nat) : Int :=
  let e : Int := (num.log2 : Int) - (den.log2 : Int) - 52
  let (n, d) := scale 2 (-e) num den
  max (-1074) (if n < leastFactor * d then e - 1 else e)

/-- The magnitude nearest to a ratio when there is no upper limit to the exponent. A factor that
is rounded up to 54 binary digits is halved. -/
def nearest (num den : Nat) : Magnitude :=
  if num = 0 then ⟨0, -1074⟩
  else
    let e := exponentFor num den
    let (n, d) := scale 2 (-e) num den
    let factor := roundRatio n d
    if factor = 2 * leastFactor then ⟨leastFactor, e + 1⟩ else ⟨factor, e⟩

/-- A rounded quotient is one of the two integers next to the quotient. -/
theorem roundRatio_eq (num den : Nat) :
    roundRatio num den = num / den ∨ roundRatio num den = num / den + 1 := by
  unfold roundRatio
  simp only
  split <;> omega

/-- A rounded quotient is at most half a unit away from the quotient. -/
theorem roundRatio_near (num den : Nat) (h : 0 < den) :
    2 * num ≤ (2 * roundRatio num den + 1) * den ∧
      2 * roundRatio num den * den ≤ 2 * num + den := by
  have split := Nat.div_add_mod num den
  have small := Nat.mod_lt num h
  rw [Nat.mul_comm] at split
  unfold roundRatio
  simp only [Nat.add_mul, Nat.mul_assoc, Nat.one_mul]
  split
  · next c => have := Nat.compare_eq_lt.1 c; omega
  · next c =>
    have := Nat.compare_eq_eq.1 c
    have : num / den % 2 * den ≤ den := by
      rcases Nat.mod_two_eq_zero_or_one (num / den) with e | e <;> simp [e]
    simp only [Nat.add_mul, Nat.mul_add]
    omega
  · next c =>
    have := Nat.compare_eq_gt.1 c
    simp only [Nat.add_mul, Nat.mul_add, Nat.one_mul]
    omega

end Magnitude

namespace Double

/-- The number nearest to a ratio, or to its negative. -/
def nearest (negative : Bool) (num den : Nat) : Double :=
  let magnitude := Magnitude.nearest num den
  if magnitude.exponent ≤ 971 then finite negative magnitude else infinite negative

/-- The number nearest to `digits * 10 ^ exponent`, or to its negative. -/
def ofDecimal (negative : Bool) (digits : Nat) (exponent : Int) : Double :=
  let (n, d) := Magnitude.scale 10 exponent digits 1
  nearest negative n d

end Double

end ContextFree
