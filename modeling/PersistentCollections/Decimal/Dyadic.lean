/-!
# Dyadic numbers

A finite floating-point number is a whole number times a power of two. `Dyadic.ofFloat?` takes it
apart, and `Dyadic.Scaled` is its size as a fraction of natural numbers.
-/

namespace PersistentCollections.Decimal

/-- The number `mantissa * 2 ^ exponent`, with its sign. -/
structure Dyadic where
  negative : Bool
  mantissa : Nat
  exponent : Int
  /-- Whether the next number towards zero is only half as far away as the next one away from it:
  the mantissa is the least of its binade. -/
  leastOfBinade : Bool
  deriving DecidableEq

/-- The size of a number as a fraction, with the ends of the interval of the numbers that are
rounded to it; all are over the same denominator. -/
structure Fraction where
  value : Nat
  low : Nat
  high : Nat
  denominator : Nat

namespace Dyadic

/-- The parts of a finite number. -/
def ofFloat? (x : Float) : Option Dyadic :=
  let bits := x.toBits.toNat
  let negative := decide (Nat.pow 2 63 ≤ bits)
  let biased : Nat := bits / Nat.pow 2 52 % Nat.pow 2 11
  let fraction := bits % Nat.pow 2 52
  if biased = 2047 then none
  else if biased = 0 then some ⟨negative, fraction, -1074, false⟩
  else some ⟨negative, Nat.pow 2 52 + fraction, (biased : Int) - 1075, fraction == 0 && biased != 1⟩

/-- The size of a number and its interval, in quarters of the unit of its mantissa. -/
def toFraction (d : Dyadic) : Fraction :=
  let scale := Nat.pow 2 (d.exponent - 2).toNat
  let below := if d.leastOfBinade then 1 else 2
  ⟨4 * d.mantissa * scale, (4 * d.mantissa - below) * scale, (4 * d.mantissa + 2) * scale,
    Nat.pow 2 (2 - d.exponent).toNat⟩

end Dyadic

end PersistentCollections.Decimal
