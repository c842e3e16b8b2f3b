import PersistentCollections.Decimal.Dyadic

/-!
# Shortest decimals

The shortest decimal that reads back as a number: of all multiples of powers of ten in the interval
of the numbers that are rounded to it, one of the greatest power, and of these the nearest one. If
any multiple of a power is in the interval, one of the two next to the number is. Where two are
equally near, a `Tie` decides.
-/

namespace PersistentCollections.Decimal

/-- The decimal `digits * 10 ^ exponent`. -/
structure Numeral where
  digits : Nat
  exponent : Int
  deriving DecidableEq

/-- Which of the two whole numbers next to a half is taken for it. -/
inductive Tie where
  /-- The even one. -/
  | toEven
  /-- The greater one. -/
  | up
  deriving DecidableEq

/-- Whether `down` is taken, and not `down + 1`, for a number in the middle of the two. -/
def Tie.takesLower (tie : Tie) (down : Nat) : Bool :=
  match tie with
  | .toEven => down % 2 == 0
  | .up => false

namespace Fraction

/-- Whether the value is nearer to the whole number below it, where `tie` decides a tie. -/
def nearerBelow (f : Fraction) (tie : Tie) : Bool :=
  let rest := f.value % f.denominator
  2 * rest < f.denominator ||
    (2 * rest == f.denominator && tie.takesLower (f.value / f.denominator))

/-- The nearest whole number. -/
def nearest (f : Fraction) (tie : Tie) : Nat :=
  let down := f.value / f.denominator
  if f.nearerBelow tie then down else down + 1

/-- The fraction over `10 ^ exponent`. -/
def overPower (f : Fraction) (exponent : Int) : Fraction :=
  let up := Nat.pow 10 (-exponent).toNat
  ⟨f.value * up, f.low * up, f.high * up, f.denominator * Nat.pow 10 exponent.toNat⟩

/-- Whether a whole number is in the interval; `closed` says whether its ends belong to it. -/
def holds (f : Fraction) (closed : Bool) (n : Nat) : Bool :=
  let x := n * f.denominator
  if closed then f.low ≤ x && x ≤ f.high else f.low < x && x < f.high

/-- The nearest whole number, if it is in the interval, or else the other one next to the value. -/
def whole? (f : Fraction) (closed : Bool) (tie : Tie) : Option Nat :=
  let down := f.value / f.denominator
  let order := if f.nearerBelow tie then [down, down + 1] else [down + 1, down]
  order.find? (f.holds closed)

/-- The greatest power of ten from `exponent` down that has a multiple in the interval, with that
multiple. Every power that is smaller than the interval has one. -/
def coarsest (f : Fraction) (closed : Bool) (tie : Tie) : (steps : Nat) → (exponent : Int) → Numeral
  | 0, exponent => ⟨(f.overPower exponent).value / (f.overPower exponent).denominator, exponent⟩
  | steps + 1, exponent =>
    match (f.overPower exponent).whole? closed tie with
    | some n => ⟨n, exponent⟩
    | none => f.coarsest closed tie steps (exponent - 1)

/-- A power of ten that is greater than the value. -/
def powerAbove (f : Fraction) : Int :=
  ((Nat.log2 f.value : Int) - Nat.log2 f.denominator) * 30103 / 100000 + 2

end Fraction

/-- The shortest decimal for the size of a number that is not zero. No number takes more than
seventeen digits. -/
def shortest (tie : Tie) (d : Dyadic) : Numeral :=
  let f := d.toFraction
  f.coarsest (d.mantissa % 2 == 0) tie 24 f.powerAbove

end PersistentCollections.Decimal
