import PersistentCollections.Decimal.Shortest

/-!
# Reading decimals

The digits of a decimal are read into a word of 64 bits, as far as they fit, with a power of ten
beside it. Its value is found in two steps: the word is rounded to a floating-point number, and that
is multiplied or divided by the power, which rounds again. So the value may lie next to the number
that is nearest to the decimal. Where the word and the power are both exact, it is that number.
-/

namespace PersistentCollections.Decimal

namespace Numeral

/-- Whether another digit fits into the word. -/
def fits (n : Numeral) (digit : Nat) : Bool := 10 * n.digits + digit < Nat.pow 2 64

/-- Read digits before the point. From the first one on that does not fit they only count for the
power. -/
def readWhole (n : Numeral) : List Nat → Numeral
  | [] => n
  | d :: ds =>
    if n.fits d then readWhole ⟨10 * n.digits + d, n.exponent⟩ ds
    else ⟨n.digits, n.exponent + (ds.length + 1)⟩

/-- Read digits after the point. From the first one on that does not fit they are left out. -/
def readFraction (n : Numeral) : List Nat → Numeral
  | [] => n
  | d :: ds => if n.fits d then readFraction ⟨10 * n.digits + d, n.exponent - 1⟩ ds else n

end Numeral

/-- The greatest power of ten that numbers are scaled by. -/
def greatestPower : Nat := 308

def powerOfTen (exponent : Nat) : Float := Float.ofScientific 1 false exponent

/-- A number times a power of ten, in steps where the power is very small. The result has to be
finite. -/
def scale? (x : Float) (exponent : Int) : (steps : Nat) → Option Float
  | 0 => some x
  | steps + 1 =>
    if x == 0 then some x
    else if exponent < -greatestPower then
      scale? (x / powerOfTen greatestPower) (exponent + greatestPower) steps
    else if exponent < 0 then some (x / powerOfTen exponent.natAbs)
    else if exponent ≤ greatestPower then
      let y := x * powerOfTen exponent.natAbs
      if y.isFinite then some y else none
    else none

/-- The value of a numeral. -/
def Numeral.toFloat? (n : Numeral) : Option Float :=
  scale? (Float.ofNat n.digits) n.exponent (n.exponent.natAbs / greatestPower + 1)

/-- The digits at the beginning of a text, and what comes after them. -/
def spanDigits (cs : List Char) : List Nat × List Char :=
  ((cs.takeWhile Char.isDigit).map fun c => c.toNat - '0'.toNat, cs.dropWhile Char.isDigit)

def digitsValue (ds : List Nat) : Nat := ds.foldl (fun n d => 10 * n + d) 0

/-- The power that is written after the digits, which may be none. -/
def readExponent? (cs : List Char) : Option Int :=
  match cs with
  | [] => some 0
  | mark :: rest =>
    if mark != 'e' && mark != 'E' then none
    else
      let negative := rest.head? == some '-'
      let (ds, left) := spanDigits (if negative || rest.head? == some '+' then rest.tail else rest)
      if ds.isEmpty || !left.isEmpty then none
      else if negative then some (-(digitsValue ds)) else some (digitsValue ds)

/-- A number as it is written in JSON. -/
def read? (text : String) : Option Float := do
  let negative := text.toList.head? == some '-'
  let (whole, rest) := spanDigits (if negative then text.toList.tail else text.toList)
  if whole.isEmpty then failure
  let (fraction, rest) := match rest with
    | '.' :: rest => spanDigits rest
    | _ => ([], rest)
  let n := ((Numeral.mk 0 0).readWhole whole).readFraction fraction
  let x ← Numeral.toFloat? ⟨n.digits, n.exponent + (← readExponent? rest)⟩
  return if negative then -x else x

end PersistentCollections.Decimal
