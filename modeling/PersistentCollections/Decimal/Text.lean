import PersistentCollections.Decimal.Shortest

/-!
# The text of numbers

Numbers are written in two ways. `Style.text` gives the shortest decimal, with an exponent where the
number is very small or very large; a `Style` says where that is and how it is written. `fixed`
gives one decimal, and a tie goes to the even digit.
-/

namespace PersistentCollections.Decimal

def sign (negative : Bool) : String := if negative then "-" else ""

def zeros (n : Nat) : String := String.ofList (.replicate n '0')

/-- The digits of a decimal with the point after the first `point` of them. -/
def positional (digits : String) (point : Int) : String :=
  let before := point.toNat
  if point ≤ 0 then "0." ++ zeros (-point).toNat ++ digits
  else if digits.length ≤ before then digits ++ zeros (before - digits.length) ++ ".0"
  else String.ofList (digits.toList.take before) ++ "." ++ String.ofList (digits.toList.drop before)

/-- How a shortest decimal is written. -/
structure Style where
  /-- Numbers below this power of ten have an exponent. -/
  leastPower : Int
  /-- Numbers from this power of ten on have an exponent. -/
  greatestPower : Int
  /-- Whether an exponent above zero has a plus sign. -/
  plusSign : Bool
  /-- Which of two shortest decimals is taken when they are equally near. -/
  tie : Tie

namespace Style

/-- The digits of a decimal with the point after the first of them, and a power of ten. -/
def scientific (style : Style) (digits : String) (power : Int) : String :=
  let mantissa := match digits.toList with
    | first :: rest@(_ :: _) => String.ofList (first :: '.' :: rest)
    | _ => digits
  let plus := if style.plusSign && 0 ≤ power then "+" else ""
  s!"{mantissa}e{plus}{power}"

/-- The shortest decimal of a finite number. -/
def text (style : Style) (d : Dyadic) : String :=
  if d.mantissa = 0 then sign d.negative ++ "0.0"
  else
    let decimal := shortest style.tie d
    let digits := toString decimal.digits
    let power := decimal.exponent + digits.length - 1
    sign d.negative ++
      (if style.leastPower ≤ power ∧ power < style.greatestPower then
        positional digits (power + 1)
      else style.scientific digits power)

end Style

/-- A finite number with one decimal. -/
def fixed (d : Dyadic) : String :=
  let f := d.toFraction
  let tenths := Fraction.nearest (f.overPower (-1)) .toEven
  s!"{sign d.negative}{tenths / 10}.{tenths % 10}"

end PersistentCollections.Decimal
