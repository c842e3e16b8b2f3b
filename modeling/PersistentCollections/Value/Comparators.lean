import PersistentCollections.Comparator
import PersistentCollections.Value

/-!
# Orders on values

Besides the natural order: by magnitude, by length, by the last decimal digit, and the order in
which all values are equivalent. All but the one by length identify values that are not equal.
-/

namespace PersistentCollections.Value

/-- By the absolute value of the number. -/
def byMagnitude : Comparator Value :=
  .byFunction fun a b => compare a.number.toInt.natAbs b.number.toInt.natAbs

/-- By length, and in the natural order among values of one length. -/
def byLength : Comparator Value :=
  .byFunction fun a b => (compare a.length b.length).then (compare a b)

/-- By the number modulo ten, taken from zero to nine. -/
def byLastDigit : Comparator Value :=
  .byFunction fun a b => compare (a.number.toInt % 10) (b.number.toInt % 10)

/-- No value before another. -/
def allAlike : Comparator Value := .byFunction fun _ _ => .eq

end PersistentCollections.Value
