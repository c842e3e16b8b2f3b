/-!
# Sets of numbers

A finite set of numbers, kept as the bits of one number. Union is quick, also of large sets.
-/

namespace PersistentCollections

structure NumberSet where
  bits : Nat
  deriving DecidableEq

namespace NumberSet

def empty : NumberSet := ⟨0⟩

def singleton (n : Nat) : NumberSet := ⟨Nat.pow 2 n⟩

def union (s t : NumberSet) : NumberSet := ⟨Nat.lor s.bits t.bits⟩

def contains (s : NumberSet) (n : Nat) : Bool := s.bits.testBit n

def isEmpty (s : NumberSet) : Bool := s.bits == 0

/-- The numbers below a bound. -/
def below (s : NumberSet) (bound : Nat) : List Nat := (List.range bound).filter s.contains

end NumberSet

end PersistentCollections
