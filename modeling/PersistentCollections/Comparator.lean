/-!
# Comparators

An order on the keys of a sorted collection, as a value. A sorted collection keeps one for its
whole life and hands it to every version made from it.
-/

namespace PersistentCollections

/-- A way to compare keys, and how it is shown. -/
structure Comparator (κ : Type) where
  compare : κ → κ → Ordering
  label : String

namespace Comparator

variable {κ : Type}

/-- The order that the type of the keys has by itself. -/
def natural [Ord κ] : Comparator κ := ⟨Ord.compare, "NaturalOrder"⟩

/-- The order that a function gives. -/
def byFunction (f : κ → κ → Ordering) : Comparator κ := ⟨f, "ByFn"⟩

/-- The opposite order. -/
def reversed (c : Comparator κ) : Comparator κ :=
  ⟨fun a b => c.compare b a, s!"Reversed({c.label})"⟩

/-- A total order up to equivalence: the two directions agree and "at most" is transitive. -/
def Total (c : Comparator κ) : Prop :=
  (∀ a b, c.compare b a = (c.compare a b).swap) ∧
    ∀ a b d, (c.compare a b).isLE → (c.compare b d).isLE → (c.compare a d).isLE

end Comparator

end PersistentCollections
