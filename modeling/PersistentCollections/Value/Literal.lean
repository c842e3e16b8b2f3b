import PersistentCollections.TrieVector.Transient
import PersistentCollections.Value.Keys

/-!
# Literals

A literal writes a value out. The collections in it are not there yet: `build` collects them, and so
may leave records. An item of a vector or a set goes in as soon as it is built; the entries of a map
are all built before the first of them goes in.
-/

namespace PersistentCollections

inductive Literal where
  /-- A value without a collection in it. -/
  | atom (v : Value)
  | pair (a b : Literal)
  | triple (a b c : Literal)
  | vector (items : List Literal)
  | map (entries : List (Literal × Literal))
  | set (items : List Literal)

namespace Literal

mutual

def build : Literal → Making Value
  | atom v => return v
  | pair a b => return .pair (← build a) (← build b)
  | triple a b c => return .triple (← build a) (← build b) (← build c)
  | vector items => do
    let v ← (← buildOnto .empty items).freeze
    return .ofItems (← newNumber) (← v.toList)
  | map entries => do
    let m ← Value.collectMap 0 (← buildEntries entries)
    return .ofMap (← newNumber) none m
  | set items => do
    let m ← buildInto .empty items
    return .ofSet (.ofMap (← m.thaw.freeze))

def buildList : List Literal → Making (List Value)
  | [] => return []
  | x :: xs => return (← build x) :: (← buildList xs)

def buildEntries : List (Literal × Literal) → Making (List (Value × Value))
  | [] => return []
  | (k, v) :: es => return (← build k, ← build v) :: (← buildEntries es)

/-- Build items and push each onto a vector. -/
def buildOnto (t : TrieVector.Transient Value) :
    List Literal → Making (TrieVector.Transient Value)
  | [] => return t
  | x :: xs => do buildOnto (← t.push (← build x)) xs

/-- Build items and add each to the map of a set. -/
def buildInto (m : HashTrieMap Value Unit) : List Literal → Making (HashTrieMap Value Unit)
  | [] => return m
  | x :: xs => do buildInto (← Value.add m (← build x)).2 xs

end

/-- Build two values and tell whether they are equal. -/
def buildPair (a b : Literal) : Making (Value × Value × Bool) := do
  let a ← build a
  let b ← build b
  return (a, b, ← Value.same false a b)

end Literal

end PersistentCollections
