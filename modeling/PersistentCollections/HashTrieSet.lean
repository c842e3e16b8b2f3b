import PersistentCollections.HashTrieMap.Cursor
import PersistentCollections.HashTrieMap.Transient

/-!
# Hash sets

A set is a hash map from its elements to nothing, with a cached hash of its own. An element that
is there already stays the one that is stored.
-/

namespace PersistentCollections

/-- A hash set. `cache` holds its hash once that has been asked for. -/
structure HashTrieSet (α : Type) where
  map : HashTrieMap α Unit
  cache : Option UInt32

namespace HashTrieSet

variable {α : Type}

def ofMap (map : HashTrieMap α Unit) : HashTrieSet α := ⟨map, none⟩

def empty : HashTrieSet α := ofMap .empty

/-- The same set, with another stamp for what will be written. -/
def stamped (s : HashTrieSet α) (stamp : Nat) : HashTrieSet α :=
  { s with map := s.map.stamped stamp }

def size (s : HashTrieSet α) : Nat := s.map.size

def isEmpty (s : HashTrieSet α) : Bool := s.map.isEmpty

/-- The elements, in the order of iteration. -/
def toList (s : HashTrieSet α) : List α := s.map.keys

/-- Fold over the elements in the order of iteration; the step function can stop the fold. -/
def reduceM {m : Type → Type} [Monad m] {β : Type} (s : HashTrieSet α)
    (f : β → α → m (ForInStep β)) (b : β) : m β :=
  s.map.reduceM (fun b e => f b e.1) b

/-- The text of a set, given the text of its elements. -/
def text (shown : α → String) (s : HashTrieSet α) : String :=
  Text.ofSet (s.toList.map shown)

/-! ## Iterators and cursors -/

/-- An iterator over the elements. -/
structure Iter (α : Type) where
  entries : HashTrieMap.Iter α Unit

def iter (s : HashTrieSet α) : Iter α := ⟨s.map.iter⟩

namespace Iter

def remaining (it : Iter α) : Nat := it.entries.remaining

def next (it : Iter α) : Option (α × Iter α) :=
  it.entries.next.map fun (entry, entries) => (entry.1, ⟨entries⟩)

/-- The next elements, at most `n` of them, and the iterator after them. -/
def take (n : Nat) (it : Iter α) : List α × Iter α :=
  let (entries, rest) := it.entries.take n
  (entries.map (·.1), ⟨rest⟩)

end Iter

/-- A position on an element. -/
structure Cursor (α : Type) where
  entries : HashTrieMap.Cursor α Unit

/-- The cursor at the first element; an empty set has none. -/
def cursor (s : HashTrieSet α) : Option (Cursor α) := s.map.cursor.map Cursor.mk

namespace Cursor

def first (c : Cursor α) : Result α := c.entries.key

def next (c : Cursor α) : Option (Cursor α) := c.entries.next.map Cursor.mk

def count (c : Cursor α) : Nat := c.entries.count

/-- The elements from here on, at most `n` of them, and the cursor after them if there is one. -/
def take (n : Nat) (c : Cursor α) : Result (List α × Option (Cursor α)) := do
  let (entries, rest) ← c.entries.take n
  return (entries.map (·.1), rest.map Cursor.mk)

end Cursor

/-- The hash of the elements, read afresh. -/
def contentHash [HashCode α] (s : HashTrieSet α) : UInt32 :=
  Hash.unordered (s.toList.map hashCode)

/-- The hash, taken from the cache if it is there. -/
def hash [HashCode α] (s : HashTrieSet α) : UInt32 := s.cache.getD s.contentHash

/-- The same set with its hash in the cache. -/
def hashed [HashCode α] (s : HashTrieSet α) : HashTrieSet α := { s with cache := some s.hash }

section

variable [BEq α] [HashCode α]

/-! ## Elements -/

def contains (s : HashTrieSet α) (x : α) : Result Bool := s.map.contains x

/-- The stored element that is equal to a given one. -/
def get? (s : HashTrieSet α) (x : α) : Result (Option α) :=
  return (← s.map.entryAt? x).map (·.1)

/-- Whether every listed element is in a set. -/
def includes (s : HashTrieSet α) : List α → Result Bool
  | [] => .ok true
  | x :: xs => do if ← s.contains x then s.includes xs else return false

/-- Whether every element of the one set is in the other. -/
def isSubset (s other : HashTrieSet α) : Result Bool :=
  if s.size ≤ other.size then other.includes s.toList else .ok false

/-- Two sets are equal if they have as many elements and each element of the one is in the other. -/
def equals (s other : HashTrieSet α) : Result Bool :=
  if s.size = other.size then other.includes s.toList else .ok false

def insert (s : HashTrieSet α) (x : α) : Logged (HashTrieSet α) := do
  if ← s.contains x then return s else return ofMap (← s.map.insert x ())

def erase (s : HashTrieSet α) (x : α) : Logged (HashTrieSet α) := do
  if ← s.contains x then return ofMap (← s.map.erase x) else return s

end

/-! ## Transients -/

/-- A set that is being built. -/
structure Transient (α : Type) where
  map : HashTrieMap.Transient α Unit

/-- A transient with the elements of a set; the set stays as it is. -/
def transient (s : HashTrieSet α) : Transient α := ⟨s.map.transient⟩

namespace Transient

def empty : Transient α := ⟨.empty⟩

def size (t : Transient α) : Nat := t.map.size

def isEmpty (t : Transient α) : Bool := t.map.isEmpty

/-- End the building. -/
def freeze (t : Transient α) : Logged (HashTrieSet α) := return ofMap (← t.map.freeze)

def text (shown : α → String) (t : Transient α) : String :=
  Text.wrapped "TransientHashSet" (t.map.text shown fun _ => "()")

variable [BEq α] [HashCode α]

def contains (t : Transient α) (x : α) : Result Bool := t.map.contains x

/-- Add an element, and tell whether it was not there. -/
def add (t : Transient α) (x : α) : Logged (Bool × Transient α) := do
  if ← t.contains x then return (false, t)
  else return (true, ⟨← t.map.insert x ()⟩)

/-- Take an element out, and tell whether it was there. -/
def take (t : Transient α) (x : α) : Logged (Bool × Transient α) := do
  let (old, map) ← t.map.take x
  return (old.isSome, ⟨map⟩)

def insert (t : Transient α) (x : α) : Logged (Transient α) := return (← t.add x).2

def erase (t : Transient α) (x : α) : Logged (Transient α) := return (← t.take x).2

/-- Add elements, in order. -/
def extend (t : Transient α) (xs : List α) : Logged (Transient α) := xs.foldlM insert t

end Transient

/-! ## Set algebra -/

section

variable [BEq α] [HashCode α]

/-- The set of the elements of a list. -/
def ofList (xs : List α) : Logged (HashTrieSet α) := do
  (← Transient.empty.extend xs).freeze

/-- The elements of either set: those of the smaller set, added to the larger one. -/
def union (s other : HashTrieSet α) : Logged (HashTrieSet α) := do
  let (big, small) := if s.size ≥ other.size then (s, other) else (other, s)
  if small.isEmpty then return big
  else (← big.transient.extend small.toList).freeze

/-- A step of an intersection: take an element in if the larger set has it. -/
def intersectionStep (big : HashTrieSet α) (t : Transient α) (x : α) : Logged (Transient α) := do
  if ← big.contains x then t.insert x else return t

/-- The elements of both sets: those of the smaller set that are in the larger one. -/
def intersection (s other : HashTrieSet α) : Logged (HashTrieSet α) := do
  let (small, big) := if s.size ≤ other.size then (s, other) else (other, s)
  (← small.toList.foldlM big.intersectionStep Transient.empty).freeze

/-- The elements of the one set that are not in the other. -/
def difference (s other : HashTrieSet α) : Logged (HashTrieSet α) := do
  (← other.toList.foldlM Transient.erase s.transient).freeze

end

end HashTrieSet

end PersistentCollections
