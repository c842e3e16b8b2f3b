import PersistentCollections.SortedMap.Cursor
import PersistentCollections.SortedMap.Range

/-!
# Sorted sets

A set is a sorted map from its elements to nothing, with a cached hash of its own. An element that
is there already stays the one that is stored.
-/

namespace PersistentCollections

/-- A sorted set. `cache` holds its hash once that has been asked for. -/
structure SortedSet (α : Type) where
  map : SortedMap α Unit
  cache : Option UInt32

namespace SortedSet

open SortedMap (Bound Flaw)

variable {α : Type}

def ofMap (map : SortedMap α Unit) : SortedSet α := ⟨map, none⟩

/-- The empty set with a given order. -/
def empty (c : Comparator α) : SortedSet α := ofMap (.empty c)

def comparator (s : SortedSet α) : Comparator α := s.map.comparator

def size (s : SortedSet α) : Nat := s.map.size

def isEmpty (s : SortedSet α) : Bool := s.map.isEmpty

/-! ## Elements -/

def contains (s : SortedSet α) (x : α) : Bool := s.map.contains x

/-- The stored element that is equivalent to a given one. -/
def get? (s : SortedSet α) (x : α) : Option α := (s.map.entryAt? x).map (·.1)

def first? (s : SortedSet α) : Option α := s.map.first?.map (·.1)

def last? (s : SortedSet α) : Option α := s.map.last?.map (·.1)

def insert (s : SortedSet α) (x : α) : SortedSet α :=
  if s.contains x then s else ofMap (s.map.insert x ())

def erase (s : SortedSet α) (x : α) : Result (SortedSet α) :=
  if s.contains x then ofMap <$> s.map.erase x else .ok s

/-- The set of the elements of a list, in the order that they have by themselves. -/
def ofList [Ord α] (xs : List α) : SortedSet α := xs.foldl insert (empty .natural)

/-! ## Walking -/

/-- A walk through the elements. -/
structure Iter (α : Type) where
  entries : SortedMap.Iter α Unit

def iter (s : SortedSet α) : Iter α := ⟨s.map.iter⟩

namespace Iter

/-- The least number of elements left, and the greatest where that is known. -/
def sizeHint (it : Iter α) : Nat × Option Nat := it.entries.sizeHint

def next (it : Iter α) : Option (α × Iter α) :=
  it.entries.next.map fun (entry, entries) => (entry.1, ⟨entries⟩)

/-- The next elements, at most `n` of them, and the walk after them. -/
def take (n : Nat) (it : Iter α) : List α × Iter α :=
  let (entries, rest) := it.entries.take n
  (entries.map (·.1), ⟨rest⟩)

end Iter

/-- The elements, in ascending order. -/
def toList (s : SortedSet α) : List α := s.map.keys

/-- The elements between two bounds, in ascending order. -/
def range (s : SortedSet α) (low high : Bound α) : List α :=
  (s.map.range low high).toList.map (·.1)

/-- The elements between two bounds, in descending order. -/
def backRange (s : SortedSet α) (low high : Bound α) : List α :=
  (s.map.backRange low high).toList.map (·.1)

/-- A position on an element. -/
structure Cursor (α : Type) where
  entries : SortedMap.Cursor α Unit

/-- The cursor at the least element if `ascending`, else at the greatest; an empty set has none. -/
def cursor (s : SortedSet α) (ascending : Bool) : Option (Cursor α) :=
  (s.map.cursor ascending).map Cursor.mk

/-- The cursor at the first element that is not before a given one in the direction of travel. -/
def cursorAt (s : SortedSet α) (x : α) (ascending : Bool) : Option (Cursor α) :=
  (s.map.cursorAt x ascending).map Cursor.mk

namespace Cursor

def first (c : Cursor α) : α := c.entries.key

def next (c : Cursor α) : Option (Cursor α) := c.entries.next.map Cursor.mk

def count (c : Cursor α) : Nat := c.entries.count

/-- The elements from here on, at most `n` of them, and the cursor after them if there is one. -/
def take (n : Nat) (c : Cursor α) : List α × Option (Cursor α) :=
  let (entries, rest) := c.entries.take n
  (entries.map (·.1), rest.map Cursor.mk)

end Cursor

/-- Fold over the elements in ascending order; the step function can stop the fold. -/
def reduceM {m : Type → Type} [Monad m] {β : Type} (s : SortedSet α)
    (f : β → α → m (ForInStep β)) (b : β) : m β :=
  s.map.reduceM (fun b e => f b e.1) b

/-! ## Equality, hash and check -/

/-- Two sets are equal if they have as many elements and each element of the one is found in the
other, by the order of the other. -/
def equals (s other : SortedSet α) : Bool :=
  s.size == other.size && s.toList.all other.contains

/-- The hash of the elements, read afresh. -/
def contentHash [HashCode α] (s : SortedSet α) : UInt32 :=
  Hash.unordered (s.toList.map hashCode)

/-- The hash, taken from the cache if it is there. -/
def hash [HashCode α] (s : SortedSet α) : UInt32 := s.cache.getD s.contentHash

/-- The same set with its hash in the cache. -/
def hashed [HashCode α] (s : SortedSet α) : SortedSet α := { s with cache := some s.hash }

/-- Look for a flaw in the tree of the set. -/
def check (s : SortedSet α) : Except Flaw Unit := s.map.check

/-- The text of a set, given the text of its elements. -/
def text (shown : α → String) (s : SortedSet α) : String :=
  Text.ofSet (s.toList.map shown)

end SortedSet

end PersistentCollections
