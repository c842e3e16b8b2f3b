import PersistentCollections.TrieVector.Iterator

/-!
# Transient vectors

A transient is a vector in the hands of a single owner who builds it step by step. `freeze` ends
that and leaves a record. The steps that can fail are `put` and `pop`, and they refuse before
anything is written. So a step that fails gives no new transient, and its owner still has the one
from before.
-/

namespace PersistentCollections.TrieVector

variable {α : Type}

/-- A vector that is being built. -/
structure Transient (α : Type) where
  vector : TrieVector α

/-- A transient with the elements of a vector; the vector stays as it is. -/
def transient (v : TrieVector α) : Transient α := ⟨v⟩

namespace Transient

def empty : Transient α := ⟨.empty⟩

def size (t : Transient α) : Nat := t.vector.size

def isEmpty (t : Transient α) : Bool := t.vector.isEmpty

def get? (t : Transient α) (index : Nat) : Result (Option α) := t.vector.get? index

def get (t : Transient α) (index : Nat) : Result α := t.vector.get index

def push (t : Transient α) (x : α) : Logged (Transient α) := return ⟨← t.vector.push x⟩

def put (t : Transient α) (index : Nat) (x : α) : Logged (Transient α) :=
  return ⟨← t.vector.put index x⟩

def pop (t : Transient α) : Result (Transient α) := return ⟨← t.vector.pop⟩

def extend (t : Transient α) (xs : List α) : Logged (Transient α) :=
  return ⟨← t.vector.extend xs⟩

/-- End the building. -/
def freeze (t : Transient α) : Logged (TrieVector α) := do
  record (.vectorFrozen t.size)
  return t.vector

def text (shown : α → String) (t : Transient α) : Result String := do
  return Text.wrapped "TransientVector" (← t.vector.text shown)

end Transient

/-- The vector of the elements of a list, built in a transient. -/
def ofList (xs : List α) : Logged (TrieVector α) := do
  (← Transient.empty.extend xs).freeze

end PersistentCollections.TrieVector
