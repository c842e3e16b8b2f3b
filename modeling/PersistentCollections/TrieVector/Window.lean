import PersistentCollections.TrieVector.Transient

/-!
# Windows

A window is a view of a range of a vector. It holds the backing vector and two offsets, so taking
one costs nothing. An update makes a new backing vector; a window may therefore have elements of
its backing vector on either side that are not its own, and it never reads those.
-/

namespace PersistentCollections.TrieVector

variable {α : Type}

/-- The elements of `backing` with indices from `start` up to and without `stop`. -/
structure Window (α : Type) where
  backing : TrieVector α
  start : Nat
  stop : Nat
  cache : Option UInt32

/-- A window onto a range; a range that is reversed or reaches past the end is an error. -/
def window (v : TrieVector α) (start stop : Nat) : Result (Window α) :=
  if start ≤ stop ∧ stop ≤ v.size then .ok ⟨v, start, stop, none⟩
  else .error (.invalidRange start stop v.size)

namespace Window

def size (w : Window α) : Nat := w.stop - w.start

def isEmpty (w : Window α) : Bool := w.start == w.stop

/-! ## Reading -/

def get? (w : Window α) (index : Nat) : Result (Option α) :=
  if index < w.size then some <$> w.backing.item (w.start + index) else .ok none

/-- The element at an index; an index outside is an error. -/
def get (w : Window α) (index : Nat) : Result α := do
  match ← w.get? index with
  | some x => return x
  | none => throw (.indexOutOfBounds index w.size)

def getD (w : Window α) (index : Nat) (fallback : α) : Result α := do
  return (← w.get? index).getD fallback

/-- The element at an index that the caller insists on. -/
def subscript (w : Window α) (index : Nat) : Result α := do
  match ← w.get? index with
  | some x => return x
  | none => throw (.windowSubscript index w.size)

def first? (w : Window α) : Result (Option α) := w.get? 0

def last? (w : Window α) : Result (Option α) :=
  if w.size = 0 then .ok none else w.get? (w.size - 1)

def iter (w : Window α) : Iter α := .range w.backing w.start w.stop

def toList (w : Window α) : Result (List α) := w.iter.toList

/-! ## Changing -/

/-- A narrower window onto the same backing vector. -/
def window (w : Window α) (start stop : Nat) : Result (Window α) :=
  if start ≤ stop ∧ stop ≤ w.size then w.backing.window (w.start + start) (w.start + stop)
  else .error (.invalidRange start stop w.size)

/-- Append an element, by writing the place in the backing vector just past the window. -/
def push (w : Window α) (x : α) : Logged (Window α) := do
  let backing ←
    if w.stop = w.backing.size then w.backing.push x else w.backing.overwrite w.stop x
  return ⟨backing, w.start, w.stop + 1, none⟩

/-- Replace the element at an index; at the size, append. An index above the size is refused, before
anything is written. -/
def put (w : Window α) (index : Nat) (x : α) : Logged (Window α) := do
  if index = w.size then w.push x
  else if index > w.size then throw (.indexOutOfBounds index w.size)
  else
    let backing ← w.backing.overwrite (w.start + index) x
    return ⟨backing, w.start, w.stop, none⟩

/-- Drop the last element of the window. The backing vector stays as it is. -/
def pop (w : Window α) : Result (Window α) :=
  if w.isEmpty then .error .emptyPop else .ok ⟨w.backing, w.start, w.stop - 1, none⟩

/-- The elements of the window as a vector of its own. -/
def toVector (w : Window α) : Logged (TrieVector α) := do
  let xs ← w.toList
  ofList xs

/-- Fold over all elements; the step function can stop the fold. -/
def reduceM {m : Type → Type} [Monad m] {β : Type} (w : Window α)
    (f : β → α → m (ForInStep β)) (b : β) : ExceptT Error m β :=
  w.backing.foldRange f w.start w.stop b

/-! ## Equality and hash -/

/-- Two windows are equal if they hold equal elements in the same order. -/
def equals [BEq α] (w u : Window α) : Result Bool := do
  if w.size = u.size then return (← w.toList) == (← u.toList) else return false

/-- A window and a vector are equal if they hold equal elements in the same order. -/
def equalsVector [BEq α] (w : Window α) (v : TrieVector α) : Result Bool := do
  if w.size = v.size then return (← w.toList) == (← v.toList) else return false

/-- The hash of the elements, read afresh; it is that of a vector of the same elements. -/
def contentHash [HashCode α] (w : Window α) : Result UInt32 := do
  return Hash.ordered ((← w.toList).map hashCode)

/-- The hash, taken from the cache if it is there. -/
def hash [HashCode α] (w : Window α) : Result UInt32 :=
  match w.cache with
  | some h => .ok h
  | none => w.contentHash

/-- The same window with its hash in the cache. -/
def hashed [HashCode α] (w : Window α) : Result (Window α) := do
  return { w with cache := some (← w.hash) }

/-- The text of a window, given the text of its elements. -/
def text (shown : α → String) (w : Window α) : Result String := do
  return Text.ofList ((← w.toList).map shown)

end Window

end PersistentCollections.TrieVector
