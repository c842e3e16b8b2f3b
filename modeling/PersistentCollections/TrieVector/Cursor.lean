import PersistentCollections.TrieVector.Window

/-!
# Cursors over vectors

A cursor is a position in a range of a vector. Moving it makes a new cursor and leaves the old one
as it was. A cursor keeps the leaf under it and reads the trie again only where it leaves that
leaf. `Cursor` goes forward, also a leaf at a time; `BackCursor` goes backward.
-/

namespace PersistentCollections.TrieVector

variable {α : Type}

/-- A position in the range of a vector that ends before `stop`. -/
structure Cursor (α : Type) where
  vector : TrieVector α
  leaf : Array α
  index : Nat
  stop : Nat

/-- The item of a leaf that belongs to an index. -/
def itemOf (leaf : Array α) (index : Nat) : Result α :=
  match leaf[index % width]? with
  | some x => .ok x
  | none => broken (.itemMissing (index % width) leaf.size)

namespace Cursor

/-- The cursor at an index below `stop`. -/
def standAt (v : TrieVector α) (index stop : Nat) : Result (Cursor α) := do
  return ⟨v, ← v.leafFor index, index, stop⟩

def first (c : Cursor α) : Result α := itemOf c.leaf c.index

/-- The cursor one element further on. -/
def next (c : Cursor α) : Result (Option (Cursor α)) := do
  let index := c.index + 1
  if c.stop ≤ index then return none
  else if index % width = 0 then return some (← Cursor.standAt c.vector index c.stop)
  else return some { c with index }

/-- The number of elements from here to the end of the range. -/
def count (c : Cursor α) : Nat := c.stop - c.index

/-- The elements from here to the end of the leaf or of the range. -/
def chunkFirst (c : Cursor α) : Result (List α) := span c.leaf c.index c.stop

/-- The cursor after those elements. -/
def chunkNext (c : Cursor α) : Result (Option (Cursor α)) := do
  let index := c.index + (← c.chunkFirst).length
  if c.stop ≤ index then return none else return some (← Cursor.standAt c.vector index c.stop)

/-- The elements from here on, at most `n` of them, and the cursor after them if there is one. -/
def take : Nat → Cursor α → Result (List α × Option (Cursor α))
  | 0, c => .ok ([], some c)
  | n + 1, c => do
    let x ← c.first
    match ← c.next with
    | none => return ([x], none)
    | some c =>
      let (xs, rest) ← take n c
      return (x :: xs, rest)

/-- The lengths of all chunks from here on. A chunk takes up at least one index. -/
def chunkLengths (c : Cursor α) : Result (List Nat) := do
  let chunk ← c.chunkFirst
  let index := c.index + chunk.length
  if c.stop ≤ index then return [chunk.length]
  else if chunk.length = 0 then broken (.itemMissing (c.index % width) c.leaf.size)
  else
    let next ← Cursor.standAt c.vector index c.stop
    return chunk.length :: (← chunkLengths { next with index := index, stop := c.stop })
termination_by c.stop - c.index

/-- Fold over the elements from here on; the step function can stop the fold. -/
def reduceM {m : Type → Type} [Monad m] {β : Type} (c : Cursor α)
    (f : β → α → m (ForInStep β)) (b : β) : ExceptT Error m β :=
  c.vector.foldRange f c.index c.stop b

/-- The text of the elements from here on, given the text of each. -/
def text (shown : α → String) (c : Cursor α) : Result String := do
  return Text.ofList ((← (Iter.range c.vector c.index c.stop).toList).map shown)

end Cursor

/-- A position in the range of a vector that begins at `start`, for going backward. -/
structure BackCursor (α : Type) where
  vector : TrieVector α
  leaf : Array α
  index : Nat
  start : Nat

namespace BackCursor

/-- The cursor at an index not below `start`. -/
def standAt (v : TrieVector α) (start index : Nat) : Result (BackCursor α) := do
  return ⟨v, ← v.leafFor index, index, start⟩

def first (c : BackCursor α) : Result α := itemOf c.leaf c.index

/-- The cursor one element further back. -/
def next (c : BackCursor α) : Result (Option (BackCursor α)) := do
  if c.index ≤ c.start then return none
  else if c.index % width = 0 then return some (← BackCursor.standAt c.vector c.start (c.index - 1))
  else return some { c with index := c.index - 1 }

/-- The number of elements from here to the beginning of the range. -/
def count (c : BackCursor α) : Nat := c.index - c.start + 1

/-- The elements from here on, at most `n` of them, and the cursor after them if there is one. -/
def take : Nat → BackCursor α → Result (List α × Option (BackCursor α))
  | 0, c => .ok ([], some c)
  | n + 1, c => do
    let x ← c.first
    match ← c.next with
    | none => return ([x], none)
    | some c =>
      let (xs, rest) ← take n c
      return (x :: xs, rest)

/-- The text of the elements from here back, given the text of each. -/
def text (shown : α → String) (c : BackCursor α) : Result String := do
  let indices := (List.range c.count).map (c.index - ·)
  return Text.ofList ((← indices.mapM c.vector.item).map shown)

end BackCursor

/-- The cursor at the first element; an empty vector has none. -/
def cursor (v : TrieVector α) : Result (Option (Cursor α)) :=
  if v.size = 0 then .ok none else some <$> Cursor.standAt v 0 v.size

/-- The cursor at the last element, for going backward. -/
def backCursor (v : TrieVector α) : Result (Option (BackCursor α)) :=
  if v.size = 0 then .ok none else some <$> BackCursor.standAt v 0 (v.size - 1)

namespace Window

/-- The cursor at the first element; an empty window has none. -/
def cursor (w : Window α) : Result (Option (Cursor α)) :=
  if w.isEmpty then .ok none else some <$> Cursor.standAt w.backing w.start w.stop

/-- The cursor at the last element, for going backward. -/
def backCursor (w : Window α) : Result (Option (BackCursor α)) :=
  if w.isEmpty then .ok none else some <$> BackCursor.standAt w.backing w.start (w.stop - 1)

end Window

end PersistentCollections.TrieVector
