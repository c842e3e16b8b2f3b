import PersistentCollections.TrieVector.Node

/-!
# Vectors

A vector keeps its last elements, up to `width` of them, in a tail, and the others in a trie whose
leaves are full. An append usually touches the tail only. When the tail is full it is hung off the
right edge of the trie, under a new root if the trie is full at its height.
-/

namespace PersistentCollections

/-- A vector. `cache` holds its hash once that has been asked for. -/
structure TrieVector (α : Type) where
  size : Nat
  height : Nat
  root : TrieVector.Node α
  tail : Array α
  cache : Option UInt32

namespace TrieVector

variable {α : Type}

def empty : TrieVector α := ⟨0, 1, .branch #[], #[], none⟩

def isEmpty (v : TrieVector α) : Bool := v.size == 0

/-- The number of index bits below the root: five for each level of the trie. -/
def shift (v : TrieVector α) : Nat := 5 * v.height

/-- The index of the first element of the tail. -/
def tailOffset (v : TrieVector α) : Nat :=
  if v.size < width then 0 else (v.size - 1) / width * width

/-! ## Reading -/

/-- The leaf that holds an index below the size, or the tail. -/
def leafFor (v : TrieVector α) (index : Nat) : Result (Array α) :=
  if v.tailOffset ≤ index then .ok v.tail else v.root.leafAt v.height index

/-- The element at an index below the size. -/
def item (v : TrieVector α) (index : Nat) : Result α := do
  let items ← v.leafFor index
  match items[index % width]? with
  | some x => return x
  | none => broken (.itemMissing (index % width) items.size)

def get? (v : TrieVector α) (index : Nat) : Result (Option α) :=
  if index < v.size then some <$> v.item index else .ok none

/-- The element at an index; an index outside is an error. -/
def get (v : TrieVector α) (index : Nat) : Result α := do
  match ← v.get? index with
  | some x => return x
  | none => throw (.indexOutOfBounds index v.size)

def getD (v : TrieVector α) (index : Nat) (fallback : α) : Result α := do
  return (← v.get? index).getD fallback

/-- The element at an index that the caller insists on. -/
def subscript (v : TrieVector α) (index : Nat) : Result α := do
  match ← v.get? index with
  | some x => return x
  | none => throw (.vectorSubscript index v.size)

def first? (v : TrieVector α) : Result (Option α) := v.get? 0

/-- The last element, the one that `pop` removes. -/
def last? (v : TrieVector α) : Option α := v.tail.back?

/-! ## Changing -/

/-- Append an element. -/
def push (v : TrieVector α) (x : α) : Logged (TrieVector α) := do
  if v.size - v.tailOffset < width then
    if v.tail.size < width then
      return { v with size := v.size + 1, tail := v.tail.push x, cache := none }
    else broken .nodeFull
  else if v.size / width > Nat.pow 2 v.shift then
    let grown : TrieVector α :=
      { size := v.size + 1
        height := v.height + 1
        root := .branch #[v.root, Node.raise v.height (.leaf v.tail)]
        tail := #[x]
        cache := none }
    record (.vectorGrew grown.shift v.size)
    return grown
  else
    let root ← Node.pushLeaf v.size (.leaf v.tail) v.height v.root
    return { v with size := v.size + 1, root := root, tail := #[x], cache := none }

/-- Overwrite the element at an index below the size. -/
def overwrite (v : TrieVector α) (index : Nat) (x : α) : Result (TrieVector α) := do
  if v.tailOffset ≤ index then
    if h : index % width < v.tail.size then
      return { v with tail := v.tail.set (index % width) x h, cache := none }
    else broken (.itemMissing (index % width) v.tail.size)
  else
    let root ← v.root.setAt x v.height index
    return { v with root := root, cache := none }

/-- Replace the element at an index; at the size, append. An index above the size is refused, on the
size alone and before anything is written. -/
def put (v : TrieVector α) (index : Nat) (x : α) : Logged (TrieVector α) :=
  if index < v.size then v.overwrite index x
  else if index = v.size then v.push x
  else throw (.indexOutOfBounds index v.size)

/-- Take the only child of the root as the root, if the trie has a level to spare. -/
def collapse (height : Nat) (root : Node α) : Result (Nat × Node α) :=
  if 1 < height then
    match root with
    | .branch children =>
      match children.toList with
      | [child] => .ok (height - 1, child)
      | _ => .ok (height, root)
    | .leaf _ => broken .expectedBranch
  else .ok (height, root)

/-- Drop the last element. An empty vector is refused, before anything is written. -/
def pop (v : TrieVector α) : Result (TrieVector α) := do
  if v.size = 0 then throw .emptyPop
  else if v.size = 1 then return empty
  else if v.size - v.tailOffset > 1 then
    return { v with size := v.size - 1, tail := v.tail.pop, cache := none }
  else
    let tail ← v.leafFor (v.size - 2)
    let root ← v.root.popLeaf v.size v.height
    let (height, root) ← collapse v.height root
    return { size := v.size - 1, height, root, tail, cache := none }

/-- Append elements, in order. -/
def extend (v : TrieVector α) (xs : List α) : Logged (TrieVector α) := xs.foldlM push v

end TrieVector

end PersistentCollections
