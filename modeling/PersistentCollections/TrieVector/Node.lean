import PersistentCollections.Reduce

/-!
# Nodes of a vector trie

A trie of height `h` has `h` levels of branches above its leaves. Branches and leaves hold up to
`width` parts, filled from the left. An index finds its leaf by its digits in base `width`, the
most significant first, and its item by the last digit.
-/

namespace PersistentCollections.TrieVector

/-- The number of parts of a full node. -/
def width : Nat := 32

/-- The digit of an index that chooses a child `height` levels above the leaves. -/
def digit (index height : Nat) : Nat := index / Nat.pow width height % width

inductive Node (α : Type) where
  | branch (children : Array (Node α))
  | leaf (items : Array α)

namespace Node

variable {α : Type}

/-- A node with no parts; for a leaf, with no items. -/
def isEmpty : Node α → Bool
  | .branch children => children.isEmpty
  | .leaf items => items.isEmpty

/-- Append a child to a branch that has room. -/
def addChild (children : Array (Node α)) (child : Node α) : Result (Node α) :=
  if children.size < width then .ok (.branch (children.push child)) else broken .nodeFull

/-- The items of the leaf that holds an index, `height` levels down. -/
def leafAt : (height : Nat) → Node α → (index : Nat) → Result (Array α)
  | 0, .leaf items, _ => .ok items
  | 0, .branch _, _ => broken .expectedLeaf
  | _ + 1, .leaf _, _ => broken .expectedBranch
  | h + 1, .branch children, index =>
    match children[digit index (h + 1)]? with
    | some child => leafAt h child index
    | none => broken (.childMissing (digit index (h + 1)) children.size)

/-- Overwrite the item at an index, `height` levels down. -/
def setAt (x : α) : (height : Nat) → Node α → (index : Nat) → Result (Node α)
  | 0, .leaf items, index =>
    if h : index % width < items.size then .ok (.leaf (items.set (index % width) x h))
    else broken (.itemMissing (index % width) items.size)
  | 0, .branch _, _ => broken .expectedLeaf
  | _ + 1, .leaf _, _ => broken .expectedBranch
  | h + 1, .branch children, index =>
    if hd : digit index (h + 1) < children.size then do
      let child ← setAt x h children[digit index (h + 1)] index
      return .branch (children.set (digit index (h + 1)) child hd)
    else broken (.childMissing (digit index (h + 1)) children.size)

/-- Put `height` branches with a single child above a node. -/
def raise : (height : Nat) → Node α → Node α
  | 0, node => node
  | h + 1, node => .branch #[raise h node]

/-- Hang a full leaf off the rightmost path of a trie. The vector had `size` elements before, of
which the last belongs to the leaf; the trie has room at its height. -/
def pushLeaf (size : Nat) (leaf : Node α) : (height : Nat) → Node α → Result (Node α)
  | 0, _ => broken .expectedBranch
  | _ + 1, .leaf _ => broken .expectedBranch
  | 1, .branch children => addChild children leaf
  | h + 2, .branch children =>
    if hd : digit (size - 1) (h + 2) < children.size then do
      let child ← pushLeaf size leaf (h + 1) children[digit (size - 1) (h + 2)]
      return .branch (children.set (digit (size - 1) (h + 2)) child hd)
    else addChild children (raise (h + 1) leaf)

/-- Detach the rightmost leaf of a trie, and every branch that this leaves empty except the root.
The vector had `size` elements before, of which the last but one is in the leaf. -/
def popLeaf (size : Nat) : (height : Nat) → Node α → Result (Node α)
  | 0, _ => broken .expectedBranch
  | _ + 1, .leaf _ => broken .expectedBranch
  | 1, .branch children => .ok (.branch children.pop)
  | h + 2, .branch children =>
    if hd : digit (size - 2) (h + 2) < children.size then do
      let child ← popLeaf size (h + 1) children[digit (size - 2) (h + 2)]
      let children := children.set (digit (size - 2) (h + 2)) child hd
      return .branch (if child.isEmpty then children.pop else children)
    else broken (.childMissing (digit (size - 2) (h + 2)) children.size)

end Node

/-- The items from a position of a vector to the end of their leaf, or to `stop` if that comes
first. -/
def span {α : Type} (items : Array α) (pos stop : Nat) : Result (List α) :=
  let low := pos % width
  let high := min items.size (low + (stop - pos))
  if low ≤ high then .ok (items.extract low high).toList
  else broken (.itemMissing low items.size)

end PersistentCollections.TrieVector
