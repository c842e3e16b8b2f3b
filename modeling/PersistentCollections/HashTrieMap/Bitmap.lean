/-!
# Bitmaps

A set of positions below 32, as a word. A node that stores only its populated places keeps such a
set; the place of position `p` among them is its `rank`, the number of members below `p`.
-/

namespace PersistentCollections.HashTrieMap

/-- The number of positions of a node. -/
def width : Nat := 32

/-- A set of positions below `width`. -/
abbrev Bitmap := BitVec 32

namespace Bitmap

def empty : Bitmap := 0#32

def has (b : Bitmap) (p : Nat) : Bool := b.getLsbD p

def insert (b : Bitmap) (p : Nat) : Bitmap := b ||| BitVec.twoPow 32 p

/-- The set with `p` on the other side: without `p` if it was a member. -/
def toggle (b : Bitmap) (p : Nat) : Bitmap := b ^^^ BitVec.twoPow 32 p

/-- The number of members below `p`. -/
def rank (b : Bitmap) : (p : Nat) → Nat
  | 0 => 0
  | p + 1 => rank b p + (b.has p).toNat

/-- The number of members. -/
def count (b : Bitmap) : Nat := b.rank width

end Bitmap

end PersistentCollections.HashTrieMap
