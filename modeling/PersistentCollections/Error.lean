/-!
# Failures

A caller can ask for something a collection does not have: those are the first constructors of
`Error`. The remaining one, `breach`, says that a collection was found in a state that none of its
operations produces. Every place where a representation could let an operation down (a slot that
is not there, a node of the wrong kind, a count below zero) stops with a `Breach`, so that "this
never happens" is a statement about `Result` and not about something left out.
-/

namespace PersistentCollections

/-- What was wrong with the representation of a collection. -/
inductive Breach where
  /-- A leaf of a vector stands where a branch belongs. -/
  | expectedBranch
  /-- A branch of a vector stands where a leaf belongs. -/
  | expectedLeaf
  /-- A branch of a vector has no child at this position. -/
  | childMissing (index count : Nat)
  /-- A leaf of a vector has no item at this position. -/
  | itemMissing (index count : Nat)
  /-- A node of a vector has no room for one more. -/
  | nodeFull
  /-- A node of a hash trie has no slot at this position. -/
  | slotMissing (index count : Nat)
  /-- A hash trie is deeper than a hash has digits. -/
  | hashExhausted
  /-- A count would fall below zero. -/
  | countUnderflow
  /-- The colours of a red-black tree do not fit any case of a rotation. -/
  | colouring
  /-- A cursor over a hash trie does not stand on an entry. -/
  | cursorOffEntry
  deriving DecidableEq

/-- Why an operation gave no result. -/
inductive Error where
  /-- An index outside the valid range of a vector or window. -/
  | indexOutOfBounds (index size : Nat)
  /-- Removing the last element of an empty vector or window. -/
  | emptyPop
  /-- A window that is reversed or reaches past the end. -/
  | invalidRange (start stop size : Nat)
  /-- A subscript that insists on an element of a vector. -/
  | vectorSubscript (index size : Nat)
  /-- A subscript that insists on an element of a window. -/
  | windowSubscript (index size : Nat)
  /-- A collection in a state that no operation produces. -/
  | breach (b : Breach)
  deriving DecidableEq

/-- The outcome of an operation that may fail. -/
abbrev Result := Except Error

/-- Stop because the representation is broken. -/
def broken {α : Type} (b : Breach) : Result α := .error (.breach b)

def Breach.message : Breach → String
  | .expectedBranch => "vector trie: expected a branch node"
  | .expectedLeaf => "vector trie: expected a leaf node"
  | .childMissing index count => s!"vector trie: child {index} of {count}"
  | .itemMissing index count => s!"vector trie: item {index} of {count}"
  | .nodeFull => "vector trie: node is full"
  | .slotMissing index count => s!"hash map: slot {index} of {count}"
  | .hashExhausted => "hash map: trie deeper than the hash"
  | .countUnderflow => "count below zero"
  | .colouring => "red-black tree invariant violation"
  | .cursorOffEntry => "hash map seq: positioned on a child node"

def Error.message : Error → String
  | .indexOutOfBounds index size => s!"index {index} out of bounds for length {size}"
  | .emptyPop => "can't pop empty vector"
  | .invalidRange start stop size =>
    s!"subvector range {start}..{stop} out of bounds for length {size}"
  | .vectorSubscript index size => s!"index {index} out of bounds for vector of length {size}"
  | .windowSubscript index size => s!"index {index} out of bounds for subvec of length {size}"
  | .breach b => b.message

end PersistentCollections
