import PersistentCollections.HashTrieMap.Basic

/-!
# How an entry is found

A lookup follows the digits of a hash down to the place of an entry and then compares keys. So a
key finds an entry if it is equal to the stored one and their hashes agree in the digits that lead
to the place: none in a flat map, all of them in a collision node or for the nil key of a trie.
Entries that one hash leads to stand next to each other in the order of iteration. Keys that keep
the laws of `HashCode` never come to depend on it.
-/

namespace PersistentCollections.HashTrieMap

variable {κ ν : Type}

/-- The hash of a stored key, with the modulus that says how much of it leads to the place. -/
structure Place where
  hash : UInt32
  modulus : Nat
  deriving DecidableEq

namespace Place

/-- Whether a hash leads to the place. -/
def leads (p : Place) (hash : UInt32) : Bool :=
  hash.toNat % p.modulus == p.hash.toNat % p.modulus

/-- Whether the place is in a trie. -/
def inTrie (p : Place) : Bool := 1 < p.modulus

end Place

section

variable [HashCode κ]

/-- An entry with its place, to which that many bits of the hash lead. -/
def placed (bits : Nat) (e : κ × ν) : Place × κ × ν := (⟨hashCode e.1, Nat.pow 2 bits⟩, e)

mutual

/-- The entries of a node, in the order of iteration, when `left` digits are to go. -/
def Node.placedEntries (left : Nat) : Node κ ν → List (Place × κ × ν)
  | .bitmap _ _ slots => placedSlots left slots
  | .array _ _ children => placedChildren left children
  | .collision _ _ entries => entries.map (placed 32)

def placedSlots (left : Nat) : List (Slot κ ν) → List (Place × κ × ν)
  | [] => []
  | .leaf e :: slots => placed (shiftOf (left - 1)) e :: placedSlots left slots
  | .inner child :: slots => child.placedEntries (left - 1) ++ placedSlots left slots

def placedChildren (left : Nat) : List (Option (Node κ ν)) → List (Place × κ × ν)
  | [] => []
  | none :: children => placedChildren left children
  | some child :: children => child.placedEntries (left - 1) ++ placedChildren left children

end

/-- The entries of a map, in the order of iteration. -/
def placedEntries (m : HashTrieMap κ ν) : List (Place × κ × ν) :=
  match m.shape with
  | .flat entries => entries.map (placed 0)
  | .trie root nilEntry => nilEntry.toList.map (placed 32) ++ root.placedEntries digits

end

end PersistentCollections.HashTrieMap
