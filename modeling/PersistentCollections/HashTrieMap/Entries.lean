/-!
# Lists of entries

The operations on entries that are kept in a plain list: the flat form of a small map, and the
entries of one hash. Keys are compared with `==`, the stored key on the left.
-/

namespace PersistentCollections.HashTrieMap.Entries

variable {κ ν : Type} [BEq κ]

/-- The entry of a key. -/
def find? (key : κ) (es : List (κ × ν)) : Option (κ × ν) := es.find? (·.1 == key)

/-- Give the entry of a key another value. The stored key stays, and so does every other entry. The
value it had comes first. -/
def setValue? (key : κ) (value : ν) : List (κ × ν) → Option (ν × List (κ × ν))
  | [] => none
  | e :: es =>
    if e.1 == key then some (e.2, (e.1, value) :: es)
    else (setValue? key value es).map fun (old, es) => (old, e :: es)

/-- Take the entry of a key out, and leave the others in their order. -/
def take? (key : κ) : List (κ × ν) → Option ((κ × ν) × List (κ × ν))
  | [] => none
  | e :: es =>
    if e.1 == key then some (e, es)
    else (take? key es).map fun (taken, es) => (taken, e :: es)

/-- Take the entry of a key out, and move the last entry into its place. -/
def takeSwap? (key : κ) (es : List (κ × ν)) : Option ((κ × ν) × List (κ × ν)) := do
  let i ← es.findIdx? (·.1 == key)
  let taken ← es[i]?
  let last ← es.getLast?
  return (taken, (es.set i last).dropLast)

end PersistentCollections.HashTrieMap.Entries
