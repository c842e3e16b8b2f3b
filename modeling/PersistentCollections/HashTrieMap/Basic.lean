import PersistentCollections.HashTrieMap.Node

/-!
# Hash maps

A map with up to `mostFlat` entries is a list of them in the order in which they came. The next key
turns it into a trie; it stays one, however many entries are removed. The entry of a nil key is
kept next to the trie.

`exchange` and `take` are the two changes there are; everything else that changes a map goes
through them. Both drop the cached hash.
-/

namespace PersistentCollections

namespace HashTrieMap

/-- A flat map has at most this many entries. -/
def mostFlat : Nat := 8

/-- The two forms of a map. -/
inductive Shape (κ ν : Type) where
  | flat (entries : List (κ × ν))
  | trie (root : Node κ ν) (nilEntry : Option (κ × ν))

end HashTrieMap

/-- A hash map. `cache` holds its hash once that has been asked for, and `stamp` is what the nodes
are marked with that are written from now on. -/
structure HashTrieMap (κ ν : Type) where
  size : Nat
  shape : HashTrieMap.Shape κ ν
  cache : Option UInt32
  stamp : Nat

namespace HashTrieMap

variable {κ ν : Type}

def empty : HashTrieMap κ ν := ⟨0, .flat [], none, 0⟩

/-- The same map, with another stamp for what will be written. -/
def stamped (m : HashTrieMap κ ν) (stamp : Nat) : HashTrieMap κ ν := { m with stamp }

def isEmpty (m : HashTrieMap κ ν) : Bool := m.size == 0

section

variable [BEq κ] [HashCode κ]

/-! ## Reading -/

/-- The stored entry of a key. -/
def entryAt? (m : HashTrieMap κ ν) (key : κ) : Result (Option (κ × ν)) :=
  match m.shape with
  | .flat entries => .ok (Entries.find? key entries)
  | .trie root nilEntry =>
    if isNil key then .ok nilEntry else root.find? key (hashCode key) digits

def get? (m : HashTrieMap κ ν) (key : κ) : Result (Option ν) :=
  return (← m.entryAt? key).map (·.2)

def getD (m : HashTrieMap κ ν) (key : κ) (fallback : ν) : Result ν :=
  return (← m.get? key).getD fallback

def contains (m : HashTrieMap κ ν) (key : κ) : Result Bool :=
  return (← m.entryAt? key).isSome

/-! ## Changing -/

/-- A trie under construction: the root, the entry of a nil key, and the records so far. -/
structure Promotion (κ ν : Type) where
  root : Node κ ν
  nilEntry : Option (κ × ν)
  events : List Event

/-- Put one entry into a trie under construction. -/
def Promotion.add (now : Nat) (p : Promotion κ ν) (entry : κ × ν) : Result (Promotion κ ν) :=
  if isNil entry.1 then .ok { p with nilEntry := some entry }
  else do
    let r ← p.root.insert now digits entry (hashCode entry.1)
    return { p with root := r.node, events := p.events ++ r.events }

/-- The trie that holds the given entries. -/
def promote (now : Nat) (entries : List (κ × ν)) : Result (Promotion κ ν) :=
  entries.foldlM (Promotion.add now) ⟨.empty now, none, []⟩

/-- Add an entry with a new key to a flat map, which has the given entries. -/
def grow (m : HashTrieMap κ ν) (entries : List (κ × ν)) (entry : κ × ν) :
    Logged (HashTrieMap κ ν) := do
  if entries.length < mostFlat then
    return ⟨m.size + 1, .flat (entries ++ [entry]), none, m.stamp⟩
  else
    let p ← promote m.stamp (entries ++ [entry])
    recordAll p.events
    record (.mapPromoted (m.size + 1))
    return ⟨m.size + 1, .trie p.root p.nilEntry, none, m.stamp⟩

/-- Give a key a value, and tell the value it had. A stored key that is equal to the given one keeps
its place in a flat map and in a node. A nil key next to a trie does not: there the given key is
stored. -/
def exchange (m : HashTrieMap κ ν) (key : κ) (value : ν) :
    Logged (Option ν × HashTrieMap κ ν) := do
  match m.shape with
  | .flat entries =>
    match Entries.setValue? key value entries with
    | some (old, entries) => return (some old, ⟨m.size, .flat entries, none, m.stamp⟩)
    | none => return (none, ← m.grow entries (key, value))
  | .trie root nilEntry =>
    if isNil key then
      let size := if nilEntry.isSome then m.size else m.size + 1
      return (nilEntry.map (·.2), ⟨size, .trie root (some (key, value)), none, m.stamp⟩)
    else
      let r ← root.insert m.stamp digits (key, value) (hashCode key)
      recordAll r.events
      let size := if r.replaced.isSome then m.size else m.size + 1
      return (r.replaced, ⟨size, .trie r.node nilEntry, none, m.stamp⟩)

/-- One entry less. -/
def sizeWithout (m : HashTrieMap κ ν) : Result Nat :=
  if m.size = 0 then broken .countUnderflow else .ok (m.size - 1)

/-- Take the entry of a key out, if it is there. `sole` tells which nodes have no other owner. The
nodes on the way to the key are written anew in any case. -/
def take (sole : Sharing) (m : HashTrieMap κ ν) (key : κ) :
    Logged (Option (κ × ν) × HashTrieMap κ ν) := do
  match m.shape with
  | .flat entries =>
    match Entries.take? key entries with
    | none => return (none, m)
    | some (entry, entries) => return (some entry, ⟨← m.sizeWithout, .flat entries, none, m.stamp⟩)
  | .trie root nilEntry =>
    if isNil key then
      match nilEntry with
      | none => return (none, m)
      | some entry => return (some entry, ⟨← m.sizeWithout, .trie root none, none, m.stamp⟩)
    else
      match ← root.erase m.stamp sole key (hashCode key) digits with
      | none =>
        return (none, { m with shape := .trie (root.touch m.stamp (hashCode key) digits) nilEntry })
      | some r =>
        recordAll r.events
        return (some r.entry, ⟨← m.sizeWithout, .trie r.node nilEntry, none, m.stamp⟩)

/-- The map in which a key has a value. -/
def insert (m : HashTrieMap κ ν) (key : κ) (value : ν) : Logged (HashTrieMap κ ν) :=
  return (← m.exchange key value).2

/-- The map without a key. The map itself stays alive, so it owns every node along with the
result. -/
def erase (m : HashTrieMap κ ν) (key : κ) : Logged (HashTrieMap κ ν) := do
  if ← m.contains key then return (← m.take .shared key).2 else return m

/-- Give a key the value that a function makes of the one it has. -/
def update (m : HashTrieMap κ ν) (key : κ) (f : Option ν → ν) : Logged (HashTrieMap κ ν) := do
  m.insert key (f (← m.get? key))

end

end HashTrieMap

end PersistentCollections
