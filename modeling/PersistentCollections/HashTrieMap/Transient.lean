import PersistentCollections.HashTrieMap.Iterator

/-!
# Transient hash maps

A transient is a map in the hands of a single owner who builds it step by step; `freeze` ends that
and leaves a record. Collecting entries, `merge` and `selectKeys` are builds of this kind. A
transient owns the nodes that it wrote itself, which its stamp tells, and shares the others with the
map it came from. `takeWith` is for an owner who knows better who else holds a node; to what can be
read of a map it makes no difference.
-/

namespace PersistentCollections.HashTrieMap

variable {κ ν : Type}

/-- A map that is being built. -/
structure Transient (κ ν : Type) where
  map : HashTrieMap κ ν

/-- A transient with the entries of a map; the map stays as it is, and keeps its nodes. -/
def transient (m : HashTrieMap κ ν) : Transient κ ν := ⟨m.stamped (m.stamp + 1)⟩

/-- A transient that takes the place of a map and goes on with its nodes. -/
def thaw (m : HashTrieMap κ ν) : Transient κ ν := ⟨m⟩

namespace Transient

def empty : Transient κ ν := ⟨.empty⟩

def size (t : Transient κ ν) : Nat := t.map.size

def isEmpty (t : Transient κ ν) : Bool := t.map.isEmpty

/-- End the building. -/
def freeze (t : Transient κ ν) : Logged (HashTrieMap κ ν) := do
  record (.mapFrozen t.size)
  return t.map

def text (key : κ → String) (value : ν → String) (t : Transient κ ν) : String :=
  Text.wrapped "TransientHashMap" (t.map.text key value)

variable [BEq κ] [HashCode κ]

def get? (t : Transient κ ν) (key : κ) : Result (Option ν) := t.map.get? key

def contains (t : Transient κ ν) (key : κ) : Result Bool := t.map.contains key

/-- Give a key a value, and tell the value it had. -/
def exchange (t : Transient κ ν) (key : κ) (value : ν) : Logged (Option ν × Transient κ ν) := do
  let (old, map) ← t.map.exchange key value
  return (old, ⟨map⟩)

def insert (t : Transient κ ν) (key : κ) (value : ν) : Logged (Transient κ ν) :=
  return (← t.exchange key value).2

/-- Take a key out, and tell the value it had. `sole` tells which nodes have no other owner. -/
def takeWith (sole : Sharing) (t : Transient κ ν) (key : κ) :
    Logged (Option ν × Transient κ ν) := do
  let (entry, map) ← t.map.take sole key
  return (entry.map (·.2), ⟨map⟩)

/-- Take a key out, and tell the value it had. -/
def take (t : Transient κ ν) (key : κ) : Logged (Option ν × Transient κ ν) :=
  t.takeWith (.writtenBy t.map.stamp) key

def erase (t : Transient κ ν) (key : κ) : Logged (Transient κ ν) :=
  return (← t.take key).2

/-- Insert entries, in order. -/
def extend (t : Transient κ ν) (entries : List (κ × ν)) : Logged (Transient κ ν) :=
  entries.foldlM (fun t e => t.insert e.1 e.2) t

end Transient

variable [BEq κ] [HashCode κ]

/-- The map of the entries of a list; of two entries with one key the later gives the value. -/
def ofList (entries : List (κ × ν)) : Logged (HashTrieMap κ ν) := do
  (← Transient.empty.extend entries).freeze

/-- The entries of both maps. Where both have a key, the value is that of `other`. -/
def merge (m other : HashTrieMap κ ν) : Logged (HashTrieMap κ ν) := do
  if other.isEmpty then return m
  else (← m.transient.extend other.toList).freeze

/-- A step of a selection: take the entry of a key over, if there is one. -/
def selectStep (m : HashTrieMap κ ν) (t : Transient κ ν) (key : κ) : Logged (Transient κ ν) := do
  match ← m.entryAt? key with
  | some entry => t.insert entry.1 entry.2
  | none => return t

/-- The entries whose keys are listed. -/
def selectKeys (m : HashTrieMap κ ν) (keys : List κ) : Logged (HashTrieMap κ ν) := do
  (← keys.foldlM m.selectStep ⟨empty.stamped m.stamp⟩).freeze

end PersistentCollections.HashTrieMap
