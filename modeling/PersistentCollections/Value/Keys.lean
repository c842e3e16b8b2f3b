import PersistentCollections.Value.Equality

/-!
# Values as keys

The keys in a trie are hashed, and a key that is looked up in one is hashed too. Those of a flat map
are as they came until the map turns into a trie or is hashed itself. The functions below look up
and change the entries of a map with such keys; in a flat map they search for a key with the ledger.
-/

namespace PersistentCollections

/-- A computation that may make collections of values: it may also leave records and fail. -/
abbrev Making := StateT Ledger Logged

instance : MonadLift Hashing Making := ⟨fun x ledger => return x ledger⟩

/-- The value of a computation that begins with an empty ledger and whose records do not matter. -/
def Making.value {α : Type} (x : Making α) : Result α := return (← (x.run .empty).value).1

/-- A number for a new collection. -/
def newNumber : Making Nat := modifyGet Ledger.next

namespace Value

variable {ν : Type}

/-- A map whose keys are hashed. -/
def hashedKeys (m : HashTrieMap Value ν) : HashTrieMap Value ν :=
  match m.shape with
  | .flat entries => { m with shape := .flat (entries.map fun e => (e.1.hashed, e.2)) }
  | .trie .. => m

/-- The index of a key among the entries of a flat map. -/
def indexOf (key : Value) : List (Value × ν) → Hashing (Option Nat)
  | [] => return none
  | e :: es => do
    if ← same false e.1 key then return some 0
    else return (← indexOf key es).map (· + 1)

/-- The stored entry of a key. -/
def entryAt? (m : HashTrieMap Value ν) (key : Value) : Making (Option (Value × ν)) :=
  match m.shape with
  | .flat entries => return (← indexOf key entries).bind fun i => entries[i]?
  | .trie .. => m.entryAt? key

def get? (m : HashTrieMap Value ν) (key : Value) : Making (Option ν) :=
  return (← entryAt? m key).map (·.2)

def contains (m : HashTrieMap Value ν) (key : Value) : Making Bool :=
  return (← entryAt? m key).isSome

/-- Give a key a value, and tell the value it had. -/
def exchange (m : HashTrieMap Value ν) (key : Value) (value : ν) :
    Making (Option ν × HashTrieMap Value ν) := do
  match m.shape with
  | .flat entries =>
    match (← indexOf key entries).bind fun i => entries[i]?.map (i, ·) with
    | some (i, stored, old) =>
      let entries := entries.set i (stored, value)
      return (some old, { m with shape := .flat entries, cache := none })
    | none =>
      if entries.length < HashTrieMap.mostFlat then
        return (none, ← m.grow entries (key, value))
      else
        return (none, ← m.grow (entries.map fun e => (e.1.hashed, e.2)) (key.hashed, value))
  | .trie .. => m.exchange key.hashed value

/-- Take the entry of a key out, if it is there. -/
def take (sole : HashTrieMap.Sharing) (m : HashTrieMap Value ν) (key : Value) :
    Making (Option (Value × ν) × HashTrieMap Value ν) := do
  match m.shape with
  | .flat entries =>
    match (← indexOf key entries).bind fun i => entries[i]?.map (i, ·) with
    | some (i, entry) =>
      let size ← m.sizeWithout
      return (some entry, { m with size, shape := .flat (entries.eraseIdx i), cache := none })
    | none => return (none, m)
  | .trie .. => m.take sole key

def insert (m : HashTrieMap Value ν) (key : Value) (value : ν) : Making (HashTrieMap Value ν) :=
  return (← exchange m key value).2

/-- The map without a key, which is looked up before it is taken out. -/
def erase (m : HashTrieMap Value ν) (key : Value) : Making (HashTrieMap Value ν) := do
  if ← contains m key then return (← take .shared m key).2 else return m

/-- Give a key the value that a function makes of the one it has. -/
def update (m : HashTrieMap Value ν) (key : Value) (f : Option ν → ν) :
    Making (HashTrieMap Value ν) := do
  insert m key (f (← get? m key))

/-- The map that collects entries, whose nodes have a given stamp. -/
def collectMap (stamp : Nat) (entries : List (Value × ν)) : Making (HashTrieMap Value ν) := do
  let m ← entries.foldlM (fun m e => insert m e.1 e.2) (HashTrieMap.empty.stamped stamp)
  m.thaw.freeze

/-- The entries of the keys that are in a map. -/
def entriesAt (m : HashTrieMap Value ν) (keys : List Value) : Making (List (Value × ν)) :=
  keys.filterMapM (entryAt? m)

/-! ## Sets -/

/-- Add an element to the map of a set, and tell whether it was not there. -/
def add (m : HashTrieMap Value Unit) (x : Value) : Making (Bool × HashTrieMap Value Unit) := do
  if ← contains m x then return (false, m) else return (true, ← insert m x ())

/-- The set that collects elements. -/
def collectSet (items : List Value) : Making (HashTrieSet Value) := do
  let m ← items.foldlM (fun m x => return (← add m x).2) HashTrieMap.empty
  return .ofMap (← m.thaw.freeze)

/-- The set with one more element. -/
def addTo (s : HashTrieSet Value) (x : Value) : Making (HashTrieSet Value) := do
  let (added, m) ← add s.map x
  if added then return .ofMap m else return s

/-- The set without an element. -/
def dropFrom (s : HashTrieSet Value) (x : Value) : Making (HashTrieSet Value) := do
  if ← contains s.map x then return .ofMap (← erase s.map x) else return s

end Value

end PersistentCollections
