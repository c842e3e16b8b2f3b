import PersistentCollections.Bench.Input
import PersistentCollections.Bench.Progress
import PersistentCollections.HashTrieMap.Transient
import PersistentCollections.HashTrieMap.Iterator
import PersistentCollections.SortedMap.Range
import Std.Data.TreeMap

/-!
# Churning maps

Entries are inserted, erased and looked up by key. In the churn of any map, a range adds its high
end to the value at its low end, and the snapshots are digested in any order. In the churn of a
sorted map, a range reads the entries within it, and both ranges and snapshots are read in the
order of their keys.
-/

namespace PersistentCollections.Bench

/-- What the workloads ask of a map of type `σ` with snapshots of type `τ`. -/
structure MapStore (σ τ : Type) where
  empty : σ
  insert : σ → UInt64 → UInt64 → Result σ
  erase : σ → UInt64 → Result σ
  get? : σ → UInt64 → Result (Option UInt64)
  /-- Take a snapshot, and tell how to go on. -/
  snapshot : σ → Result (τ × σ)
  toList : τ → Result (List (UInt64 × UInt64))

/-- A map whose snapshots are listed in the order of their keys. -/
structure SortedMapStore (σ τ : Type) extends MapStore σ τ where
  /-- The entries with keys from `low` to `high`, both included, in the order of their keys. -/
  range : σ → (low high : UInt64) → Result (List (UInt64 × UInt64))

namespace MapStore

variable {σ τ : Type}

def persistent : MapStore (HashTrieMap UInt64 UInt64) (HashTrieMap UInt64 UInt64) where
  empty := .empty
  insert m key value := (m.insert key value).value
  erase m key := (m.erase key).value
  get? m key := m.get? key
  snapshot m := .ok (m, m)
  toList m := .ok m.toList

/-- Edits between two snapshots are on a transient. A snapshot freezes it, and the frozen map
starts the next one. -/
def transient : MapStore (HashTrieMap.Transient UInt64 UInt64) (HashTrieMap UInt64 UInt64) where
  empty := .empty
  insert t key value := (t.insert key value).value
  erase t key := (t.erase key).value
  get? t key := t.get? key
  snapshot t := do
    let m ← t.freeze.value
    return (m, m.transient)
  toList m := .ok m.toList

/-- One operation of the churn of a map. -/
def step (s : MapStore σ τ) (p : Progress σ τ) : Operation → Result (Progress σ τ)
  | .insert key value => return { p with current := ← s.insert p.current key value }
  | .erase key => return { p with current := ← s.erase p.current key }
  | .lookup key => return p.observeOption (← s.get? p.current key)
  | .range low high => do
    let old := (← s.get? p.current low).getD 0
    return { p with current := ← s.insert p.current low (old + high) }
  | .snapshot => return p.keep (← s.snapshot p.current)

/-- Read a snapshot back, in any order. -/
def readBack (s : MapStore σ τ) (sum : Checksum) (taken : τ) : Result Checksum :=
  return sum.mix (entriesDigest (← s.toList taken))

/-- The checksum of the churn of a map. -/
def churn (s : MapStore σ τ) (operations : List Operation) : Result Checksum := do
  let p ← operations.foldlM s.step (.start s.empty)
  let p := p.keep (← s.snapshot p.current)
  p.snapshots.toList.foldlM s.readBack p.sum

end MapStore

namespace SortedMapStore

variable {σ τ : Type}

def persistent : SortedMapStore (SortedMap UInt64 UInt64) (SortedMap UInt64 UInt64) where
  empty := .empty .natural
  insert m key value := .ok (m.insert key value)
  erase m key := m.erase key
  get? m key := .ok (m.get? key)
  snapshot m := .ok (m, m)
  toList m := .ok m.toList
  range m low high := .ok (m.range (.included low) (.included high)).toList

/-- A plain search tree. -/
def plain : SortedMapStore (Std.TreeMap UInt64 UInt64) (Std.TreeMap UInt64 UInt64) where
  empty := ∅
  insert m key value := .ok (m.insert key value)
  erase m key := .ok (m.erase key)
  get? m key := .ok m[key]?
  snapshot m := .ok (m, m)
  toList m := .ok m.toList
  range m low high := .ok (m.toList.filter fun e => low ≤ e.1 && e.1 ≤ high)

/-- Mix in entries, in order. -/
def observeEntries (sum : Checksum) (entries : List (UInt64 × UInt64)) : Checksum :=
  sum.mixAll (entries.map fun e => entryDigest e.1 e.2)

/-- One operation of the churn of a sorted map. -/
def step (s : SortedMapStore σ τ) (p : Progress σ τ) : Operation → Result (Progress σ τ)
  | .insert key value => return { p with current := ← s.insert p.current key value }
  | .erase key => return { p with current := ← s.erase p.current key }
  | .lookup key => return p.observeOption (← s.get? p.current key)
  | .range low high => do
    let entries ← s.range p.current low high
    return { p with sum := (observeEntries p.sum entries).mix (UInt64.ofNat entries.length) }
  | .snapshot => return p.keep (← s.snapshot p.current)

/-- Read a snapshot back, in the order of its keys. -/
def readBack (s : SortedMapStore σ τ) (sum : Checksum) (taken : τ) : Result Checksum :=
  return observeEntries sum (← s.toList taken)

/-- The checksum of the churn of a sorted map. -/
def churn (s : SortedMapStore σ τ) (operations : List Operation) : Result Checksum := do
  let p ← operations.foldlM s.step (.start s.empty)
  let p := p.keep (← s.snapshot p.current)
  p.snapshots.toList.foldlM s.readBack p.sum

end SortedMapStore

end PersistentCollections.Bench
