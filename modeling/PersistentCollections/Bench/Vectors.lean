import PersistentCollections.Bench.Input
import PersistentCollections.Bench.Progress
import PersistentCollections.TrieVector.Iterator
import PersistentCollections.TrieVector.Transient

/-!
# Building vectors

A vector is grown and edited: an insertion pushes its value, an erasure pops, a lookup reads the
key modulo the size, and a range writes its high end at its low end modulo the size. In the end
every snapshot is read back, element by element.
-/

namespace PersistentCollections.Bench

/-- What the workload asks of a vector of type `σ` with snapshots of type `τ`. -/
structure VectorStore (σ τ : Type) where
  empty : σ
  size : σ → Nat
  push : σ → UInt64 → Result σ
  /-- Remove the last element; an empty vector stays as it is. -/
  pop : σ → Result σ
  get? : σ → Nat → Result (Option UInt64)
  /-- Write at an index below the size. -/
  put : σ → Nat → UInt64 → Result σ
  /-- Take a snapshot, and tell how to go on. -/
  snapshot : σ → Result (τ × σ)
  toList : τ → Result (List UInt64)

namespace VectorStore

variable {σ τ : Type}

def persistent : VectorStore (TrieVector UInt64) (TrieVector UInt64) where
  empty := .empty
  size := TrieVector.size
  push v x := (v.push x).value
  pop v := if v.isEmpty then .ok v else v.pop
  get? v index := v.get? index
  put v index x := (v.put index x).value
  snapshot v := .ok (v, v)
  toList v := v.toList

/-- Edits between two snapshots are on a transient. A snapshot freezes it, and the frozen vector
starts the next one. -/
def transient : VectorStore (TrieVector.Transient UInt64) (TrieVector UInt64) where
  empty := .empty
  size := TrieVector.Transient.size
  push t x := (t.push x).value
  pop t := if t.isEmpty then .ok t else t.pop
  get? t index := t.get? index
  put t index x := (t.put index x).value
  snapshot t := do
    let v ← t.freeze.value
    return (v, v.transient)
  toList v := v.toList

/-- A plain array. -/
def plain : VectorStore (Array UInt64) (Array UInt64) where
  empty := #[]
  size := Array.size
  push a x := .ok (a.push x)
  pop a := .ok a.pop
  get? a index := .ok a[index]?
  put a index x := .ok (a.setIfInBounds index x)
  snapshot a := .ok (a, a)
  toList a := .ok a.toList

/-- One operation of the workload. -/
def step (s : VectorStore σ τ) (p : Progress σ τ) : Operation → Result (Progress σ τ)
  | .insert _ value => return { p with current := ← s.push p.current value }
  | .erase _ => return { p with current := ← s.pop p.current }
  | .lookup key =>
    if s.size p.current = 0 then return p.observeOption none
    else return p.observeOption (← s.get? p.current (key.toNat % s.size p.current))
  | .range low high =>
    if s.size p.current = 0 then return p
    else return { p with current := ← s.put p.current (low.toNat % s.size p.current) high }
  | .snapshot => return p.keep (← s.snapshot p.current)

/-- Read a snapshot back: its elements and then their number. -/
def readBack (s : VectorStore σ τ) (sum : Checksum) (taken : τ) : Result Checksum := do
  let xs ← s.toList taken
  return (sum.mixAll xs).mix (UInt64.ofNat xs.length)

/-- The checksum of the workload. -/
def build (s : VectorStore σ τ) (operations : List Operation) : Result Checksum := do
  let p ← operations.foldlM s.step (.start s.empty)
  let p := p.keep (← s.snapshot p.current)
  p.snapshots.toList.foldlM s.readBack p.sum

end VectorStore

end PersistentCollections.Bench
