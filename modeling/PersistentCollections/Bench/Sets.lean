import PersistentCollections.Bench.Input
import PersistentCollections.Bench.Progress
import PersistentCollections.HashTrieSet
import Std.Data.TreeSet

/-!
# The algebra of sets

Elements are inserted, erased and looked up, and a range looks up both its ends. At every snapshot
the set is joined with the previous snapshot, met with it, and taken from it both ways; what comes
out is digested in any order, as the snapshots are in the end.
-/

namespace PersistentCollections.Bench

/-- What the workload asks of a set of type `σ`. -/
structure SetStore (σ : Type) where
  empty : σ
  insert : σ → UInt64 → Result σ
  erase : σ → UInt64 → Result σ
  contains : σ → UInt64 → Result Bool
  union : σ → σ → Result σ
  intersection : σ → σ → Result σ
  difference : σ → σ → Result σ
  toList : σ → List UInt64

namespace SetStore

variable {σ : Type}

def persistent : SetStore (HashTrieSet UInt64) where
  empty := .empty
  insert s x := (s.insert x).value
  erase s x := (s.erase x).value
  contains s x := s.contains x
  union s other := (s.union other).value
  intersection s other := (s.intersection other).value
  difference s other := (s.difference other).value
  toList := HashTrieSet.toList

/-- A plain search tree. -/
def plain : SetStore (Std.TreeSet UInt64) where
  empty := ∅
  insert s x := .ok (s.insert x)
  erase s x := .ok (s.erase x)
  contains s x := .ok (s.contains x)
  union s other := .ok (s.insertMany other.toList)
  intersection s other := .ok (.ofList (s.toList.filter other.contains))
  difference s other := .ok (s.eraseMany other.toList)
  toList := Std.TreeSet.toList

/-- What is observed of a lookup. -/
def bit (b : Bool) : UInt64 := if b then 1 else 0

def digest (s : SetStore σ) (set : σ) : UInt64 := unorderedDigest (s.toList set)

/-- Observe a set against the previous snapshot. -/
def compareWith (s : SetStore σ) (p : Progress σ σ) (previous : σ) : Result (Progress σ σ) := do
  let p := p.observe (s.digest (← s.union p.current previous))
  let p := p.observe (s.digest (← s.intersection p.current previous))
  let p := p.observe (s.digest (← s.difference p.current previous))
  return p.observe (s.digest (← s.difference previous p.current))

/-- One operation of the workload. -/
def step (s : SetStore σ) (p : Progress σ σ) : Operation → Result (Progress σ σ)
  | .insert key _ => return { p with current := ← s.insert p.current key }
  | .erase key => return { p with current := ← s.erase p.current key }
  | .lookup key => return p.observe (bit (← s.contains p.current key))
  | .range low high => do
    let first ← s.contains p.current low
    let last ← s.contains p.current high
    return p.observe (bit first ||| (bit last <<< 1))
  | .snapshot => do
    let p ← match p.snapshots.back? with
      | some previous => s.compareWith p previous
      | none => pure p
    return p.keep (p.current, p.current)

/-- The checksum of the workload. -/
def algebra (s : SetStore σ) (operations : List Operation) : Result Checksum := do
  let p ← operations.foldlM s.step (.start s.empty)
  return p.sum.mixAll ((p.snapshots.push p.current).toList.map s.digest)

end SetStore

end PersistentCollections.Bench
