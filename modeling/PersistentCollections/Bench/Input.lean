import PersistentCollections.Random.Source

/-!
# Inputs of workloads

A workload is a list of operations on one collection. `Input.generate` draws one from a seed: half
of the operations insert, a fifth erase, a quarter look up, and the rest ask for a range. Every
eighth of the way a snapshot is asked for. Which generator the numbers come from is left open until
then.
-/

namespace PersistentCollections.Bench

/-- One operation. Each family of workloads gives it its own meaning. -/
inductive Operation where
  | insert (key value : UInt64)
  | erase (key : UInt64)
  | lookup (key : UInt64)
  | range (low high : UInt64)
  | snapshot
  deriving DecidableEq

structure Input where
  size : Nat
  seed : UInt64
  operations : List Operation

namespace Input

/-- Keys are drawn below this number. -/
def keyBound (size : Nat) : Nat := max (2 * size) 1

/-- The number of operations between two snapshots. -/
def snapshotEvery (size : Nat) : Nat := max (size / 8) 1

/-- The end of a range that starts at `low`, cut off at the greatest word. -/
def rangeEnd (low span : Nat) : UInt64 := UInt64.ofNat (min (low + span) (UInt64.size - 1))

section

variable {γ : Type} (g : Random.Generator γ)

/-- Draw one operation: the key, then its kind, then what else it needs. -/
def drawOperation (keyBound : Nat) : StateM γ Operation := do
  let key ← g.double keyBound
  let kind ← g.single 100
  if kind < 50 then
    return .insert (UInt64.ofNat key) (← g.word).toUInt64
  else if kind < 70 then
    return .erase (UInt64.ofNat key)
  else if kind < 95 then
    return .lookup (UInt64.ofNat key)
  else
    let span ← g.double (keyBound / 16 + 1)
    return .range (UInt64.ofNat key) (rangeEnd key span)

/-- Draw the last `left` of `size` operations, after those already drawn. -/
def drawOperations (size : Nat) : (left : Nat) → Array Operation → StateM γ (Array Operation)
  | 0, drawn => return drawn
  | left + 1, drawn => do
    let drawn := drawn.push (← drawOperation g (keyBound size))
    let drawn := if (size - left) % snapshotEvery size = 0 then drawn.push .snapshot else drawn
    drawOperations size left drawn

/-- The input that a generator gives for a size and a seed. -/
def generateWith (size : Nat) (seed : UInt64) : Input :=
  let (operations, _) := ((drawOperations g size size #[]).run (g.ofSeed seed)).run
  ⟨size, seed, operations.toList⟩

end

/-- The input of a size and a seed. -/
def generate (size : Nat) (seed : UInt64) : Input := generateWith .chaCha size seed

end Input

end PersistentCollections.Bench
