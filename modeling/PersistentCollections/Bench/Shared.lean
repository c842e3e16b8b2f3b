import PersistentCollections.Bench.Maps

/-!
# Reading a shared map

A map is built from the insertions and erasures. Then all operations are run by many workers at
once on the map they share. An insertion writes under a key that no reader looks at, and the other
operations read what was built. Every access to the shared map is atomic, so a run is an order in
which the operations took their turns, together with the order in which their observations
arrived: a `Schedule`. The observations are sorted before they are mixed.
-/

namespace PersistentCollections.Bench

/-- Keys from `2 ^ 62` on belong to the writers. -/
def writerKeys : UInt64 := 0x4000000000000000

/-- An operation with its place in the input. -/
structure Task where
  index : Nat
  operation : Operation

/-- What the task of an index saw. -/
structure Observation where
  index : Nat
  seen : UInt64

/-- By index, and then by what was seen. -/
def Observation.upTo (a b : Observation) : Bool :=
  a.index < b.index || (a.index == b.index && a.seen ≤ b.seen)

/-- How the workers happened to run. -/
structure Schedule where
  /-- The order in which the tasks took their turns. -/
  turns : List Task → List Task
  /-- The order in which the observations arrived. -/
  arrivals : List Observation → List Observation

namespace Schedule

/-- Every task takes one turn, and every observation arrives once. -/
def Fair (s : Schedule) : Prop :=
  (∀ tasks, (s.turns tasks).Perm tasks) ∧ ∀ seen, (s.arrivals seen).Perm seen

/-- One after the other. -/
def sequential : Schedule := ⟨id, id⟩

end Schedule

namespace MapStore

variable {σ τ : Type}

/-- Apply an insertion or an erasure. -/
def buildStep (s : MapStore σ τ) (map : σ) : Operation → Result σ
  | .insert key value => s.insert map key value
  | .erase key => s.erase map key
  | _ => .ok map

/-- The digest of the entries that were built. -/
def builtDigest (s : MapStore σ τ) (map : σ) : Result UInt64 := do
  let (taken, _) ← s.snapshot map
  return entriesDigest ((← s.toList taken).filter fun e => e.1 < writerKeys)

/-- The turn of one task: the shared map after it, and what it saw, if it reads. -/
def turn (s : MapStore σ τ) (map : σ) : Operation → Result (σ × Option UInt64)
  | .insert key _ => return (← s.insert map (writerKeys + key) (splitmix key), none)
  | .erase _ => return (map, none)
  | .lookup key => return (map, some (((← s.get? map key).map (· + 1)).getD 0))
  | .range low high => do
    let first := (← s.get? map low).getD 0
    let last := (← s.get? map high).getD 0
    return (map, some (first + rotateLeft last 32))
  | .snapshot => return (map, some (← s.builtDigest map))

/-- The turns of several tasks. -/
def turns (s : MapStore σ τ) (start : σ × Array Observation) (tasks : List Task) :
    Result (σ × Array Observation) :=
  tasks.foldlM (fun (map, observed) task => do
    let (map, seen) ← s.turn map task.operation
    return (map, seen.elim observed fun x => observed.push ⟨task.index, x⟩)) start

/-- The checksum of the workload under a schedule. -/
def sharedReads (s : MapStore σ τ) (schedule : Schedule) (operations : List Operation) :
    Result Checksum := do
  let built ← operations.foldlM s.buildStep s.empty
  let tasks := operations.mapIdx Task.mk
  let (map, observed) ← s.turns (built, #[]) (schedule.turns tasks)
  let sorted := (schedule.arrivals observed.toList).mergeSort Observation.upTo
  let (taken, _) ← s.snapshot map
  return (Checksum.zero.mixAll (sorted.map (·.seen))).mix (entriesDigest (← s.toList taken))

end MapStore

end PersistentCollections.Bench
