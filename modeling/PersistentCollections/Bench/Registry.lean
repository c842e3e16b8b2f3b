import PersistentCollections.Bench.Failure
import PersistentCollections.Bench.Sets
import PersistentCollections.Bench.Shared
import PersistentCollections.Bench.Vectors

/-!
# The registry of workloads

All workloads of a family read the same input and must end with the same checksum. The baselines
run on plain collections; several names share one of them, since only checksums are compared.
-/

namespace PersistentCollections.Bench

inductive Family where
  | vectorBuild
  | mapChurn
  | sortedRange
  | setAlgebra
  | concurrentReads
  deriving DecidableEq

def Family.name : Family → String
  | .vectorBuild => "vector-build"
  | .mapChurn => "map-churn"
  | .sortedRange => "sorted-range"
  | .setAlgebra => "set-algebra"
  | .concurrentReads => "concurrent-reads"

structure Workload where
  name : String
  family : Family
  implementation : String
  run : Input → Result Checksum

namespace Workload

/-- A workload named for its family and its implementation. -/
def ofFamily (family : Family) (implementation : String)
    (run : List Operation → Result Checksum) : Workload :=
  ⟨s!"{family.name}/{implementation}", family, implementation, fun input => run input.operations⟩

end Workload

/-- The workloads in their order. The names of an ordered map are distinct. -/
abbrev Registry := List Workload

namespace Registry

/-- The workloads of vectors. -/
def vectors : Registry :=
  [.ofFamily .vectorBuild "std" VectorStore.plain.build,
    .ofFamily .vectorBuild "pcoll" VectorStore.persistent.build,
    .ofFamily .vectorBuild "pcoll-transient" VectorStore.transient.build,
    .ofFamily .vectorBuild "im-rc" VectorStore.plain.build,
    .ofFamily .vectorBuild "rpds" VectorStore.plain.build]

/-- The workloads of maps. -/
def maps : Registry :=
  [.ofFamily .mapChurn "std" SortedMapStore.plain.toMapStore.churn,
    .ofFamily .mapChurn "pcoll" MapStore.persistent.churn,
    .ofFamily .mapChurn "pcoll-transient" MapStore.transient.churn,
    .ofFamily .mapChurn "im-rc" SortedMapStore.plain.toMapStore.churn,
    .ofFamily .mapChurn "rpds" SortedMapStore.plain.toMapStore.churn]

/-- The workloads of sorted maps. -/
def sortedMaps : Registry :=
  [.ofFamily .sortedRange "std" SortedMapStore.plain.churn,
    .ofFamily .sortedRange "pcoll" SortedMapStore.persistent.churn,
    .ofFamily .sortedRange "im-rc" SortedMapStore.plain.churn,
    .ofFamily .sortedRange "rpds" SortedMapStore.plain.churn]

/-- The workloads of sets. -/
def sets : Registry :=
  [.ofFamily .setAlgebra "std" SetStore.plain.algebra,
    .ofFamily .setAlgebra "pcoll" SetStore.persistent.algebra,
    .ofFamily .setAlgebra "im-rc" SetStore.plain.algebra,
    .ofFamily .setAlgebra "rpds" SetStore.plain.algebra]

/-- The workloads of shared maps, run one operation after the other. -/
def sharedMaps : Registry :=
  [.ofFamily .concurrentReads "std" (SortedMapStore.plain.toMapStore.sharedReads .sequential),
    .ofFamily .concurrentReads "pcoll" (MapStore.persistent.sharedReads .sequential),
    .ofFamily .concurrentReads "rpds" (SortedMapStore.plain.toMapStore.sharedReads .sequential)]

/-- All workloads. The first one of each family is the one that the others are checked against. -/
def standard : Registry := vectors ++ maps ++ sortedMaps ++ sets ++ sharedMaps

/-- The workloads that a name picks: one by its own name, or a whole family. -/
def named (registry : Registry) (name : String) : List Workload :=
  registry.filter fun w => w.name == name || w.family.name == name

/-- Add the workloads that are not there yet. -/
def addNew (selected new : List Workload) : List Workload :=
  new.foldl (fun selected w =>
    if selected.any fun s => s.name == w.name then selected else selected ++ [w]) selected

/-- One name of the selection: what it picks, unless it was picked before. -/
def addPicked (registry : Registry) (selected : List Workload) (name : String) :
    Except Failure (List Workload) :=
  match registry.named name with
  | [] => .error (.unknownWorkload name)
  | new => .ok (addNew selected new)

/-- The workloads that one of the names picks, in the order of the names, each once. No names pick
all of them. -/
def select (registry : Registry) (names : List String) : Except Failure (List Workload) :=
  if names.isEmpty then .ok registry else names.foldlM registry.addPicked []

end Registry

end PersistentCollections.Bench
