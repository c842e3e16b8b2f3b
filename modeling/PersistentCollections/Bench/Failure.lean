import PersistentCollections.Bench.Checksum
import PersistentCollections.Error
import PersistentCollections.Text
import PersistentCollections.Text.Quoted

/-!
# Failures of the bench

Why the arguments were refused, why nothing could be selected, or why a run stopped.
-/

namespace PersistentCollections.Bench

/-- Two workloads of one family that did not observe the same. -/
structure Disagreement where
  name : String
  /-- The workload of the family that came first in the round. -/
  first : String
  checksum : Checksum
  expected : Checksum
  size : Nat
  seed : UInt64
  deriving DecidableEq

inductive Failure where
  /-- An option that needs a value has none. -/
  | missingValue
  /-- The value of an option is not a number of its range. -/
  | badValue
  | unknownArguments (arguments : List String)
  | noRounds
  | unknownWorkload (name : String)
  | disagreement (d : Disagreement)
  /-- A collection stopped a workload. -/
  | collection (e : Error)
  /-- The records of a run could not be written. -/
  | notSaved (records : Nat)
  deriving DecidableEq

def Disagreement.message (d : Disagreement) : String :=
  s!"{d.name} disagrees with {d.first}: {d.checksum.text} vs {d.expected.text} " ++
    s!"(size {d.size}, seed {d.seed})"

def Failure.message : Failure → String
  | .missingValue => "the option has no value"
  | .badValue => "the value of the option is not a number"
  | .unknownArguments arguments =>
    "unknown arguments: " ++ Text.ofList (arguments.map Text.quoted)
  | .noRounds => "--rounds must be at least 1"
  | .unknownWorkload name => s!"unknown workload {Text.quoted name}; try --list"
  | .disagreement d => d.message
  | .collection e => e.message
  | .notSaved records => s!"saving results for {records} workloads"

end PersistentCollections.Bench
