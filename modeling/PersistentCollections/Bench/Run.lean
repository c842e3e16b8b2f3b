import PersistentCollections.Bench.Options
import PersistentCollections.Bench.Report

/-!
# Runs

A run takes the selected workloads through all rounds. Every round has an input of its own, and
within it every workload must end with the checksum of the first one of its family. How a workload
is timed is a parameter, `Stopwatch`.
-/

namespace PersistentCollections.Bench

/-- A way to run a workload on an input and to tell the time it took, in microseconds. -/
abbrev Stopwatch (m : Type → Type) := Workload → Input → m (Result Checksum × Float)

/-- The stopwatch that stands still. -/
def Stopwatch.still : Stopwatch Id := fun w input => (w.run input, 0)

/-- The first workload of a family in a round, and its checksum. -/
structure Expectation where
  family : Family
  name : String
  checksum : Checksum

/-- What a run has come to. -/
structure Tally where
  /-- The expectations of this round. -/
  expected : List Expectation
  /-- The records so far with the names of their workloads, in the order of the first round. -/
  records : List (String × Record)

namespace Tally

def empty : Tally := ⟨[], []⟩

/-- Forget the expectations, for the next round. -/
def nextRound (t : Tally) : Tally := { t with expected := [] }

/-- Check a checksum against the family, or let it be the one that the family is checked against. -/
def agree (t : Tally) (input : Input) (w : Workload) (checksum : Checksum) :
    Except Failure Tally :=
  match t.expected.find? fun e => e.family == w.family with
  | none => .ok { t with expected := t.expected ++ [⟨w.family, w.name, checksum⟩] }
  | some e =>
    if e.checksum = checksum then .ok t
    else .error (.disagreement ⟨w.name, e.name, checksum, e.checksum, input.size, input.seed⟩)

/-- Note the checksum and the time of a round in a record. -/
def noteIn (checksum : Checksum) (time : Float) (r : Record) : Record :=
  { r with checksum := checksum, times := r.times ++ [time] }

/-- Note the checksum and the time of a workload in its record, which may be new. -/
def note (t : Tally) (options : Options) (w : Workload) (checksum : Checksum) (time : Float) :
    Tally :=
  if t.records.any fun r => r.1 == w.name then
    { t with records := t.records.map fun r =>
        if r.1 == w.name then (r.1, noteIn checksum time r.2) else r }
  else
    let new : Record := ⟨w.family, w.implementation, options.size, options.seed, checksum, [time]⟩
    { t with records := t.records ++ [(w.name, new)] }

end Tally

section

variable {m : Type → Type} [Monad m]

/-- Run one workload on the input of a round. -/
def runWorkload (clock : Stopwatch m) (options : Options) (input : Input) (t : Tally)
    (w : Workload) : ExceptT Failure m Tally := do
  let (outcome, time) ← clock w input
  match outcome with
  | .error e => throw (.collection e)
  | .ok checksum =>
    let t ← t.agree input w checksum
    return t.note options w checksum time

/-- The input of a round: the seed goes up by one with every round, and wraps. -/
def roundInput (options : Options) (round : Nat) : Input :=
  .generate options.size (options.seed + UInt64.ofNat round)

/-- Run the rounds from `round` on, of which `left` are left. -/
def runRounds (clock : Stopwatch m) (options : Options) (selected : List Workload) (round : Nat) :
    (left : Nat) → Tally → ExceptT Failure m Tally
  | 0, t => return t
  | left + 1, t => do
    let t ← selected.foldlM (runWorkload clock options (roundInput options round)) t.nextRound
    runRounds clock options selected (round + 1) left t

/-- Run the selected workloads for all rounds. -/
def run (clock : Stopwatch m) (options : Options) (selected : List Workload) :
    ExceptT Failure m (List Record) := do
  let t ← runRounds clock options selected 0 options.rounds .empty
  return t.records.map (·.2)

end

end PersistentCollections.Bench
