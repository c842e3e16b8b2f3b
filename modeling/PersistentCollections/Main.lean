import PersistentCollections.Bench.CommandLine

/-!
# The program

Runs the command line over the standard registry, with a clock, and does what its outcome says.
-/

namespace PersistentCollections.Main

open Bench

/-- Time a workload by the monotonic clock. The outcome is looked at before the clock is read again,
so that it has been computed by then; a failure takes no time. -/
def stopwatch : Stopwatch IO := fun w input => do
  let start ← IO.monoNanosNow
  match w.run input with
  | .error e => return (.error e, 0)
  | .ok checksum =>
    let stop ← IO.monoNanosNow
    return (.ok checksum, (stop - start).toFloat / 1000)

/-- Write the records, if there are any to write. -/
def save (outcome : Outcome) : IO Outcome := do
  match outcome.save with
  | none => return outcome
  | some s =>
    try
      IO.FS.writeFile s.path (String.join (s.records.map fun r => r.json ++ "\n"))
      return outcome
    catch _ => return outcome.unsaved

/-- Run the command line and tell the exit code. -/
def run (arguments : List String) : IO UInt32 := do
  let outcome ← commandLine stopwatch Registry.standard arguments
  for line in outcome.lines do
    IO.println line
  let outcome ← save outcome
  if let some failure := outcome.failure then
    IO.eprintln s!"Error: {failure.message}"
  return outcome.exitCode

end PersistentCollections.Main

def main (arguments : List String) : IO UInt32 := PersistentCollections.Main.run arguments
