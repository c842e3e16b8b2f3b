import PersistentCollections.Bench.Run

/-!
# The command line

The arguments are read, the workloads are listed or selected and run, and the records are printed
as a table. What is left for the outside to do is in `Outcome`: lines to print, records to save, and
a failure to tell.
-/

namespace PersistentCollections.Bench

/-- The records that are to be written to a file, one to a line. -/
structure Save where
  path : String
  records : List Record

/-- What a command line comes to. -/
structure Outcome where
  /-- The lines for standard output. -/
  lines : List String
  save : Option Save
  failure : Option Failure

namespace Outcome

def failed (f : Failure) : Outcome := ⟨[], none, some f⟩

/-- The names of all workloads. -/
def listing (registry : Registry) : Outcome := ⟨registry.map (·.name), none, none⟩

/-- The table of a run. -/
def table (options : Options) (records : List Record) : Outcome :=
  ⟨Record.header :: records.map Record.row, options.out.map fun path => ⟨path, records⟩, none⟩

/-- The outcome if the records could not be saved. -/
def unsaved (o : Outcome) : Outcome :=
  match o.save with
  | none => o
  | some s => { o with failure := some (.notSaved s.records.length) }

/-- Zero if nothing failed. -/
def exitCode (o : Outcome) : UInt32 := if o.failure.isSome then 1 else 0

end Outcome

section

variable {m : Type → Type} [Monad m]

/-- Select the workloads that the options name, and run them. -/
def runSelected (clock : Stopwatch m) (registry : Registry) (options : Options) :
    ExceptT Failure m (List Record) := do
  let selected ← registry.select options.workloads
  run clock options selected

/-- What the command line does with its arguments. -/
def commandLine (clock : Stopwatch m) (registry : Registry) (arguments : List String) :
    m Outcome := do
  match Options.parse arguments with
  | .error f => return .failed f
  | .ok options =>
    if options.list then return .listing registry
    else
      match ← (runSelected clock registry options).run with
      | .error f => return .failed f
      | .ok records => return .table options records

end

end PersistentCollections.Bench
