import PersistentCollections.Bench.Checksum

/-!
# The progress of a workload

A workload edits one collection of type `σ`, keeps the snapshots of type `τ` that it was asked for,
and mixes what it observes into a checksum.
-/

namespace PersistentCollections.Bench

structure Progress (σ τ : Type) where
  current : σ
  /-- The snapshots so far, in order. -/
  snapshots : Array τ
  sum : Checksum

namespace Progress

variable {σ τ : Type}

def start (current : σ) : Progress σ τ := ⟨current, #[], .zero⟩

/-- Mix in an observation. -/
def observe (p : Progress σ τ) (x : UInt64) : Progress σ τ := { p with sum := p.sum.mix x }

/-- Mix in an observation that may be absent. -/
def observeOption (p : Progress σ τ) (x : Option UInt64) : Progress σ τ :=
  { p with sum := p.sum.mixOption x }

/-- Keep a snapshot, and go on with what taking it left. -/
def keep (p : Progress σ τ) (taken : τ × σ) : Progress σ τ :=
  { p with current := taken.2, snapshots := p.snapshots.push taken.1 }

end Progress

end PersistentCollections.Bench
