import PersistentCollections.Proofs.Bench.Progress

/-!
# Workloads that read their snapshots back

Building vectors and churning maps, sorted or not, have one shape, `SnapshotWorkload`: the
operations are run one after the other, one more snapshot is taken, and the snapshots are read back
into the checksum. They differ in what an operation does and in how a snapshot is read.

Of two workloads one of which simulates the other, both run to their end, with the same checksum
(`Simulates.checksum`). What is read back then are the snapshots that were taken on the way
(`Simulates.keepsSnapshots`).
-/

namespace PersistentCollections.Bench

/-- A workload on collections of type `σ` with snapshots of type `τ`. -/
structure SnapshotWorkload (σ τ : Type) where
  empty : σ
  step : Progress σ τ → Operation → Result (Progress σ τ)
  /-- Take a snapshot, and tell how to go on. -/
  snapshot : σ → Result (τ × σ)
  readBack : Checksum → τ → Result Checksum
  /-- Where a snapshot is asked for it is taken and kept. -/
  step_snapshot : ∀ p, step p .snapshot = (do return p.keep (← snapshot p.current))
  /-- The other operations leave the snapshots as they are. -/
  step_other : ∀ {p q operation}, operation ≠ .snapshot → step p operation = .ok q →
    q.snapshots = p.snapshots

namespace SnapshotWorkload

variable {σ τ σ' τ' : Type} {w : SnapshotWorkload σ τ} {v : SnapshotWorkload σ' τ'}
  {R : σ → σ' → Prop} {S : τ → τ' → Prop} {p q : Progress σ τ}
  {operations before after : List Operation}

def run (w : SnapshotWorkload σ τ) (operations : List Operation) : Result (Progress σ τ) :=
  operations.foldlM w.step (.start w.empty)

/-- The checksum of the workload. -/
def checksum (w : SnapshotWorkload σ τ) (operations : List Operation) : Result Checksum := do
  let p ← w.run operations
  let p := p.keep (← w.snapshot p.current)
  p.snapshots.toList.foldlM w.readBack p.sum

/-! ## Snapshots -/

theorem step_grows {operation : Operation} (hStep : w.step p operation = .ok q) :
    p.Grows [operation] q := by
  by_cases hOperation : operation = .snapshot
  · subst hOperation
    rw [w.step_snapshot] at hStep
    obtain ⟨taken, -, hStep⟩ := Result.bind_eq_ok.mp hStep
    cases hStep
    exact p.grows_keep taken
  · exact Progress.grows_of_eq hOperation (w.step_other hOperation hStep)

/-- What every step does to the snapshots, a whole run does. -/
theorem grows_of_foldlM (hRun : operations.foldlM w.step p = .ok q) : p.Grows operations q := by
  induction operations generalizing p with
  | nil =>
    rw [List.foldlM_nil, Result.pure_eq, Except.ok.injEq] at hRun
    rw [hRun]
    exact q.grows_refl
  | cons operation operations ih =>
    rw [List.foldlM_cons] at hRun
    obtain ⟨next, hNext, hRun⟩ := Result.bind_eq_ok.mp hRun
    exact (step_grows hNext).trans (ih hRun)

theorem size_snapshots (hRun : w.run operations = .ok q) :
    q.snapshots.size = operations.count .snapshot :=
  (grows_of_foldlM hRun).size_eq.trans (Nat.zero_add _)

/-- The snapshot that was asked for after `before` is one of the collection that was there then, and
stands behind those that were asked for before it. -/
theorem exists_taken (hBefore : w.run before = .ok p)
    (hRun : w.run (before ++ .snapshot :: after) = .ok q) :
    ∃ taken, w.snapshot p.current = .ok taken ∧
      q.snapshots[before.count .snapshot]? = some taken.1 := by
  have hSize := size_snapshots hBefore
  unfold run at hBefore hRun
  rw [List.foldlM_append, hBefore, Result.bind_ok, List.foldlM_cons, w.step_snapshot] at hRun
  obtain ⟨next, hNext, hAfter⟩ := Result.bind_eq_ok.mp hRun
  obtain ⟨taken, hTaken, hNext⟩ := Result.bind_eq_ok.mp hNext
  cases hNext
  refine ⟨taken, hTaken, ?_⟩
  rw [← hSize]
  exact (grows_of_foldlM hAfter).kept

/-- The checksum is that of a run which ends with a snapshot. -/
theorem checksum_eq (hRun : w.run (operations ++ [Operation.snapshot]) = .ok q) :
    w.checksum operations = q.snapshots.toList.foldlM w.readBack q.sum := by
  rw [run, List.foldlM_append] at hRun
  obtain ⟨p, hp, hRun⟩ := Result.bind_eq_ok.mp hRun
  rw [List.foldlM_cons, w.step_snapshot] at hRun
  obtain ⟨q', hKeep, hRun⟩ := Result.bind_eq_ok.mp hRun
  cases hRun
  obtain ⟨taken, hTaken, hKeep⟩ := Result.bind_eq_ok.mp hKeep
  cases hKeep
  rw [checksum, run, hp, Result.bind_ok, hTaken, Result.bind_ok]

/-- A run takes one more snapshot in the end and then reads all of them back, one for each time that
one was asked for, as the collection that was there at that time, and `outcome` is the checksum that
they are read into. What it means to be read back as a collection is for each kind of collections to
say. -/
def KeepsSnapshots (w : SnapshotWorkload σ τ) (ReadsBack : σ → τ → Prop)
    (operations : List Operation) (outcome : Result Checksum) : Prop :=
  ∃ q, w.run (operations ++ [Operation.snapshot]) = .ok q ∧
    outcome = q.snapshots.toList.foldlM w.readBack q.sum ∧
    q.snapshots.size = (operations ++ [Operation.snapshot]).count .snapshot ∧
    ∀ before after, operations ++ [Operation.snapshot] = before ++ .snapshot :: after →
      ∃ p taken, w.run before = .ok p ∧
        q.snapshots[before.count .snapshot]? = some taken ∧ ReadsBack p.current taken

/-! ## Simulations -/

/-- The first workload does on collections what the second does on those that are related to
them. -/
structure Simulates (w : SnapshotWorkload σ τ) (v : SnapshotWorkload σ' τ') (R : σ → σ' → Prop)
    (S : τ → τ' → Prop) : Prop where
  empty : R w.empty v.empty
  step : ∀ {p q} operation, p.Related R S q →
    Lockstep (Progress.Related R S) (w.step p operation) (v.step q operation)
  snapshot : ∀ {a b}, R a b →
    Lockstep (fun x y => S x.1 y.1 ∧ R x.2 y.2) (w.snapshot a) (v.snapshot b)
  readBack : ∀ {t u} sum, S t u → Lockstep Eq (w.readBack sum t) (v.readBack sum u)

theorem Simulates.run (h : w.Simulates v R S) (operations : List Operation) :
    Lockstep (Progress.Related R S) (w.run operations) (v.run operations) :=
  Lockstep.foldlM_same (fun _ _ operation hpq => h.step operation hpq) operations
    (Progress.related_start h.empty)

/-- Both workloads end with the same checksum. -/
theorem Simulates.checksum (h : w.Simulates v R S) (operations : List Operation) :
    Lockstep Eq (w.checksum operations) (v.checksum operations) := by
  apply (h.run operations).bind
  intro p q hpq
  apply (h.snapshot hpq.current).bind
  intro taken taken' hTaken
  have hKept := hpq.keep hTaken.1 hTaken.2
  apply Lockstep.foldlM (T := S) _ hKept.snapshots hKept.sum
  rintro sum _ t u rfl htu
  exact h.readBack sum htu

theorem Simulates.keepsSnapshots (h : w.Simulates v R S) {ReadsBack : σ → τ → Prop}
    (hReads : ∀ {a b taken}, R a b → w.snapshot a = .ok taken → ReadsBack a taken.1)
    (operations : List Operation) :
    w.KeepsSnapshots ReadsBack operations (w.checksum operations) := by
  obtain ⟨q, -, hq, -, -⟩ := h.run (operations ++ [Operation.snapshot])
  refine ⟨q, hq, checksum_eq hq, size_snapshots hq, ?_⟩
  intro before after hSplit
  obtain ⟨p, b, hp, -, hpb⟩ := h.run before
  rw [hSplit] at hq
  obtain ⟨taken, hTaken, hAt⟩ := exists_taken hp hq
  exact ⟨p, taken.1, hp, hAt, hReads hpb.current hTaken⟩

end SnapshotWorkload

end PersistentCollections.Bench
