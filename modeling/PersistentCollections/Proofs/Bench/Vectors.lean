import PersistentCollections.Bench.Vectors
import PersistentCollections.Proofs.Bench.SnapshotWorkload
import PersistentCollections.Proofs.TrieVector.History

/-!
# Building vectors on any store

`VectorStore.Simulates` relates two stores that do the same, whatever they are made of: each of the
things that the workload asks for leads from related vectors to related ones. Then every operation
does, and so does a whole run, which ends with the same checksum on both stores
(`Simulates.build`).

The persistent vectors, the transients and the plain arrays all simulate the store of lists. So
their checksums are the same, and what a snapshot is read back as in the end is the vector of which
it was taken (`Simulates.keepsSnapshots`).
-/

namespace PersistentCollections.Bench.VectorStore

variable {σ τ σ' τ' : Type} {s : VectorStore σ τ} {r : VectorStore σ' τ'} {R : σ → σ' → Prop}
  {S : τ → τ' → Prop} {p : Progress σ τ} {q : Progress σ' τ'}

/-- The first store does on vectors what the second does on those that are related to them. -/
structure Simulates (s : VectorStore σ τ) (r : VectorStore σ' τ') (R : σ → σ' → Prop)
    (S : τ → τ' → Prop) : Prop where
  empty : R s.empty r.empty
  size : ∀ {v w}, R v w → s.size v = r.size w
  push : ∀ {v w} x, R v w → Lockstep R (s.push v x) (r.push w x)
  pop : ∀ {v w}, R v w → Lockstep R (s.pop v) (r.pop w)
  get? : ∀ {v w} index, R v w → Lockstep Eq (s.get? v index) (r.get? w index)
  put : ∀ {v w index} x, R v w → index < r.size w →
    Lockstep R (s.put v index x) (r.put w index x)
  snapshot : ∀ {v w}, R v w →
    Lockstep (fun a b => S a.1 b.1 ∧ R a.2 b.2) (s.snapshot v) (r.snapshot w)
  toList : ∀ {t u}, S t u → Lockstep Eq (s.toList t) (r.toList u)

/-! ## Runs -/

theorem Simulates.step (h : s.Simulates r R S) (operation : Operation)
    (hp : p.Related R S q) :
    Lockstep (Progress.Related R S) (s.step p operation) (r.step q operation) := by
  cases operation with
  | insert key value =>
    apply (h.push value hp.current).bind
    intro v w hvw
    exact .ok (hp.go hvw)
  | erase key =>
    apply (h.pop hp.current).bind
    intro v w hvw
    exact .ok (hp.go hvw)
  | lookup key =>
    simp only [VectorStore.step, h.size hp.current]
    split
    · exact .ok (hp.observeOption none)
    · apply (h.get? _ hp.current).bind
      rintro x _ rfl
      exact .ok (hp.observeOption x)
  | range low high =>
    simp only [VectorStore.step, h.size hp.current]
    split
    · exact .ok hp
    · next hSize =>
      have hIndex := Nat.mod_lt low.toNat (Nat.pos_of_ne_zero hSize)
      apply (h.put high hp.current hIndex).bind
      intro v w hvw
      exact .ok (hp.go hvw)
  | snapshot =>
    apply (h.snapshot hp.current).bind
    intro taken taken' hTaken
    exact .ok (hp.keep hTaken.1 hTaken.2)

theorem Simulates.readBack (h : s.Simulates r R S) {t : τ} {u : τ'} (sum : Checksum)
    (htu : S t u) : Lockstep Eq (s.readBack sum t) (r.readBack sum u) := by
  apply (h.toList htu).bind
  rintro xs _ rfl
  exact .ok rfl

theorem step_other {p q : Progress σ τ} {operation : Operation} (hOther : operation ≠ .snapshot)
    (hStep : s.step p operation = .ok q) : q.snapshots = p.snapshots := by
  cases operation with
  | insert key value =>
    obtain ⟨v, -, hStep⟩ := Result.bind_eq_ok.mp hStep
    cases hStep
    rfl
  | erase key =>
    obtain ⟨v, -, hStep⟩ := Result.bind_eq_ok.mp hStep
    cases hStep
    rfl
  | lookup key =>
    simp only [VectorStore.step] at hStep
    split at hStep
    · cases hStep
      exact p.observeOption_snapshots none
    · obtain ⟨x, -, hStep⟩ := Result.bind_eq_ok.mp hStep
      cases hStep
      exact p.observeOption_snapshots x
  | range low high =>
    simp only [VectorStore.step] at hStep
    split at hStep
    · cases hStep
      rfl
    · obtain ⟨v, -, hStep⟩ := Result.bind_eq_ok.mp hStep
      cases hStep
      rfl
  | snapshot => exact absurd rfl hOther

/-- The building of a vector. -/
def workload (s : VectorStore σ τ) : SnapshotWorkload σ τ where
  empty := s.empty
  step := s.step
  snapshot := s.snapshot
  readBack := s.readBack
  step_snapshot _ := rfl
  step_other := step_other

theorem build_eq_checksum (s : VectorStore σ τ) (operations : List Operation) :
    s.build operations = s.workload.checksum operations := rfl

theorem Simulates.workload (h : s.Simulates r R S) : s.workload.Simulates r.workload R S :=
  ⟨h.empty, h.step, h.snapshot, h.readBack⟩

/-- Both stores end with the same checksum. -/
theorem Simulates.build (h : s.Simulates r R S) (operations : List Operation) :
    Lockstep Eq (s.build operations) (r.build operations) := by
  rw [build_eq_checksum, build_eq_checksum]
  exact h.workload.checksum operations

/-! ## Snapshots -/

/-- A snapshot is read back as the vector of which it was taken. -/
def ReadsBack (s : VectorStore σ τ) (current : σ) (taken : τ) : Prop :=
  ∃ xs, s.toList taken = .ok xs ∧ s.size current = xs.length ∧
    ∀ index, s.get? current index = .ok xs[index]?

/-- Every snapshot that was asked for is read back in the end as the vector that was there then, into
what `build` gives. -/
def KeepsSnapshots (s : VectorStore σ τ) (operations : List Operation) : Prop :=
  s.workload.KeepsSnapshots s.ReadsBack operations (s.build operations)

/-! ## Lists -/

/-- The store of lists. -/
def lists : VectorStore (List UInt64) (List UInt64) where
  empty := []
  size := List.length
  push l x := .ok (l ++ [x])
  pop l := .ok l.dropLast
  get? l index := .ok l[index]?
  put l index x := .ok (l.set index x)
  snapshot l := .ok (l, l)
  toList l := .ok l

theorem Simulates.readsBack {R : σ → List UInt64 → Prop} {S : τ → List UInt64 → Prop}
    (h : s.Simulates lists R S) {v : σ} {t : τ} {l : List UInt64} (hv : R v l) (ht : S t l) :
    s.ReadsBack v t := by
  obtain ⟨xs, hxs, rfl⟩ := (h.toList ht).ok_right
  refine ⟨xs, hxs, h.size hv, ?_⟩
  intro index
  obtain ⟨x, hx, rfl⟩ := (h.get? index hv).ok_right
  exact hx

theorem Simulates.keepsSnapshots {R : σ → List UInt64 → Prop} {S : τ → List UInt64 → Prop}
    (h : s.Simulates lists R S) (operations : List Operation) : s.KeepsSnapshots operations := by
  rw [KeepsSnapshots, build_eq_checksum]
  refine h.workload.keepsSnapshots ?_ operations
  intro v l taken hvl hTaken
  obtain ⟨taken', hTaken', htl, -⟩ := (h.snapshot hvl).ok_right
  cases hTaken.symm.trans hTaken'
  exact h.readsBack hvl htl

theorem persistent_simulates :
    persistent.Simulates lists TrieVector.Holds TrieVector.Holds where
  empty := TrieVector.holds_empty
  size h := h.size_eq
  push x h := by
    obtain ⟨v, hYields, hv⟩ := h.push x
    exact .of_succeeds ⟨_, v, hYields, hv⟩
  pop {v l} h := by
    show Lockstep _ (if v.isEmpty = true then Except.ok v else v.pop) _
    rw [h.isEmpty_eq]
    cases l with
    | nil => exact .ok h
    | cons x l =>
      obtain ⟨v', hPop, h'⟩ := h.pop (List.cons_ne_nil x l)
      exact ⟨v', _, hPop, rfl, h'⟩
  get? index h := ⟨_, _, h.get?_eq index, rfl, rfl⟩
  put x h hIndex := by
    obtain ⟨v, hYields, hv⟩ := h.put_inside hIndex x
    exact .of_succeeds ⟨_, v, hYields, hv⟩
  snapshot h := .ok ⟨h, h⟩
  toList h := ⟨_, _, h.toList_eq, rfl, rfl⟩

-- A change of a transient is a change of the vector that it holds.
theorem transient_simulates : transient.Simulates lists
    (fun t l => TrieVector.Holds (TrieVector.Held.content (s := .building) t) l)
    TrieVector.Holds where
  empty := TrieVector.holds_empty
  size h := h.size_eq
  push {t l} x h := by
    obtain ⟨v, hYields, hv⟩ := h.push x
    obtain ⟨t', hYields', rfl⟩ := TrieVector.Held.push_yields hYields
    exact .of_succeeds ⟨_, t', hYields', hv⟩
  pop {t l} h := by
    show Lockstep _ (if (TrieVector.Held.content (s := .building) t).isEmpty = true then
      Except.ok t else t.pop) _
    rw [h.isEmpty_eq]
    cases l with
    | nil => exact .ok h
    | cons x l =>
      obtain ⟨v, hPop, hv⟩ := h.pop (List.cons_ne_nil x l)
      obtain ⟨t', hPop', rfl⟩ := TrieVector.Held.pop_eq_ok hPop
      exact ⟨t', _, hPop', rfl, hv⟩
  get? index h := ⟨_, _, h.get?_eq index, rfl, rfl⟩
  put {t l index} x h hIndex := by
    obtain ⟨v, hYields, hv⟩ := h.put_inside hIndex x
    obtain ⟨t', hYields', rfl⟩ := TrieVector.Held.put_yields hYields
    exact .of_succeeds ⟨_, t', hYields', hv⟩
  snapshot {t l} h := by
    have hFreeze : Succeeds t.freeze fun v => TrieVector.Holds v l :=
      (succeeds_record _).bind fun _ _ => succeeds_pure h
    obtain ⟨v, hv, hHolds⟩ := hFreeze.value
    refine ⟨(v, v.transient), (l, l), ?_, rfl, hHolds, hHolds⟩
    show (t.freeze.value >>= _) = _
    rw [hv]
    rfl
  toList h := ⟨_, _, h.toList_eq, rfl, rfl⟩

theorem plain_simulates :
    plain.Simulates lists (fun a l => a.toList = l) fun a l => a.toList = l where
  empty := rfl
  size := by
    rintro a _ rfl
    exact Array.length_toList.symm
  push := by
    rintro a _ x rfl
    exact .ok Array.toList_push
  pop := by
    rintro a _ rfl
    exact .ok Array.toList_pop
  get? := by
    rintro a _ index rfl
    exact ⟨_, _, rfl, rfl, Array.getElem?_toList.symm⟩
  put := by
    rintro a _ index x rfl -
    exact .ok Array.toList_setIfInBounds
  snapshot h := .ok ⟨h, h⟩
  toList h := ⟨_, _, rfl, rfl, h⟩

end PersistentCollections.Bench.VectorStore
