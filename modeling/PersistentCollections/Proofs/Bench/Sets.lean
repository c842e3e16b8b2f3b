import PersistentCollections.Bench.Sets
import PersistentCollections.Proofs.Bench.Progress
import PersistentCollections.Proofs.HashTrieSet.History

/-!
# The algebra of sets on any store

The reference is the store of finite sets. As with maps, a store may list the elements in any order.
A snapshot sets the present set against the last one, so the snapshots take part in the run: they
are sets like the present one, and related in the same way.
-/

namespace PersistentCollections.Bench.SetStore

variable {σ σ' : Type} {s : SetStore σ} {r : SetStore σ'} {R : σ → σ' → Prop} {p : Progress σ σ}
  {q : Progress σ' σ'}

/-- The store of finite sets. -/
noncomputable def finite : SetStore (Finset UInt64) where
  empty := ∅
  insert e x := .ok (e ∪ {x})
  erase e x := .ok (e.erase x)
  contains e x := .ok (decide (x ∈ e))
  union e other := .ok (e ∪ other)
  intersection e other := .ok (e ∩ other)
  difference e other := .ok (e \ other)
  toList := Finset.toList

/-- The first store does on sets what the second does on those that are related to them, but for the
order in which they list their elements. -/
structure Simulates (s : SetStore σ) (r : SetStore σ') (R : σ → σ' → Prop) : Prop where
  empty : R s.empty r.empty
  insert : ∀ {a b} x, R a b → Lockstep R (s.insert a x) (r.insert b x)
  erase : ∀ {a b} x, R a b → Lockstep R (s.erase a x) (r.erase b x)
  contains : ∀ {a b} x, R a b → Lockstep Eq (s.contains a x) (r.contains b x)
  union : ∀ {a b a' b'}, R a b → R a' b' → Lockstep R (s.union a a') (r.union b b')
  intersection : ∀ {a b a' b'}, R a b → R a' b' →
    Lockstep R (s.intersection a a') (r.intersection b b')
  difference : ∀ {a b a' b'}, R a b → R a' b' →
    Lockstep R (s.difference a a') (r.difference b b')
  toList : ∀ {a b}, R a b → (s.toList a).Perm (r.toList b)

theorem Simulates.digest_eq (h : s.Simulates r R) {a : σ} {b : σ'} (hab : R a b) :
    s.digest a = r.digest b := by
  unfold digest
  rw [unorderedDigest_perm (h.toList hab)]

/-! ## Runs -/

/-- What comes out of two sets is observed in the same way, four times. -/
theorem Simulates.compareWith (h : s.Simulates r R) (hp : p.Related R R q) {a : σ} {b : σ'}
    (hab : R a b) : Lockstep (Progress.Related R R) (s.compareWith p a) (r.compareWith q b) := by
  apply (h.union hp.current hab).bind
  intro u v huv
  rw [← h.digest_eq huv]
  have hUnion := hp.observe (s.digest u)
  apply (h.intersection hUnion.current hab).bind
  intro u v huv
  rw [← h.digest_eq huv]
  have hIntersection := hUnion.observe (s.digest u)
  apply (h.difference hIntersection.current hab).bind
  intro u v huv
  rw [← h.digest_eq huv]
  have hDifference := hIntersection.observe (s.digest u)
  apply (h.difference hab hDifference.current).bind
  intro u v huv
  rw [← h.digest_eq huv]
  exact .ok (hDifference.observe (s.digest u))

theorem Simulates.step (h : s.Simulates r R) (operation : Operation) (hp : p.Related R R q) :
    Lockstep (Progress.Related R R) (s.step p operation) (r.step q operation) := by
  cases operation with
  | insert key value =>
    apply (h.insert key hp.current).bind
    intro a b hab
    exact .ok (hp.go hab)
  | erase key =>
    apply (h.erase key hp.current).bind
    intro a b hab
    exact .ok (hp.go hab)
  | lookup key =>
    apply (h.contains key hp.current).bind
    rintro found _ rfl
    exact .ok (hp.observe (bit found))
  | range low high =>
    apply (h.contains low hp.current).bind
    rintro first _ rfl
    apply (h.contains high hp.current).bind
    rintro last _ rfl
    exact .ok (hp.observe _)
  | snapshot =>
    have hKeep {p : Progress σ σ} {q : Progress σ' σ'} (hpq : p.Related R R q) :
        (p.keep (p.current, p.current)).Related R R (q.keep (q.current, q.current)) :=
      hpq.keep hpq.current hpq.current
    have hLast := hp.last
    simp only [SetStore.step]
    generalize p.snapshots.back? = previous, q.snapshots.back? = previous' at hLast ⊢
    cases hLast with
    | none => exact .ok (hKeep hp)
    | some hPrevious =>
      apply (h.compareWith hp hPrevious).bind
      intro p' q' hpq
      exact .ok (hKeep hpq)

theorem Simulates.run (h : s.Simulates r R) (operations : List Operation) (hp : p.Related R R q) :
    Lockstep (Progress.Related R R) (operations.foldlM s.step p) (operations.foldlM r.step q) :=
  Lockstep.foldlM_same (fun _ _ operation hpq => h.step operation hpq) operations hp

/-- Both stores end with the same checksum. -/
theorem Simulates.algebra (h : s.Simulates r R) (operations : List Operation) :
    Lockstep Eq (s.algebra operations) (r.algebra operations) := by
  apply (h.run operations (Progress.related_start h.empty)).bind
  intro p q hpq
  have hTaken : List.Forall₂ R (p.snapshots.push p.current).toList
      (q.snapshots.push q.current).toList :=
    (hpq.keep hpq.current hpq.current : (p.keep (p.current, p.current)).Related R R
      (q.keep (q.current, q.current))).snapshots
  have hDigests : (p.snapshots.push p.current).toList.map s.digest =
      (q.snapshots.push q.current).toList.map r.digest := by
    rw [← List.forall₂_eq_eq_eq, List.forall₂_map_left_iff, List.forall₂_map_right_iff]
    exact hTaken.imp fun _ _ => h.digest_eq
  rw [hpq.sum, hDigests]
  exact .ok rfl

/-! ## Hash sets -/

/-- The hash set has the elements of the finite set. -/
def HasElements (a : HashTrieSet UInt64) (e : Finset UInt64) : Prop :=
  HashTrieSet.Holds a.map (e.image HashTrieMap.KeyClass.of)

variable {a : HashTrieSet UInt64} {e : Finset UInt64}

theorem HasElements.toList_perm (h : HasElements a e) : a.toList.Perm e.toList := by
  rw [List.perm_ext_iff_of_nodup h.nodup_toList e.nodup_toList]
  intro x
  rw [h.mem_toList, Finset.mem_toList, HashTrieMap.KeyClass.of_injective.mem_finset_image]

theorem persistent_simulates : persistent.Simulates finite HasElements where
  empty := HashTrieSet.holds_empty
  insert {a e} x h := by
    obtain ⟨a', hInsert, h'⟩ := (h.insert x).value
    refine ⟨a', _, hInsert, rfl, ?_⟩
    rwa [HasElements, Finset.image_union, Finset.image_singleton]
  erase {a e} x h := by
    obtain ⟨a', hErase, h'⟩ := (h.erase x).value
    refine ⟨a', _, hErase, rfl, ?_⟩
    rwa [HasElements, Finset.image_erase HashTrieMap.KeyClass.of_injective]
  contains {a e} x h := by
    refine ⟨_, _, h.contains_eq x, rfl, ?_⟩
    rw [decide_eq_decide, HashTrieMap.KeyClass.of_injective.mem_finset_image]
  union {a e a' e'} h h' := by
    obtain ⟨u, hUnion, hu⟩ := (h.union h').value
    refine ⟨u, _, hUnion, rfl, ?_⟩
    rwa [HasElements, Finset.image_union]
  intersection {a e a' e'} h h' := by
    obtain ⟨u, hIntersection, hu⟩ := (h.intersection h').value
    refine ⟨u, _, hIntersection, rfl, ?_⟩
    rwa [HasElements, Finset.image_inter _ _ HashTrieMap.KeyClass.of_injective]
  difference {a e a' e'} h h' := by
    obtain ⟨u, hDifference, hu⟩ := (h.difference h').value
    refine ⟨u, _, hDifference, rfl, ?_⟩
    rwa [HasElements, Finset.image_sdiff _ _ HashTrieMap.KeyClass.of_injective]
  toList h := h.toList_perm

end PersistentCollections.Bench.SetStore
