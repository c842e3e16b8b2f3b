import Std.Data.TreeMap.Lemmas
import PersistentCollections.Bench.Maps
import PersistentCollections.Proofs.Bench.SnapshotWorkload
import PersistentCollections.Proofs.HashTrieMap.Equality
import PersistentCollections.Proofs.HashTrieMap.History

/-!
# Churning maps on any store

The reference for the churn of a map is the store of finite maps (`finite`). In which order a store
lists the entries is left open: `MapStore.Simulates` asks for the same list up to order, and the
digests do not see more. `MapStore.Finite` says of a store that it simulates the finite maps in some
way. The persistent hash maps and the transients do, and so do the plain search trees.

Stores that do have the same checksum (`Simulates.churn`), and what a snapshot is read back as in
the end is the map of which it was taken (`Finite.keepsSnapshots`).
-/

namespace PersistentCollections.Bench

/-! ## Finite maps -/

/-- A finite map from words to words. -/
abbrev Contents : Type := Finmap fun _ : UInt64 => UInt64

namespace Contents

variable {f : Contents} {es es' : List (UInt64 × UInt64)}

/-- The list has the entries of a finite map, each key once. -/
structure Lists (f : Contents) (es : List (UInt64 × UInt64)) : Prop where
  nodup : (es.map Prod.fst).Nodup
  mem : ∀ key value, (key, value) ∈ es ↔ f.lookup key = some value

theorem Lists.perm (h : Lists f es) (h' : Lists f es') : es.Perm es' := by
  rw [List.perm_ext_iff_of_nodup h.nodup.of_map h'.nodup.of_map]
  rintro ⟨key, value⟩
  rw [h.mem, h'.mem]

/-- The entries, in some order. -/
noncomputable def toList (f : Contents) : List (UInt64 × UInt64) :=
  f.entries.toList.map fun e => (e.1, e.2)

theorem lists_toList (f : Contents) : Lists f (toList f) where
  nodup := by
    have hKeys : (f.entries.map Sigma.fst).Nodup := Multiset.nodup_keys.mpr f.nodupKeys
    rw [← Multiset.coe_toList f.entries, Multiset.map_coe, Multiset.coe_nodup] at hKeys
    rw [toList, List.map_map]
    exact hKeys
  mem key value := by
    rw [Finmap.lookup_eq_some_iff, toList, List.mem_map]
    constructor
    · rintro ⟨⟨key', value'⟩, hMem, hSame⟩
      cases hSame
      exact Multiset.mem_toList.mp hMem
    · intro hMem
      exact ⟨⟨key, value⟩, Multiset.mem_toList.mpr hMem, rfl⟩

end Contents

namespace MapStore

variable {σ τ σ' τ' : Type} {s : MapStore σ τ} {r : MapStore σ' τ'} {R : σ → σ' → Prop}
  {S : τ → τ' → Prop} {p : Progress σ τ} {q : Progress σ' τ'}

/-- The store of finite maps. -/
noncomputable def finite : MapStore Contents Contents where
  empty := ∅
  insert f key value := .ok (f.insert key value)
  erase f key := .ok (f.erase key)
  get? f key := .ok (f.lookup key)
  snapshot f := .ok (f, f)
  toList f := .ok (Contents.toList f)

/-- The first store does on maps what the second does on those that are related to them, but for the
order in which they list their entries. -/
structure Simulates (s : MapStore σ τ) (r : MapStore σ' τ') (R : σ → σ' → Prop)
    (S : τ → τ' → Prop) : Prop where
  empty : R s.empty r.empty
  insert : ∀ {m n} key value, R m n → Lockstep R (s.insert m key value) (r.insert n key value)
  erase : ∀ {m n} key, R m n → Lockstep R (s.erase m key) (r.erase n key)
  get? : ∀ {m n} key, R m n → Lockstep Eq (s.get? m key) (r.get? n key)
  snapshot : ∀ {m n}, R m n →
    Lockstep (fun a b => S a.1 b.1 ∧ R a.2 b.2) (s.snapshot m) (r.snapshot n)
  toList : ∀ {t u}, S t u → Lockstep List.Perm (s.toList t) (r.toList u)

/-- A store that does what the finite maps do. -/
def Finite (s : MapStore σ τ) : Prop := ∃ R S, s.Simulates finite R S

/-! ## Runs -/

theorem Simulates.step (h : s.Simulates r R S) (operation : Operation) (hp : p.Related R S q) :
    Lockstep (Progress.Related R S) (s.step p operation) (r.step q operation) := by
  cases operation with
  | insert key value =>
    apply (h.insert key value hp.current).bind
    intro m n hmn
    exact .ok (hp.go hmn)
  | erase key =>
    apply (h.erase key hp.current).bind
    intro m n hmn
    exact .ok (hp.go hmn)
  | lookup key =>
    apply (h.get? key hp.current).bind
    rintro x _ rfl
    exact .ok (hp.observeOption x)
  | range low high =>
    apply (h.get? low hp.current).bind
    rintro old _ rfl
    apply (h.insert low _ hp.current).bind
    intro m n hmn
    exact .ok (hp.go hmn)
  | snapshot =>
    apply (h.snapshot hp.current).bind
    intro taken taken' hTaken
    exact .ok (hp.keep hTaken.1 hTaken.2)

theorem Simulates.readBack (h : s.Simulates r R S) {t : τ} {u : τ'} (sum : Checksum)
    (htu : S t u) : Lockstep Eq (s.readBack sum t) (r.readBack sum u) := by
  apply (h.toList htu).bind
  intro es es' hPerm
  rw [entriesDigest_perm hPerm]
  exact .ok rfl

theorem step_other {p q : Progress σ τ} {operation : Operation} (hOther : operation ≠ .snapshot)
    (hStep : s.step p operation = .ok q) : q.snapshots = p.snapshots := by
  cases operation with
  | insert key value =>
    obtain ⟨m, -, hStep⟩ := Result.bind_eq_ok.mp hStep
    cases hStep
    rfl
  | erase key =>
    obtain ⟨m, -, hStep⟩ := Result.bind_eq_ok.mp hStep
    cases hStep
    rfl
  | lookup key =>
    obtain ⟨x, -, hStep⟩ := Result.bind_eq_ok.mp hStep
    cases hStep
    exact p.observeOption_snapshots x
  | range low high =>
    obtain ⟨old, -, hStep⟩ := Result.bind_eq_ok.mp hStep
    obtain ⟨m, -, hStep⟩ := Result.bind_eq_ok.mp hStep
    cases hStep
    rfl
  | snapshot => exact absurd rfl hOther

/-- The churn of a map. -/
def workload (s : MapStore σ τ) : SnapshotWorkload σ τ where
  empty := s.empty
  step := s.step
  snapshot := s.snapshot
  readBack := s.readBack
  step_snapshot _ := rfl
  step_other := step_other

theorem churn_eq_checksum (s : MapStore σ τ) (operations : List Operation) :
    s.churn operations = s.workload.checksum operations := rfl

theorem Simulates.workload (h : s.Simulates r R S) : s.workload.Simulates r.workload R S :=
  ⟨h.empty, h.step, h.snapshot, h.readBack⟩

/-- Both stores end with the same checksum. -/
theorem Simulates.churn (h : s.Simulates r R S) (operations : List Operation) :
    Lockstep Eq (s.churn operations) (r.churn operations) := by
  rw [churn_eq_checksum, churn_eq_checksum]
  exact h.workload.checksum operations

/-! ## Snapshots -/

/-- A snapshot is read back as the map of which it was taken: each key once, and the entries that a
lookup finds. -/
def ReadsBack (s : MapStore σ τ) (current : σ) (taken : τ) : Prop :=
  ∃ es, s.toList taken = .ok es ∧ (es.map Prod.fst).Nodup ∧
    ∀ key value, (key, value) ∈ es ↔ s.get? current key = .ok (some value)

/-- Every snapshot that was asked for is read back in the end as the map that was there then, into
what `churn` gives. -/
def KeepsSnapshots (s : MapStore σ τ) (operations : List Operation) : Prop :=
  s.workload.KeepsSnapshots s.ReadsBack operations (s.churn operations)

theorem Simulates.readsBack {R : σ → Contents → Prop} {S : τ → Contents → Prop}
    (h : s.Simulates finite R S) {m : σ} {t : τ} {f : Contents} (hm : R m f) (ht : S t f) :
    s.ReadsBack m t := by
  obtain ⟨es, hes, hPerm⟩ := (h.toList ht).ok_right
  refine ⟨es, hes, ?_, ?_⟩
  · exact (hPerm.map Prod.fst).nodup_iff.mpr (Contents.lists_toList f).nodup
  · intro key value
    obtain ⟨x, hx, rfl⟩ := (h.get? key hm).ok_right
    rw [hPerm.mem_iff, (Contents.lists_toList f).mem, hx, Except.ok.injEq]

theorem Finite.keepsSnapshots (h : s.Finite) (operations : List Operation) :
    s.KeepsSnapshots operations := by
  obtain ⟨R, S, h⟩ := h
  rw [KeepsSnapshots, churn_eq_checksum]
  refine h.workload.keepsSnapshots ?_ operations
  intro m f taken hmf hTaken
  obtain ⟨taken', hTaken', htf, -⟩ := (h.snapshot hmf).ok_right
  cases hTaken.symm.trans hTaken'
  exact h.readsBack hmf htf

/-! ## Hash maps -/

/-- The hash map has the entries of the finite map. -/
def HasContents {κ ν : Type} [DecidableEq κ] [BEq κ] [HashCode κ] [LawfulHashCode κ]
    (m : HashTrieMap κ ν) (f : Finmap fun _ : κ => ν) : Prop :=
  ∃ g, HashTrieMap.Models m g ∧ ∀ key, g.lookup (.of key) = f.lookup key

section

variable {m : HashTrieMap UInt64 UInt64} {g : HashTrieMap.FiniteMap UInt64 UInt64} {f : Contents}

theorem lookup_insert_of (h : ∀ key, g.lookup (.of key) = f.lookup key) (key value : UInt64) :
    ∀ k, (g.insert (.of key) value).lookup (.of k) = (f.insert key value).lookup k := by
  intro k
  by_cases hk : k = key
  · rw [hk, Finmap.lookup_insert, Finmap.lookup_insert]
  · have hClass : HashTrieMap.KeyClass.of k ≠ .of key :=
      fun he => hk (HashTrieMap.KeyClass.of_injective he)
    rw [Finmap.lookup_insert_of_ne g hClass, Finmap.lookup_insert_of_ne f hk, h k]

theorem lookup_erase_of (h : ∀ key, g.lookup (.of key) = f.lookup key) (key : UInt64) :
    ∀ k, (g.erase (.of key)).lookup (.of k) = (f.erase key).lookup k := by
  intro k
  by_cases hk : k = key
  · rw [hk, Finmap.lookup_erase, Finmap.lookup_erase]
  · have hClass : HashTrieMap.KeyClass.of k ≠ .of key :=
      fun he => hk (HashTrieMap.KeyClass.of_injective he)
    rw [Finmap.lookup_erase_ne hClass, Finmap.lookup_erase_ne hk, h k]

theorem hasContents_empty : HasContents (.empty : HashTrieMap UInt64 UInt64) ∅ := by
  refine ⟨∅, HashTrieMap.models_empty, fun key => ?_⟩
  rw [Finmap.lookup_empty, Finmap.lookup_empty]

theorem HasContents.get?_eq (h : HasContents m f) (key : UInt64) :
    m.get? key = .ok (f.lookup key) := by
  obtain ⟨g, hm, hg⟩ := h
  rw [hm.agrees.get? key, hg key]

theorem HasContents.lists (h : HasContents m f) : Contents.Lists f m.toList := by
  obtain ⟨g, hm, hg⟩ := h
  constructor
  · rw [HashTrieMap.toList_eq_entries]
    have hKeys := hm.wellFormed.nodup_keys
    have hMap : m.entries.map (fun e => HashTrieMap.KeyClass.of e.1) =
        (m.entries.map Prod.fst).map HashTrieMap.KeyClass.of := List.map_map.symm
    rw [hMap] at hKeys
    exact hKeys.of_map
  · intro key value
    rw [← hg key]
    exact hm.mem_toList

end

theorem persistent_simulates : persistent.Simulates finite HasContents HasContents where
  empty := hasContents_empty
  insert := by
    rintro m f key value ⟨g, hm, hg⟩
    obtain ⟨m', hInsert, hm'⟩ := (hm.insert_succeeds key value).value
    exact ⟨m', _, hInsert, rfl, _, hm', lookup_insert_of hg key value⟩
  erase := by
    rintro m f key ⟨g, hm, hg⟩
    obtain ⟨m', hErase, hm'⟩ := (hm.erase_succeeds key).value
    exact ⟨m', _, hErase, rfl, _, hm', lookup_erase_of hg key⟩
  get? key h := ⟨_, _, h.get?_eq key, rfl, rfl⟩
  snapshot h := .ok ⟨h, h⟩
  toList h := .ok (h.lists.perm (Contents.lists_toList _))

theorem transient_simulates :
    transient.Simulates finite (fun t f => HasContents t.map f) HasContents where
  empty := hasContents_empty
  insert := by
    rintro t f key value ⟨g, ht, hg⟩
    obtain ⟨t', hInsert, ht'⟩ := (HashTrieMap.Models.insert_transient ht key value).value
    exact ⟨t', _, hInsert, rfl, _, ht', lookup_insert_of hg key value⟩
  erase := by
    rintro t f key ⟨g, ht, hg⟩
    obtain ⟨t', hErase, ht'⟩ := (HashTrieMap.Models.erase_transient ht key).value
    exact ⟨t', _, hErase, rfl, _, ht', lookup_erase_of hg key⟩
  get? key h := ⟨_, _, h.get?_eq key, rfl, rfl⟩
  snapshot := by
    rintro t f ⟨g, ht, hg⟩
    obtain ⟨m, hFreeze, hm⟩ := (HashTrieMap.Models.freeze ht).value
    refine ⟨(m, m.transient), (f, f), ?_, rfl, ⟨g, hm, hg⟩, g, hm.stamped _, hg⟩
    show (t.freeze.value >>= _) = _
    rw [hFreeze]
    rfl
  toList h := .ok (h.lists.perm (Contents.lists_toList _))

/-! ## Search trees -/

theorem plain_simulates : SortedMapStore.plain.toMapStore.Simulates finite
    (fun t f => ∀ key, t[key]? = f.lookup key) fun t f => ∀ key, t[key]? = f.lookup key where
  empty key := by
    show (∅ : Std.TreeMap UInt64 UInt64)[key]? = (∅ : Contents).lookup key
    rw [Std.TreeMap.getElem?_emptyc, Finmap.lookup_empty]
  insert := by
    intro t f key value h
    refine .ok fun k => ?_
    rw [Std.TreeMap.getElem?_insert]
    split
    · next hKey => rw [← Std.LawfulEqOrd.eq_of_compare hKey, Finmap.lookup_insert]
    · next hKey =>
      have hne : k ≠ key := by
        rintro rfl
        exact hKey Std.ReflCmp.compare_self
      rw [Finmap.lookup_insert_of_ne f hne, h k]
  erase := by
    intro t f key h
    refine .ok fun k => ?_
    rw [Std.TreeMap.getElem?_erase]
    split
    · next hKey => rw [← Std.LawfulEqOrd.eq_of_compare hKey, Finmap.lookup_erase]
    · next hKey =>
      have hne : k ≠ key := by
        rintro rfl
        exact hKey Std.ReflCmp.compare_self
      rw [Finmap.lookup_erase_ne hne, h k]
  get? key h := .ok (h key)
  snapshot h := .ok ⟨h, h⟩
  toList := by
    intro t f h
    refine .ok (Contents.Lists.perm (f := f) ⟨?_, ?_⟩ (Contents.lists_toList f))
    · rw [Std.TreeMap.map_fst_toList_eq_keys]
      exact Std.TreeMap.nodup_keys
    · intro key value
      rw [Std.TreeMap.mem_toList_iff_getElem?_eq_some, h key]

end MapStore

end PersistentCollections.Bench
