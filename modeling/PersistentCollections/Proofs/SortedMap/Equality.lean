import PersistentCollections.Proofs.HashCode
import PersistentCollections.Proofs.SortedSet

/-!
# Equality and hashes of sorted collections

Two sorted maps are equal if the comparator finds each entry of the one in the other, and the hash
is a sum over the stored keys and values. Equal maps match their entries one to one
(`map_perm_of_matching`), so they have the same hash where matched keys have. A comparator may take
keys for equivalent that differ, though, and such keys have different hashes: `unlike_hashes` is an
example.

A hash that was asked for is kept. `Reachable` allows that at any point, and what is kept is always
the hash of the entries.
-/

namespace PersistentCollections

namespace SortedMap

variable {κ ν : Type} [HashCode κ] [HashCode ν] {c : Comparator κ} {m m' a b : SortedMap κ ν}
  {key : κ} {value : ν}

/-- The maps that changes make of an empty map with a given order, if its hash may be asked for at
any time. -/
inductive Reachable (c : Comparator κ) : SortedMap κ ν → Prop
  | empty : Reachable c (.empty c)
  | insert {m : SortedMap κ ν} (key : κ) (value : ν) :
      Reachable c m → Reachable c (m.insert key value)
  | erase {m m' : SortedMap κ ν} (key : κ) :
      Reachable c m → m.erase key = .ok m' → Reachable c m'
  | hashed {m : SortedMap κ ν} : Reachable c m → Reachable c m.hashed

/-- A kept hash is that of the entries. -/
def Fresh (m : SortedMap κ ν) : Prop := ∀ h ∈ m.cache, h = m.contentHash

theorem Fresh.hash_eq (h : m.Fresh) : m.hash = m.contentHash := getD_eq_of_fresh h

omit [HashCode κ] [HashCode ν] in
theorem cache_insert (m : SortedMap κ ν) (key : κ) (value : ν) :
    (m.insert key value).cache = none := by
  cases hAdd : m.root.add? m.comparator.compare (key, value) with
  | some root => rw [insert_of_add hAdd]
  | none => rw [insert_of_present hAdd]

omit [HashCode κ] [HashCode ν] in
theorem erase_eq_or_cache (h : m.erase key = .ok m') : m' = m ∨ m'.cache = none := by
  obtain ⟨o, -, h⟩ := Result.bind_eq_ok.mp h
  cases o with
  | none =>
    cases h
    exact Or.inl rfl
  | some root =>
    simp only at h
    split at h
    · cases h
    · cases h
      exact Or.inr rfl

theorem Fresh.of_cache (h : m.cache = none) : m.Fresh := by
  intro k hk
  rw [h] at hk
  cases hk

/-- A removal that finds nothing gives the same map back; each other change drops the hash. -/
theorem Call.run_fresh (call : Call κ ν) (h : m.Fresh) (hRun : call.run m = .ok m') :
    m'.Fresh := by
  cases call with
  | insert key value =>
    cases hRun
    exact Fresh.of_cache (cache_insert m key value)
  | erase key =>
    rcases erase_eq_or_cache hRun with rfl | hCache
    · exact h
    · exact Fresh.of_cache hCache

theorem Fresh.hashed (h : m.Fresh) : m.hashed.Fresh := by
  intro k hk
  cases hk
  exact h.hash_eq

/-- A map that can be reached is well-formed, and its hash is that of its entries. -/
theorem Reachable.spec (h : Reachable c m) (hc : c.Total) :
    m.comparator = c ∧ m.WellFormed ∧ m.Fresh := by
  induction h with
  | empty => exact ⟨rfl, wellFormed_empty c, Fresh.of_cache rfl⟩
  | insert key value _ ih =>
    obtain ⟨rfl, hw, hf⟩ := ih
    obtain ⟨hComparator, hw'⟩ := hw.insert hc key value
    exact ⟨hComparator, hw', (Call.insert key value).run_fresh hf rfl⟩
  | erase key _ hErase ih =>
    obtain ⟨rfl, hw, hf⟩ := ih
    obtain ⟨m'', hm'', hComparator, hw'⟩ := hw.erase hc key
    cases hErase.symm.trans hm''
    exact ⟨hComparator, hw', (Call.erase key).run_fresh hf hErase⟩
  | hashed _ ih =>
    obtain ⟨rfl, hw, hf⟩ := ih
    exact ⟨rfl, ⟨hw.balanced, hw.ascending, hw.size⟩, hf.hashed⟩

/-- Entries that match: the keys are equivalent, and the values are equal. -/
def Matches [BEq ν] (c : Comparator κ) (e e' : κ × ν) : Prop :=
  c.compare e.1 e'.1 = .eq ∧ (e.2 == e'.2) = true

instance [BEq ν] (c : Comparator κ) (e e' : κ × ν) : Decidable (Matches c e e') :=
  inferInstanceAs (Decidable (_ ∧ _))

omit [HashCode κ] [HashCode ν] in
theorem equals_iff [BEq ν] (ha : a.WellFormed) (hb : b.WellFormed) (hc : b.comparator.Total) :
    a.equals b = true ↔ a.root.entries.length = b.root.entries.length ∧
      ∀ e ∈ a.root.entries, ∃ e' ∈ b.root.entries, Matches b.comparator e e' := by
  unfold equals
  rw [Bool.and_eq_true, beq_iff_eq, ha.size, hb.size, toList_eq_entries, List.all_eq_true]
  refine and_congr_right fun _ => forall_congr' fun e => forall_congr' fun _ => ?_
  have hGet := (hb.lists hc).get? e.1
  constructor
  · intro h
    split at h
    · next other hOther =>
      obtain ⟨stored, hMem, hk⟩ := (hGet other).mp hOther
      exact ⟨(stored, other), hMem, hk, h⟩
    · cases h
  · rintro ⟨⟨stored, other⟩, hMem, hk, hv⟩
    rw [(hGet other).mpr ⟨stored, hMem, hk⟩]
    exact hv

/-- Equal maps have equal hashes if their equivalent keys have. -/
theorem hash_eq_of_equals [BEq ν] [LawfulHashCode ν] (hc : c.Total) (ha : Reachable c a)
    (hb : Reachable c b)
    (hKeys : ∀ e ∈ a.toList, ∀ e' ∈ b.toList, c.compare e.1 e'.1 = .eq →
      hashCode e.1 = hashCode e'.1)
    (h : a.equals b = true) : a.hash = b.hash := by
  obtain ⟨hca, hwa, hfa⟩ := ha.spec hc
  obtain ⟨rfl, hwb, hfb⟩ := hb.spec hc
  obtain ⟨hLength, hEach⟩ := (equals_iff hwa hwb hc).mp h
  have hAscending := hwa.ascending
  rw [hca] at hAscending
  rw [toList_eq_entries, toList_eq_entries] at hKeys
  have hPerm : (a.root.entries.map hashCode).Perm (b.root.entries.map hashCode) := by
    apply map_perm_of_matching hLength hEach (hc.apart hAscending fun _ _ _ _ hMatch => hMatch.1)
    intro e he e' he' hMatch
    show Hash.ordered [hashCode e.1, hashCode e.2] = Hash.ordered [hashCode e'.1, hashCode e'.2]
    rw [hKeys e he e' he' hMatch.1, LawfulHashCode.hashCode_eq hMatch.2]
  rw [hfa.hash_eq, hfb.hash_eq, contentHash, contentHash, toList_eq_entries, toList_eq_entries]
  exact Hash.unordered_perm hPerm

end SortedMap

namespace SortedSet

variable {α : Type} [HashCode α] {c : Comparator α} {s s' : SortedSet α} {x : α}

/-- The sets that changes make of an empty set with a given order, if its hash may be asked for at
any time. -/
inductive Reachable (c : Comparator α) : SortedSet α → Prop
  | empty : Reachable c (.empty c)
  | insert {s : SortedSet α} (x : α) : Reachable c s → Reachable c (s.insert x)
  | erase {s s' : SortedSet α} (x : α) : Reachable c s → s.erase x = .ok s' → Reachable c s'
  | hashed {s : SortedSet α} : Reachable c s → Reachable c s.hashed

def Fresh (s : SortedSet α) : Prop := ∀ h ∈ s.cache, h = s.contentHash

theorem Fresh.hash_eq (h : s.Fresh) : s.hash = s.contentHash := getD_eq_of_fresh h

theorem fresh_ofMap (m : SortedMap α Unit) : (ofMap m).Fresh := by
  intro k hk
  cases hk

theorem Fresh.insert (h : s.Fresh) (x : α) : (s.insert x).Fresh := by
  unfold SortedSet.insert
  split
  · exact h
  · exact fresh_ofMap _

theorem Fresh.erase (h : s.Fresh) (hErase : s.erase x = .ok s') : s'.Fresh := by
  unfold SortedSet.erase at hErase
  split at hErase
  · obtain ⟨m, -, rfl⟩ := Result.map_eq_ok.mp hErase
    exact fresh_ofMap m
  · cases hErase
    exact h

theorem Fresh.hashed (h : s.Fresh) : s.hashed.Fresh := by
  intro k hk
  cases hk
  exact h.hash_eq

/-- A change keeps to fresh hashes, of the set and of its map. -/
theorem Call.run_fresh (call : Call α) (h : s.Fresh) (hMap : s.map.Fresh)
    (hRun : call.run s = .ok s') : s'.Fresh ∧ s'.map.Fresh := by
  cases call with
  | insert x =>
    cases hRun
    refine ⟨h.insert x, ?_⟩
    unfold SortedSet.insert
    split
    · exact hMap
    · exact (SortedMap.Call.insert x ()).run_fresh hMap rfl
  | erase x =>
    have hErase : s.erase x = .ok s' := hRun
    refine ⟨h.erase hErase, ?_⟩
    unfold SortedSet.erase at hErase
    split at hErase
    · obtain ⟨m, hm, rfl⟩ := Result.map_eq_ok.mp hErase
      exact (SortedMap.Call.erase x).run_fresh hMap hm
    · cases hErase
      exact hMap

/-- A set that can be reached is well-formed, and its hash is that of its elements. -/
theorem Reachable.spec (h : Reachable c s) (hc : c.Total) :
    s.comparator = c ∧ s.map.WellFormed ∧ s.Fresh := by
  induction h with
  | empty => exact ⟨rfl, SortedMap.wellFormed_empty c, fresh_ofMap _⟩
  | insert x _ ih =>
    obtain ⟨rfl, hw, hf⟩ := ih
    obtain ⟨hComparator, hw', -⟩ := insert_elements hw hc x
    exact ⟨hComparator, hw', hf.insert x⟩
  | erase x _ hErase ih =>
    obtain ⟨rfl, hw, hf⟩ := ih
    obtain ⟨s'', hs'', hComparator, hw', -⟩ := erase_elements hw hc x
    cases hErase.symm.trans hs''
    exact ⟨hComparator, hw', hf.erase hErase⟩
  | hashed _ ih =>
    obtain ⟨rfl, hw, hf⟩ := ih
    exact ⟨rfl, hw, hf.hashed⟩

omit [HashCode α] in
theorem equals_iff {a b : SortedSet α} (ha : a.map.WellFormed) (hb : b.map.WellFormed)
    (hca : a.comparator.Total) (hcb : b.comparator.Total) :
    a.equals b = true ↔ a.elements.length = b.elements.length ∧
      ∀ x ∈ a.elements, ∃ y ∈ b.elements, b.comparator.compare x y = .eq := by
  have hLists := lists_elements ha hca
  unfold equals
  rw [Bool.and_eq_true, beq_iff_eq, hLists.size, (lists_elements hb hcb).size, hLists.toList,
    List.all_eq_true]
  simp only [contains_iff hb hcb]

/-- Equal sets have equal hashes if their equivalent elements have. -/
theorem hash_eq_of_equals {a b : SortedSet α} (hc : c.Total) (ha : Reachable c a)
    (hb : Reachable c b)
    (hElements : ∀ x ∈ a.toList, ∀ y ∈ b.toList, c.compare x y = .eq → hashCode x = hashCode y)
    (h : a.equals b = true) : a.hash = b.hash := by
  obtain ⟨hca, hwa, hfa⟩ := ha.spec hc
  obtain ⟨rfl, hwb, hfb⟩ := hb.spec hc
  obtain ⟨hLength, hEach⟩ := (equals_iff hwa hwb (hca ▸ hc) hc).mp h
  have hListA := lists_elements hwa (hca ▸ hc)
  have hListB := lists_elements hwb hc
  rw [hListA.toList, hListB.toList] at hElements
  have hAscending := hListA.ascending
  rw [hca] at hAscending
  have hPerm : (a.elements.map hashCode).Perm (b.elements.map hashCode) :=
    map_perm_of_matching hLength hEach (hc.apart hAscending fun _ _ _ _ hxy => hxy) hElements
  rw [hfa.hash_eq, hfb.hash_eq, contentHash, contentHash, hListA.toList, hListB.toList]
  exact Hash.unordered_perm hPerm

end SortedSet

section

variable {κ ν : Type} [HashCode κ] [BEq ν] [HashCode ν] [LawfulHashCode ν] {c : Comparator κ}

/-- Two maps, or two sets, with the same order that are equal have the same hash, provided that
those of their keys have which the order takes for equivalent. -/
theorem hashes_agree_of_equals (hc : c.Total) :
    (∀ a b : SortedMap κ ν, a.Reachable c → b.Reachable c →
      (∀ e ∈ a.toList, ∀ e' ∈ b.toList, c.compare e.1 e'.1 = .eq → hashCode e.1 = hashCode e'.1) →
      a.equals b = true → a.hash = b.hash) ∧
    ∀ a b : SortedSet κ, a.Reachable c → b.Reachable c →
      (∀ x ∈ a.toList, ∀ y ∈ b.toList, c.compare x y = .eq → hashCode x = hashCode y) →
      a.equals b = true → a.hash = b.hash :=
  ⟨fun _ _ ha hb => SortedMap.hash_eq_of_equals hc ha hb,
    fun _ _ ha hb => SortedSet.hash_eq_of_equals hc ha hb⟩

end

/-- 64-bit numbers by magnitude. -/
def longsByMagnitude : Comparator Int64 := .byFunction (compareOn fun n => n.toInt.natAbs)

theorem longsByMagnitude_total : longsByMagnitude.Total :=
  Comparator.total_of_transCmp (inferInstanceAs (Std.TransCmp (compareOn _)))

/-- A map, and another history that leads to an equal one. -/
def minusThreeFirst : SortedMap Int64 Int64 :=
  (((SortedMap.empty longsByMagnitude).insert (-3) 5).insert 1 6).hashed

def minusThreeLast : SortedMap Int64 Int64 :=
  (((SortedMap.empty longsByMagnitude).insert 1 6).insert (-3) 7).insert 3 5

theorem hashes_agree_of_equals_longs : longsByMagnitude.Total ∧
    minusThreeFirst.Reachable longsByMagnitude ∧ minusThreeLast.Reachable longsByMagnitude ∧
    (∀ e ∈ minusThreeFirst.toList, ∀ e' ∈ minusThreeLast.toList,
      longsByMagnitude.compare e.1 e'.1 = .eq → hashCode e.1 = hashCode e'.1) ∧
    minusThreeFirst.equals minusThreeLast = true ∧ minusThreeFirst.hash = minusThreeLast.hash := by
  have hc := longsByMagnitude_total
  have := hc.transCmp
  have hFirst : minusThreeFirst.Reachable longsByMagnitude :=
    .hashed (.insert 1 6 (.insert (-3) 5 .empty))
  have hLast : minusThreeLast.Reachable longsByMagnitude :=
    .insert 3 5 (.insert (-3) 7 (.insert 1 6 .empty))
  have hEntries : minusThreeFirst.root.entries = [(1, 6), (-3, 5)] := by decide +kernel
  have hEntries' : minusThreeLast.root.entries = [(1, 6), (-3, 5)] := by decide +kernel
  have hKeys : ∀ e ∈ minusThreeFirst.toList, ∀ e' ∈ minusThreeLast.toList,
      longsByMagnitude.compare e.1 e'.1 = .eq → hashCode e.1 = hashCode e'.1 := by
    rw [SortedMap.toList_eq_entries, SortedMap.toList_eq_entries, hEntries, hEntries']
    simp only [List.mem_cons, List.not_mem_nil, or_false]
    rintro _ (rfl | rfl) _ (rfl | rfl) hk
    · rfl
    · exact absurd hk (by decide +kernel)
    · exact absurd hk (by decide +kernel)
    · rfl
  have hEquals : minusThreeFirst.equals minusThreeLast = true := by
    obtain ⟨-, hw, -⟩ := hFirst.spec hc
    obtain ⟨hComparator, hw', -⟩ := hLast.spec hc
    rw [SortedMap.equals_iff hw hw' (hComparator ▸ hc), hEntries, hEntries', hComparator]
    exact ⟨rfl, fun e he => ⟨e, he, Std.ReflCmp.compare_self, BEq.rfl⟩⟩
  exact ⟨hc, hFirst, hLast, hKeys, hEquals,
    (hashes_agree_of_equals hc).1 _ _ hFirst hLast hKeys hEquals⟩

/-- Opposite numbers make maps that are equal by magnitude, and sets that are, with different
hashes. -/
theorem unlike_hashes : longsByMagnitude.Total ∧
    (∃ a b : SortedMap Int64 Int64, a.Reachable longsByMagnitude ∧ b.Reachable longsByMagnitude ∧
      a.equals b = true ∧ a.hash ≠ b.hash) ∧
    ∃ a b : SortedSet Int64, a.Reachable longsByMagnitude ∧ b.Reachable longsByMagnitude ∧
      a.equals b = true ∧ a.hash ≠ b.hash := by
  have hc := longsByMagnitude_total
  have hMap : ∀ k : Int64,
      ((SortedMap.empty longsByMagnitude).insert k (5 : Int64)).Reachable longsByMagnitude :=
    fun k => .insert k 5 .empty
  have hSet : ∀ k : Int64,
      ((SortedSet.empty longsByMagnitude).insert k).Reachable longsByMagnitude :=
    fun k => .insert k .empty
  refine ⟨hc, ⟨_, _, hMap 1, hMap (-1), ?_, ?_⟩, ⟨_, _, hSet 1, hSet (-1), ?_, ?_⟩⟩
  · obtain ⟨-, hw, -⟩ := (hMap 1).spec hc
    obtain ⟨-, hw', -⟩ := (hMap (-1)).spec hc
    rw [SortedMap.equals_iff hw hw' hc]
    refine ⟨rfl, fun e he => ⟨(-1, 5), List.mem_singleton_self _, ?_⟩⟩
    rw [List.mem_singleton.mp he]
    decide +kernel
  · obtain ⟨-, -, hf⟩ := (hMap 1).spec hc
    obtain ⟨-, -, hf'⟩ := (hMap (-1)).spec hc
    rw [hf.hash_eq, hf'.hash_eq, SortedMap.contentHash, SortedMap.contentHash,
      SortedMap.toList_eq_entries, SortedMap.toList_eq_entries]
    decide +kernel
  · obtain ⟨-, hw, -⟩ := (hSet 1).spec hc
    obtain ⟨-, hw', -⟩ := (hSet (-1)).spec hc
    rw [SortedSet.equals_iff hw hw' hc hc]
    refine ⟨rfl, fun x hx => ⟨-1, List.mem_singleton_self _, ?_⟩⟩
    rw [List.mem_singleton.mp hx]
    decide +kernel
  · obtain ⟨-, hw, hf⟩ := (hSet 1).spec hc
    obtain ⟨-, hw', hf'⟩ := (hSet (-1)).spec hc
    rw [hf.hash_eq, hf'.hash_eq, SortedSet.contentHash, SortedSet.contentHash,
      (SortedSet.lists_elements hw hc).toList, (SortedSet.lists_elements hw' hc).toList]
    decide +kernel

end PersistentCollections
