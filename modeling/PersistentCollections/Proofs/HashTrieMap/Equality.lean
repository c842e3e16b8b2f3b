import PersistentCollections.Proofs.HashCode
import PersistentCollections.Proofs.HashTrieMap.History
import PersistentCollections.Proofs.HashTrieMap.Iterator
import PersistentCollections.Proofs.Lists

/-!
# Equality and hashes of hash maps

Equality counts the entries and looks those of the one map up in the other. As a map has one entry
for each of its keys, this finds the entries of the other map as well, so two maps are equal if they
have equal values at the same keys (`equals_verdict`), whatever their forms. The hash is a sum
over the entries, and equal maps match their entries one to one (`SameValues.contentHash_eq`).

For this reason maps with different hashes are not equal. Equality may therefore look at hashes that
are kept without a difference to its verdict, provided that these are the hashes of the entries
(`equals_eq_includes`).
-/

namespace PersistentCollections.HashTrieMap

open Entries

variable {κ ν : Type} [BEq κ] [HashCode κ] {a b d m : HashTrieMap κ ν} {key : κ} {value : ν}

/-! ## Values -/

section Values

variable [BEq ν]

/-- Two maps have values at the same keys, and these are equal. -/
def SameValues (a b : HashTrieMap κ ν) : Prop :=
  ∀ key, Option.Rel (fun v w => (v == w) = true) (a.valueAt key) (b.valueAt key)

/-- Entries that match: the keys are the same, and the values are equal. -/
def Matches (e e' : κ × ν) : Prop := (e.1 == e'.1) = true ∧ (e.2 == e'.2) = true

variable [EquivBEq ν]

omit [HashCode κ] in
theorem SameValues.refl (a : HashTrieMap κ ν) : a.SameValues a := by
  intro key
  cases a.valueAt key with
  | none => exact Option.Rel.none
  | some v => exact Option.Rel.some BEq.rfl

omit [HashCode κ] in
theorem SameValues.symm (h : a.SameValues b) : b.SameValues a := by
  intro key
  have hKey := h key
  generalize a.valueAt key = o, b.valueAt key = o' at hKey
  cases hKey with
  | none => exact Option.Rel.none
  | some hValue => exact Option.Rel.some (BEq.symm hValue)

omit [HashCode κ] in
theorem SameValues.trans (h : a.SameValues b) (h' : b.SameValues d) : a.SameValues d := by
  intro key
  have hKey := h key
  have hKey' := h' key
  generalize a.valueAt key = o, b.valueAt key = o', d.valueAt key = o'' at hKey hKey'
  cases hKey with
  | none =>
    cases hKey'
    exact Option.Rel.none
  | some hValue =>
    cases hKey' with
    | some hValue' => exact Option.Rel.some (BEq.trans hValue hValue')

end Values

/-! ## Entries -/

section Lawful

variable [LawfulHashCode κ]

theorem valueAt_eq_some_iff (h : m.WellFormed) :
    m.valueAt key = some value ↔ ∃ e ∈ m.entries, (e.1 == key) = true ∧ e.2 = value := by
  rw [valueAt, Option.map_eq_some_iff]
  constructor
  · rintro ⟨e, he, hValue⟩
    obtain ⟨hMem, hKey⟩ := (find?_eq_some_iff h.distinct).mp he
    exact ⟨e, hMem, hKey, hValue⟩
  · rintro ⟨e, hMem, hKey, hValue⟩
    exact ⟨e, (find?_eq_some_iff h.distinct).mpr ⟨hMem, hKey⟩, hValue⟩

theorem valueAt_of_mem (h : m.WellFormed) {e : κ × ν} (he : e ∈ m.entries) :
    m.valueAt e.1 = some e.2 :=
  (valueAt_eq_some_iff h).mpr ⟨e, he, BEq.rfl, rfl⟩

/-- Where `==` is equality, the entries are what lookups find. -/
theorem Models.mem_toList [LawfulBEq κ] {f : FiniteMap κ ν} (h : Models m f) :
    (key, value) ∈ m.toList ↔ f.lookup (.of key) = some value := by
  rw [toList_eq_entries, ← h.valueAt, valueAt_eq_some_iff h.wellFormed]
  constructor
  · intro hMem
    exact ⟨(key, value), hMem, BEq.rfl, rfl⟩
  · rintro ⟨⟨key', value'⟩, hMem, hKey, rfl⟩
    rwa [← eq_of_beq hKey]

variable [BEq ν]

/-- No two entries of a map match the same entry. -/
theorem WellFormed.apart (h : a.WellFormed) (es : List (κ × ν)) :
    a.entries.Pairwise fun e e' => ∀ x ∈ es, Matches e x → ¬ Matches e' x := by
  apply h.distinct.imp
  intro e e' hKeys x _ hMatch hMatch'
  rw [BEq.trans hMatch.1 (BEq.symm hMatch'.1)] at hKeys
  cases hKeys

theorem SameValues.each (h : a.SameValues b) (ha : a.WellFormed) (hb : b.WellFormed) :
    ∀ e ∈ a.entries, ∃ e' ∈ b.entries, Matches e e' := by
  intro e he
  have hKey := h e.1
  rw [valueAt_of_mem ha he] at hKey
  generalize hOther : b.valueAt e.1 = o at hKey
  cases hKey with
  | @some _ w hValue =>
    obtain ⟨e', he', hSame, rfl⟩ := (valueAt_eq_some_iff hb).mp hOther
    exact ⟨e', he', BEq.symm hSame, hValue⟩

variable [EquivBEq ν]

/-- What equality checks, from one side, is what there is to be said about the values. -/
theorem covers_iff_sameValues (ha : a.WellFormed) (hb : b.WellFormed) :
    Covers Matches a.entries b.entries ↔ a.SameValues b := by
  constructor
  · intro h key
    -- a key that is only in `b` would be missing in `a`, which no lookup of `a`'s keys shows
    have h' : Covers Matches b.entries a.entries :=
      h.symm (ha.apart _) fun _ _ _ _ hMatch => ⟨BEq.symm hMatch.1, BEq.symm hMatch.2⟩
    cases hA : a.valueAt key with
    | some v =>
      obtain ⟨e, he, hKey, rfl⟩ := (valueAt_eq_some_iff ha).mp hA
      obtain ⟨e', he', hMatch⟩ := h.2 e he
      have hB : b.valueAt key = some e'.2 :=
        (valueAt_eq_some_iff hb).mpr ⟨e', he', BEq.trans (BEq.symm hMatch.1) hKey, rfl⟩
      rw [hB]
      exact Option.Rel.some hMatch.2
    | none =>
      cases hB : b.valueAt key with
      | none => exact Option.Rel.none
      | some w =>
        obtain ⟨e', he', hKey, rfl⟩ := (valueAt_eq_some_iff hb).mp hB
        obtain ⟨e, he, hMatch⟩ := h'.2 e' he'
        have hSome : a.valueAt key = some e.2 :=
          (valueAt_eq_some_iff ha).mpr ⟨e, he, BEq.trans (BEq.symm hMatch.1) hKey, rfl⟩
        rw [hSome] at hA
        cases hA
  · intro h
    refine ⟨?_, h.each ha hb⟩
    apply Nat.le_antisymm
    · exact length_le_of_matching (h.each ha hb) (ha.apart _)
    · exact length_le_of_matching (h.symm.each hb ha) (hb.apart _)

omit [EquivBEq ν] in
/-- A lookup of each entry, up to the first that is not found. -/
theorem includes_eq (h : m.WellFormed) (es : List (κ × ν)) :
    m.includes es = .ok (es.all fun e => (m.valueAt e.1).any (e.2 == ·)) := by
  induction es with
  | nil => rfl
  | cons e es ih =>
    rw [includes, get?_eq h, Result.bind_ok, List.all_cons]
    cases m.valueAt e.1 with
    | none => rfl
    | some other =>
      simp only [Option.any_some]
      cases e.2 == other with
      | true => exact ih
      | false => rfl

omit [EquivBEq ν] in
theorem all_found_iff (h : m.WellFormed) (es : List (κ × ν)) :
    (es.all fun e => (m.valueAt e.1).any (e.2 == ·)) = true ↔
      ∀ e ∈ es, ∃ e' ∈ m.entries, Matches e e' := by
  rw [List.all_eq_true]
  refine forall_congr' fun e => forall_congr' fun _ => ?_
  rw [Option.any_eq_true]
  constructor
  · rintro ⟨w, hw, hValue⟩
    obtain ⟨e', he', hKey, rfl⟩ := (valueAt_eq_some_iff h).mp hw
    exact ⟨e', he', BEq.symm hKey, hValue⟩
  · rintro ⟨e', he', hKey, hValue⟩
    exact ⟨e'.2, (valueAt_eq_some_iff h).mpr ⟨e', he', BEq.symm hKey, rfl⟩, hValue⟩

/-- The comparison without regard to hashes. -/
theorem includes_eq_true_iff (ha : a.WellFormed) (hb : b.WellFormed) :
    (if a.size ≠ b.size then .ok false else b.includes a.toList) = .ok true ↔
      a.SameValues b := by
  rw [← covers_iff_sameValues ha hb, ha.size, hb.size, toList_eq_entries, includes_eq hb,
    Covers, ← all_found_iff hb]
  split
  · next hSize => simp [hSize]
  · next hSize => simp [not_not.mp hSize]

/-! ## Hashes -/

variable [HashCode ν]

/-- A kept hash is that of the entries. -/
def Fresh (m : HashTrieMap κ ν) : Prop := ∀ h ∈ m.cache, h = m.contentHash

omit [BEq κ] [LawfulHashCode κ] [BEq ν] [EquivBEq ν] in
theorem Fresh.hash_eq (h : m.Fresh) : m.hash = m.contentHash := getD_eq_of_fresh h

/-- Maps with the same values have the same hash. -/
theorem SameValues.contentHash_eq (h : a.SameValues b) (ha : a.WellFormed) (hb : b.WellFormed)
    (hValues : ∀ v w : ν, (v == w) = true → hashCode v = hashCode w) :
    a.contentHash = b.contentHash := by
  obtain ⟨hLength, hEach⟩ := (covers_iff_sameValues ha hb).mpr h
  have hPerm : (a.entries.map hashCode).Perm (b.entries.map hashCode) := by
    apply map_perm_of_matching hLength hEach (ha.apart _)
    intro e _ e' _ hMatch
    show Hash.ordered [hashCode e.1, hashCode e.2] = Hash.ordered [hashCode e'.1, hashCode e'.2]
    rw [LawfulHashCode.hashCode_eq hMatch.1, hValues _ _ hMatch.2]
  rw [contentHash, contentHash, toList_eq_entries, toList_eq_entries]
  exact Hash.unordered_perm hPerm

/-- Hashes that are kept make no difference to equality. -/
theorem equals_eq_includes (ha : a.WellFormed) (hb : b.WellFormed) (hfa : a.Fresh) (hfb : b.Fresh)
    (hValues : ∀ v w : ν, (v == w) = true → hashCode v = hashCode w) :
    a.equals b = if a.size ≠ b.size then .ok false else b.includes a.toList := by
  unfold equals
  split
  · rfl
  · next hSize =>
    split
    · next h k hCache hCache' =>
      split
      · next hDiffer =>
        -- equal maps have one hash, so the search that is left out would not have found all
        have hNot : ¬ b.includes a.toList = .ok true := by
          intro hIncludes
          have hSame := (includes_eq_true_iff ha hb).mp ((if_neg hSize).trans hIncludes)
          apply hDiffer
          rw [hfa h hCache, hfb k hCache', hSame.contentHash_eq ha hb hValues]
        rw [includes_eq hb] at hNot ⊢
        rw [Bool.eq_false_iff.mpr fun hAll => hNot (congrArg Except.ok hAll)]
      · rfl
    · rfl

/-- Equality is the same whether the hashes have been asked for or not. -/
theorem equals_of_caches (ha : a.WellFormed) (hb : b.WellFormed) (hfa : a.Fresh) (hfb : b.Fresh)
    (hValues : ∀ v w : ν, (v == w) = true → hashCode v = hashCode w) {c c' : Option UInt32}
    (hc : ∀ h ∈ c, h = a.contentHash) (hc' : ∀ h ∈ c', h = b.contentHash) :
    equals { a with cache := c } { b with cache := c' } = a.equals b := by
  have hCached : ∀ {m : HashTrieMap κ ν} {c}, m.WellFormed → (∀ h ∈ c, h = m.contentHash) →
      ({ m with cache := c } : HashTrieMap κ ν).WellFormed ∧
        ({ m with cache := c } : HashTrieMap κ ν).Fresh :=
    fun hm hc => ⟨⟨hm.shape, hm.size⟩, hc⟩
  obtain ⟨ha', hfa'⟩ := hCached ha hc
  obtain ⟨hb', hfb'⟩ := hCached hb hc'
  rw [equals_eq_includes ha' hb' hfa' hfb' hValues, equals_eq_includes ha hb hfa hfb hValues,
    includes_eq hb, includes_eq hb']
  rfl

theorem equals_verdict (ha : a.WellFormed) (hb : b.WellFormed) (hfa : a.Fresh) (hfb : b.Fresh)
    (hValues : ∀ v w : ν, (v == w) = true → hashCode v = hashCode w) :
    ∃ verdict, a.equals b = .ok verdict ∧ (verdict = true ↔ a.SameValues b) := by
  rw [equals_eq_includes ha hb hfa hfb hValues, ← includes_eq_true_iff ha hb, includes_eq hb]
  split
  · exact ⟨false, rfl, by simp⟩
  · exact ⟨_, rfl, by simp⟩

end Lawful

end PersistentCollections.HashTrieMap
