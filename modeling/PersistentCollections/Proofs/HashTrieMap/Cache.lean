import PersistentCollections.Proofs.HashTrieMap.Equality
import PersistentCollections.Proofs.HashTrieMap.Merge

/-!
# Kept hashes of hash maps

Giving a key a value drops the kept hash. A removal drops it if it finds the key, and else hands it
on; the nodes on the way to the key may be written anew then, but the entries stay. So a kept hash
is always that of the entries (`Call.run_fresh`).
-/

namespace PersistentCollections.HashTrieMap

variable {κ ν : Type} [BEq κ] [HashCode κ] {m m' other : HashTrieMap κ ν} {t : Transient κ ν}

theorem grow_cache (m : HashTrieMap κ ν) (es : List (κ × ν)) (e : κ × ν) :
    Ensures (m.grow es e) fun m' => m'.cache = none := by
  unfold grow
  split
  · exact ensures_pure rfl
  · refine (ensures_true _).bind fun p _ => (ensures_true _).bind fun _ _ => ?_
    exact (ensures_true _).bind fun _ _ => ensures_pure rfl

theorem exchange_cache (m : HashTrieMap κ ν) (key : κ) (value : ν) :
    Ensures (m.exchange key value) fun r => r.2.cache = none := by
  unfold exchange
  split
  · split
    · exact ensures_pure rfl
    · exact (grow_cache m _ _).bind fun _ h => ensures_pure h
  · split
    · exact ensures_pure rfl
    · exact (ensures_true _).bind fun _ _ => (ensures_true _).bind fun _ _ => ensures_pure rfl

section Fresh

variable [HashCode ν]

omit [BEq κ] in
theorem Fresh.of_cache (h : m.cache = none) : m.Fresh := by
  intro k hk
  rw [h] at hk
  cases hk

omit [BEq κ] in
theorem Fresh.of_entries (h : m.Fresh) (hCache : m'.cache = m.cache)
    (hEntries : m'.entries = m.entries) : m'.Fresh := by
  intro k hk
  rw [hCache] at hk
  rw [h k hk, contentHash, contentHash, toList_eq_entries, toList_eq_entries, hEntries]

omit [BEq κ] in
theorem Fresh.stamped (h : m.Fresh) (stamp : Nat) : (m.stamped stamp).Fresh :=
  h.of_entries rfl rfl

theorem Models.hashed [LawfulHashCode κ] {f : FiniteMap κ ν} (h : Models m f) :
    Models m.hashed f :=
  ⟨⟨h.wellFormed.shape, h.wellFormed.size⟩, h.valueAt⟩

omit [BEq κ] in
theorem Fresh.hashed (h : m.Fresh) : m.hashed.Fresh := by
  intro k hk
  cases hk
  exact h.hash_eq

theorem exchange_fresh (m : HashTrieMap κ ν) (key : κ) (value : ν) :
    Ensures (m.exchange key value) fun r => r.2.Fresh :=
  (exchange_cache m key value).mono fun _ => Fresh.of_cache

/-- A removal that finds nothing hands the hash on, and the entries. -/
theorem Fresh.take [LawfulHashCode κ] (h : m.Fresh) (hw : m.WellFormed) (sole : Sharing) (key : κ) :
    Ensures (m.take sole key) fun r => r.2.Fresh := by
  obtain ⟨size, shape, cache, stamp⟩ := m
  cases shape with
  | flat es =>
    simp only [HashTrieMap.take]
    split
    · exact ensures_pure h
    · exact (ensures_true _).bind fun _ _ => ensures_pure (Fresh.of_cache rfl)
  | trie root nilEntry =>
    have ht : TrieWellFormed root nilEntry := hw.shape
    simp only [HashTrieMap.take]
    by_cases hk : isNil key = true
    · rw [if_pos hk]
      split
      · exact ensures_pure h
      · exact (ensures_true _).bind fun _ _ => ensures_pure (Fresh.of_cache rfl)
    · rw [if_neg hk]
      -- nothing is found, but nodes were written anew: what matters is that the entries stay
      have hAnswer : ∀ answer, root.erase stamp sole key (hashCode key) digits = .ok answer →
          answer = none →
            trieEntries (root.touch stamp (hashCode key) digits) nilEntry =
              trieEntries root nilEntry := by
        rintro _ hErase rfl
        rcases ht.erase (Bool.eq_false_iff.mpr hk) stamp sole with ⟨-, -, -, hSame⟩ | ⟨r, hr, -⟩
        · exact hSame
        · cases hr.symm.trans hErase
      refine (ensures_lift hAnswer).bind fun answer hSame => ?_
      cases answer with
      | none => exact ensures_pure (h.of_entries rfl (hSame rfl))
      | some r =>
        refine (ensures_true _).bind fun _ _ => (ensures_true _).bind fun _ _ => ?_
        exact ensures_pure (Fresh.of_cache rfl)

theorem insert_fresh (m : HashTrieMap κ ν) (key : κ) (value : ν) :
    Ensures (m.insert key value) fun m' => m'.Fresh :=
  (exchange_fresh m key value).bind fun _ h => ensures_pure h

theorem Fresh.erase [LawfulHashCode κ] (h : m.Fresh) (hw : m.WellFormed) (key : κ) :
    Ensures (HashTrieMap.erase m key) fun m' => m'.Fresh := by
  refine (ensures_true _).bind fun found _ => ?_
  split
  · exact (h.take hw .shared key).bind fun _ h' => ensures_pure h'
  · exact ensures_pure h

/-! ## Transients -/

theorem exchange_transient_fresh (t : Transient κ ν) (key : κ) (value : ν) :
    Ensures (t.exchange key value) fun r => r.2.map.Fresh :=
  (exchange_fresh t.map key value).bind fun _ h => ensures_pure h

theorem insert_transient_fresh (t : Transient κ ν) (key : κ) (value : ν) :
    Ensures (t.insert key value) fun t' => t'.map.Fresh :=
  (exchange_transient_fresh t key value).bind fun _ h => ensures_pure h

theorem Fresh.takeWith [LawfulHashCode κ] (h : t.map.Fresh) (hw : t.map.WellFormed)
    (sole : Sharing) (key : κ) : Ensures (t.takeWith sole key) fun r => r.2.map.Fresh :=
  (h.take hw sole key).bind fun _ h' => ensures_pure h'

/-- Without entries to take in, the hash that was there stays. -/
theorem Fresh.extend (h : t.map.Fresh) (es : List (κ × ν)) :
    Ensures (t.extend es) fun t' => t'.map.Fresh :=
  ensures_foldlM (P := fun t : Transient κ ν => t.map.Fresh)
    (fun t e _ => insert_transient_fresh t e.1 e.2) es h

omit [BEq κ] in
theorem Fresh.freeze (h : t.map.Fresh) : Ensures t.freeze fun m => m.Fresh :=
  (ensures_true _).bind fun _ _ => ensures_pure h

theorem Fresh.merge (h : m.Fresh) (other : HashTrieMap κ ν) :
    Ensures (m.merge other) fun m' => m'.Fresh := by
  unfold HashTrieMap.merge
  split
  · exact ensures_pure h
  · have hTransient : m.transient.map.Fresh := h.stamped _
    exact (hTransient.extend other.toList).bind fun _ h' => h'.freeze

theorem selectKeys_fresh (m : HashTrieMap κ ν) (keys : List κ) :
    Ensures (m.selectKeys keys) fun m' => m'.Fresh := by
  have hEmpty : (empty.stamped m.stamp : HashTrieMap κ ν).Fresh := Fresh.of_cache rfl
  have hStep : ∀ (t : Transient κ ν) key, t.map.Fresh →
      Ensures (m.selectStep t key) fun t' => t'.map.Fresh := by
    intro t key h
    refine (ensures_true _).bind fun found _ => ?_
    cases found with
    | none => exact ensures_pure h
    | some e => exact insert_transient_fresh t e.1 e.2
  exact (ensures_foldlM (P := fun t : Transient κ ν => t.map.Fresh) hStep keys hEmpty).bind
    fun _ h => h.freeze

/-- A call leads to a hash that is fresh, or to none. -/
theorem Call.run_fresh [LawfulHashCode κ] {s s' : Mode} (call : Call κ ν s s') {held : Held κ ν s}
    (hw : held.content.WellFormed) (h : held.content.Fresh) :
    Ensures (call.run held) fun r => r.2.content.Fresh := by
  cases call with
  | insert key value => exact (insert_fresh held key value).bind fun _ h' => ensures_pure h'
  | erase key => exact (Fresh.erase h hw key).bind fun _ h' => ensures_pure h'
  | update key f =>
    have hUpdate : Ensures (HashTrieMap.update held key f) fun m => m.Fresh :=
      (ensures_true _).bind fun _ _ => insert_fresh held key _
    exact hUpdate.bind fun _ h' => ensures_pure h'
  | transient => exact ensures_pure (Fresh.stamped h _)
  | thaw => exact ensures_pure h
  | exchange key value =>
    exact (exchange_transient_fresh held key value).bind fun _ h' => ensures_pure h'
  | put key value =>
    exact (insert_transient_fresh held key value).bind fun _ h' => ensures_pure h'
  | take sole key => exact (Fresh.takeWith h hw sole key).bind fun _ h' => ensures_pure h'
  | drop key =>
    have hErase : Ensures (Transient.erase held key) fun t => t.map.Fresh :=
      (Fresh.takeWith h hw _ key).bind fun _ h' => ensures_pure h'
    exact hErase.bind fun _ h' => ensures_pure h'
  | extend es => exact (Fresh.extend h es).bind fun _ h' => ensures_pure h'
  | freeze => exact (Fresh.freeze h).bind fun _ h' => ensures_pure h'

end Fresh

end PersistentCollections.HashTrieMap
