import PersistentCollections.Proofs.HashTrieMap.History
import PersistentCollections.Proofs.HashTrieMap.Iterator

/-!
# Merges and selections of hash maps

Both are builds: a transient takes the entries of a map one after the other. A merge models the
union of the finite maps in which the second one comes first (`Models.merge`), and a selection the
part of a finite map at the listed keys (`Models.selectKeys`).
-/

namespace PersistentCollections.HashTrieMap

open Entries

variable {κ ν : Type} [BEq κ] [HashCode κ] [LawfulHashCode κ] {m other : HashTrieMap κ ν}
  {f g : FiniteMap κ ν}

/-- In a union the first map comes first. -/
theorem FiniteMap.lookup_union (g f : FiniteMap κ ν) (c : KeyClass κ) :
    (g ∪ f).lookup c = (g.lookup c).or (f.lookup c) := by
  by_cases hMem : c ∈ g
  · obtain ⟨v, hv⟩ := Finmap.mem_iff.mp hMem
    rw [Finmap.lookup_union_left hMem, hv]
    rfl
  · rw [Finmap.lookup_union_right hMem, Finmap.lookup_eq_none.mpr hMem]
    rfl

/-- Of the entries that are inserted the one with the key counts, if there is one. -/
theorem lookup_foldl_insert (es : List (κ × ν)) (hd : Distinct es) (f : FiniteMap κ ν) (key : κ) :
    (es.foldl (fun f e => f.insert (.of e.1) e.2) f).lookup (.of key) =
      ((Entries.find? key es).map (·.2)).or (f.lookup (.of key)) := by
  induction es generalizing f with
  | nil => rfl
  | cons e es ih =>
    obtain ⟨hLacks, hd⟩ := distinct_cons.mp hd
    rw [List.foldl_cons, ih hd]
    by_cases hKey : (e.1 == key) = true
    · rw [find?_of_lacks (hLacks.congr hKey), ← KeyClass.of_eq_of.mpr hKey, Finmap.lookup_insert,
        find?_cons_same hKey]
      rfl
    · have hClass : KeyClass.of key ≠ KeyClass.of e.1 := fun h => hKey (KeyClass.of_eq_of.mp h.symm)
      rw [Finmap.lookup_insert_of_ne _ hClass, find?_cons_other (Bool.eq_false_iff.mpr hKey)]

/-- The entries of a map, put into a finite map, make the union with the map's own. -/
theorem Models.foldl_insert (h : Models m g) (f : FiniteMap κ ν) :
    m.toList.foldl (fun f e => f.insert (.of e.1) e.2) f = g ∪ f := by
  apply Finmap.ext_lookup
  intro c
  induction c using Quotient.ind with
  | _ key =>
  show Finmap.lookup (KeyClass.of key) _ = Finmap.lookup (KeyClass.of key) _
  rw [toList_eq_entries, lookup_foldl_insert _ h.wellFormed.distinct, ← HashTrieMap.valueAt,
    h.valueAt, FiniteMap.lookup_union]

/-- A merge has the entries of both maps, and those of the second where both have a key. -/
theorem Models.merge (h : Models m f) (h' : Models other g) :
    Succeeds (m.merge other) fun m' => Models m' (g ∪ f) := by
  unfold HashTrieMap.merge
  split
  · next hEmpty =>
    rw [h'.agrees.isEmpty.mp hEmpty, Finmap.empty_union]
    exact succeeds_pure h
  · have hTransient : Models m.transient.map f := h.stamped _
    apply (hTransient.extend other.toList).bind
    intro t ht
    rw [h'.foldl_insert] at ht
    exact Models.freeze ht

theorem Models.selectStep {t : Transient κ ν} (h : Models m f) (ht : Models t.map g) (key : κ) :
    Succeeds (m.selectStep t key) fun t' => ∃ g', Models t'.map g' ∧ ∀ c,
      g'.lookup c = if c = .of key then (f.lookup c).or (g.lookup c) else g.lookup c := by
  have hValue : (Entries.find? key m.entries).map (·.2) = f.lookup (.of key) := h.valueAt key
  apply (succeeds_lift (entryAt?_eq h.wellFormed key) rfl).bind
  rintro _ rfl
  cases hFind : Entries.find? key m.entries with
  | none =>
    rw [hFind] at hValue
    refine succeeds_pure ⟨g, ht, fun c => ?_⟩
    split
    · next hc =>
      rw [hc, ← hValue]
      rfl
    · rfl
  | some e =>
    have hKey := ((find?_eq_some_iff h.wellFormed.distinct).mp hFind).2
    rw [hFind, ← KeyClass.of_eq_of.mpr hKey] at hValue
    obtain ⟨es, t', hYields, ht'⟩ := ht.insert_transient e.1 e.2
    refine ⟨es, t', hYields, _, ht', fun c => ?_⟩
    rw [← KeyClass.of_eq_of.mpr hKey]
    split
    · next hc =>
      rw [hc, ← hValue, Finmap.lookup_insert]
      rfl
    · next hc => exact Finmap.lookup_insert_of_ne _ hc

/-- The values at the listed keys are added to those that are there. -/
theorem Models.select {t : Transient κ ν} (h : Models m f) (keys : List κ) (ht : Models t.map g) :
    Succeeds (keys.foldlM m.selectStep t) fun t' => ∃ g', Models t'.map g' ∧ ∀ c,
      g'.lookup c = if c ∈ keys.map KeyClass.of then (f.lookup c).or (g.lookup c)
        else g.lookup c := by
  induction keys generalizing t g with
  | nil => exact succeeds_pure ⟨g, ht, fun c => rfl⟩
  | cons key keys ih =>
    rw [List.foldlM_cons]
    apply (h.selectStep ht key).bind
    rintro t₁ ⟨g₁, ht₁, hLookup₁⟩
    obtain ⟨es, t₂, hYields, g₂, ht₂, hLookup₂⟩ := ih ht₁
    refine ⟨es, t₂, hYields, g₂, ht₂, fun c => ?_⟩
    rw [hLookup₂, hLookup₁]
    simp only [List.map_cons, List.mem_cons]
    by_cases hKey : c = .of key
    · simp only [hKey, if_true, true_or, ← Option.or_assoc, Option.or_self, ite_self]
    · simp only [hKey, if_false, false_or]

/-- A selection has the values of the listed keys. -/
theorem Models.selectKeys (h : Models m f) (keys : List κ) :
    Succeeds (m.selectKeys keys) fun m' => ∃ f', Models m' f' ∧ ∀ c,
      f'.lookup c = if c ∈ keys.map KeyClass.of then f.lookup c else none := by
  unfold HashTrieMap.selectKeys
  have hEmpty : Models (HashTrieMap.empty.stamped m.stamp : HashTrieMap κ ν) ∅ :=
    models_empty.stamped m.stamp
  apply (h.select keys hEmpty).bind
  rintro t ⟨f', ht, hLookup⟩
  obtain ⟨es, m', hYields, hm'⟩ := ht.freeze
  refine ⟨es, m', hYields, f', hm', ?_⟩
  intro c
  rw [hLookup, Finmap.lookup_empty, Option.or_none]

end PersistentCollections.HashTrieMap
