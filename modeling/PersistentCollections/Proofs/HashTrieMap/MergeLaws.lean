import PersistentCollections.Proofs.Versions

/-!
# Laws of merges and selections

Up to equality of hash maps a merge is the union of finite maps in which the second one comes first,
so it is associative, it has every empty map as a unit, and it changes nothing if both maps are the
same (`MergeLaws`). A selection is the part of a finite map at the listed keys, each counted once
(`Selects`). Both are built in a transient that may pass from one form to another on the way, next
to a map that may share its nodes, and nothing of that can be seen.

Values only need an equality that is reflexive, as the values that are compared are the same.
-/

namespace PersistentCollections.HashTrieMap

open HashTrieSet (classes)

section

variable {κ ν : Type} [BEq κ] [HashCode κ] [LawfulHashCode κ] {m n p u a b : HashTrieMap κ ν}
  {f g : FiniteMap κ ν} {keys : List κ}

/-! ## Sizes and equality by the finite map -/

/-- The keys up to `==` are those of the finite map. -/
theorem Models.classes_keys (h : Models m f) : classes m.keys = f.keys := by
  rw [classes, HashTrieMap.keys, toList_eq_entries, List.map_map, h.keys_eq]
  rfl

theorem Models.size_eq (h : Models m f) : m.size = f.keys.card := h.agrees.size

/-- Maps that model the same finite map are equal, whichever hashes are kept. -/
theorem Models.equals_eq [BEq ν] [ReflBEq ν] [HashCode ν] (ha : Models a f) (hb : Models b f)
    (hfa : a.Fresh) (hfb : b.Fresh) : a.equals b = .ok true := by
  have hSize : a.size = b.size := by rw [ha.size_eq, hb.size_eq]
  have hValueAt : ∀ key, a.valueAt key = b.valueAt key := by
    intro key
    rw [ha.valueAt, hb.valueAt]
  have hHash : a.contentHash = b.contentHash := by
    -- equality proper keeps the hashes of values, which that of the values need not do
    let _ : DecidableEq ν := Classical.decEq ν
    let _ : BEq ν := instBEqOfDecidableEq
    have hSame : a.SameValues b := by
      intro key
      rw [hValueAt]
      exact SameValues.refl b key
    apply hSame.contentHash_eq ha.wellFormed hb.wellFormed
    intro v w hEqual
    rw [eq_of_beq hEqual]
  have hIncludes : b.includes a.toList = .ok true := by
    rw [includes_eq hb.wellFormed, toList_eq_entries]
    congr 1
    rw [List.all_eq_true]
    intro e he
    rw [← hValueAt, valueAt_of_mem ha.wellFormed he]
    exact BEq.rfl
  unfold equals
  rw [if_neg (not_not.mpr hSize)]
  split
  · next h k hCache hCache' =>
    have hSame : h = k := by rw [hfa h hCache, hfb k hCache', hHash]
    rw [if_neg (not_not.mpr hSame)]
    exact hIncludes
  · exact hIncludes

/-! ## Merges -/

/-- `u` has the entries of both maps, and those of `n` where both have a key. -/
structure Merges (m n u : HashTrieMap κ ν) : Prop where
  get? : ∀ key, ∃ inM inN, m.get? key = .ok inM ∧ n.get? key = .ok inN ∧
    u.get? key = .ok (inN.or inM)
  size : u.size + (classes m.keys ∩ classes n.keys).card = m.size + n.size

/-- `u` has the entries of `m` whose keys are listed. -/
structure Selects (m : HashTrieMap κ ν) (keys : List κ) (u : HashTrieMap κ ν) : Prop where
  get? : ∀ key, ∃ inM, m.get? key = .ok inM ∧
    u.get? key = .ok (if keys.any (· == key) then inM else none)
  size : u.size = (classes keys ∩ classes m.keys).card

theorem Models.merges (hm : Models m f) (hn : Models n g) (hu : Models u (g ∪ f)) :
    Merges m n u where
  get? key := by
    refine ⟨_, _, hm.agrees.get? key, hn.agrees.get? key, ?_⟩
    rw [hu.agrees.get?, FiniteMap.lookup_union]
  size := by
    rw [hm.classes_keys, hn.classes_keys, hm.size_eq, hn.size_eq, hu.size_eq, Finmap.keys_union,
      Finset.union_comm]
    exact Finset.card_union_add_card_inter f.keys g.keys

/-- A selection models the part of the finite map at the listed keys, and nothing else. -/
theorem Models.selects (hm : Models m f) (hu : Models u g)
    (hLookup : ∀ c, g.lookup c = if c ∈ keys.map KeyClass.of then f.lookup c else none) :
    Selects m keys u where
  get? key := by
    have hListed : KeyClass.of key ∈ keys.map KeyClass.of ↔ keys.any (· == key) = true := by
      simp only [List.mem_map, List.any_eq_true, KeyClass.of_eq_of]
    refine ⟨_, hm.agrees.get? key, ?_⟩
    rw [hu.agrees.get?, hLookup]
    simp only [hListed]
  size := by
    have hKeys : g.keys = classes keys ∩ f.keys := by
      ext c
      rw [Finset.mem_inter, Finmap.mem_keys, Finmap.mem_keys, ← Finmap.lookup_isSome,
        ← Finmap.lookup_isSome, hLookup, classes, List.mem_toFinset]
      split
      · next hListed => simp only [hListed, true_and]
      · next hOther => simp only [hOther, false_and, Option.isSome_none, Bool.false_eq_true]
    rw [hu.size_eq, hKeys, hm.classes_keys]

variable [HashCode ν]

theorem Models.merge_fresh (hm : Models m f) (hn : Models n g) (hf : m.Fresh) :
    Succeeds (m.merge n) fun u => Models u (g ∪ f) ∧ u.Fresh := by
  obtain ⟨events, u, hYields, hu⟩ := hm.merge hn
  exact ⟨events, u, hYields, hu, (hf.merge n).of_yields hYields⟩

variable [BEq ν]

/-- The laws of merges, for three maps. -/
structure MergeLaws (m n p : HashTrieMap κ ν) : Prop where
  merge : Succeeds (m.merge n) (Merges m n)
  emptyRight : n.isEmpty = true → Succeeds (m.merge n) fun u => u.equals m = .ok true
  emptyLeft : m.isEmpty = true → Succeeds (m.merge n) fun u => u.equals n = .ok true
  self : Succeeds (m.merge m) fun u => u.equals m = .ok true
  assoc : Succeeds (m.merge n) fun mn => Succeeds (n.merge p) fun np =>
    Succeeds (mn.merge p) fun left => Succeeds (m.merge np) fun right =>
      left.equals right = .ok true

variable [ReflBEq ν]

theorem Models.mergeLaws {h : FiniteMap κ ν} (hm : Models m f) (hn : Models n g) (hp : Models p h)
    (hfm : m.Fresh) (hfn : n.Fresh) : MergeLaws m n p where
  merge := by
    obtain ⟨events, u, hYields, hu⟩ := hm.merge hn
    exact ⟨events, u, hYields, hm.merges hn hu⟩
  emptyRight hEmpty := by
    obtain ⟨events, u, hYields, hu, hfu⟩ := hm.merge_fresh hn hfm
    rw [hn.agrees.isEmpty.mp hEmpty, Finmap.empty_union] at hu
    exact ⟨events, u, hYields, hu.equals_eq hm hfu hfm⟩
  emptyLeft hEmpty := by
    obtain ⟨events, u, hYields, hu, hfu⟩ := hm.merge_fresh hn hfm
    rw [hm.agrees.isEmpty.mp hEmpty, Finmap.union_empty] at hu
    exact ⟨events, u, hYields, hu.equals_eq hn hfu hfn⟩
  self := by
    obtain ⟨events, u, hYields, hu, hfu⟩ := hm.merge_fresh hm hfm
    have hSame : f ∪ f = f := by
      apply Finmap.ext_lookup
      intro c
      rw [FiniteMap.lookup_union, Option.or_self]
    rw [hSame] at hu
    exact ⟨events, u, hYields, hu.equals_eq hm hfu hfm⟩
  assoc := by
    obtain ⟨es, mn, hYields, hmn, hfmn⟩ := hm.merge_fresh hn hfm
    obtain ⟨fs, np, hYields', hnp, hfnp⟩ := hn.merge_fresh hp hfn
    obtain ⟨gs, left, hLeft, hl, hfl⟩ := hmn.merge_fresh hp hfmn
    obtain ⟨hs, right, hRight, hr, hfr⟩ := hm.merge_fresh hnp hfm
    rw [Finmap.union_assoc] at hr
    exact ⟨es, mn, hYields, fs, np, hYields', gs, left, hLeft, hs, right, hRight,
      hl.equals_eq hr hfl hfr⟩

/-! ## Whatever arises -/

/-- Merges of maps that arise, in the same or in different stores, obey their laws, and selections
of their keys have the entries that are listed. -/
theorem merges_of_arises :
    (∀ m n p : HashTrieMap κ ν, Arises (.hashMap (s := .frozen) m) →
      Arises (.hashMap (s := .frozen) n) → Arises (.hashMap (s := .frozen) p) →
      MergeLaws m n p) ∧
    ∀ (m : HashTrieMap κ ν) (keys : List κ), Arises (.hashMap (s := .frozen) m) →
      Succeeds (m.selectKeys keys) (Selects m keys) := by
  constructor
  · intro m n p hm hn hp
    obtain ⟨⟨f, hm⟩, hfm⟩ := hm.sound
    obtain ⟨⟨g, hn⟩, hfn⟩ := hn.sound
    obtain ⟨⟨h, hp⟩, -⟩ := hp.sound
    exact Models.mergeLaws hm hn hp hfm hfn
  · intro m keys hm
    obtain ⟨⟨f, hm⟩, -⟩ := hm.sound
    obtain ⟨events, u, hYields, g, hu, hLookup⟩ := Models.selectKeys hm keys
    exact ⟨events, u, hYields, Models.selects hm hu hLookup⟩

end

/-- Nil and nine other keys, more than a flat map takes. -/
def nilAndNineOthers : Calls (Option UInt8) Int64 .frozen .frozen :=
  .cons .transient (.cons (.extend ((none, 9) :: (List.range 9).map fun i =>
    (some i.toUInt8, i.toInt64))) (.cons .freeze .nil))

/-- Nil, one other of those keys and a new one, in a flat map. -/
def nilAndTwoOthers : Calls (Option UInt8) Int64 .frozen .frozen :=
  .cons (.insert (some 3) 30) (.cons (.insert none 90) (.cons (.insert (some 20) 200) .nil))

theorem merges_of_arises_trieAndFlat : LawfulHashCode (Option UInt8) ∧ ReflBEq Int64 ∧
    ∃ m n : HashTrieMap (Option UInt8) Int64, Arises (.hashMap (s := .frozen) m) ∧
      Arises (.hashMap (s := .frozen) n) ∧ MergeLaws m n m ∧ MergeLaws n m n ∧
      Succeeds (m.merge n) (fun u => u.size = 11) ∧
      Succeeds (m.selectKeys [some 3, none, some 20, none]) fun u => u.size = 2 := by
  obtain ⟨m, hm, hModels⟩ := exists_arises nilAndNineOthers
  obtain ⟨n, hn, hModels'⟩ := exists_arises nilAndTwoOthers
  have hLaws := merges_of_arises.1 m n m hm hn hm
  obtain ⟨es, u, hMerge, hu⟩ := hLaws.merge
  obtain ⟨fs, s, hSelect, hs⟩ := merges_of_arises.2 m [some 3, none, some 20, none] hm
  have hMerged : u.size = 11 := by
    have hCommon : (classes m.keys ∩ classes n.keys).card = 2 := by
      rw [hModels.classes_keys, hModels'.classes_keys]
      decide +kernel
    have hSizes : m.size + n.size = 13 := by
      rw [hModels.size_eq, hModels'.size_eq]
      decide +kernel
    have hSize := hu.size
    omega
  have hSelected : s.size = 2 := by
    rw [hs.size, hModels.classes_keys]
    decide +kernel
  exact ⟨inferInstance, inferInstance, m, n, hm, hn, hLaws, merges_of_arises.1 n m n hn hm hn,
    ⟨es, u, hMerge, hMerged⟩, fs, s, hSelect, hSelected⟩

end PersistentCollections.HashTrieMap
