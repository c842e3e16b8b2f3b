import PersistentCollections.Proofs.Versions

/-!
# Set algebra

Union, intersection and difference of hash sets are those of finite sets, so they obey the laws of
finite sets up to equality of hash sets. The operations go by size, take shortcuts, and build on the
nodes of an operand, and nothing of that can be seen (`Algebra`). Elements are taken up to `==`
throughout: `classes s.toList` is the finite set of the elements of `s`.

A transient tells of each addition and each removal whether there is any change
(`Transient.TellsChanges`).
-/

namespace PersistentCollections.HashTrieSet

open HashTrieMap (KeyClass)

section

variable {α : Type} [BEq α] [HashCode α] [LawfulHashCode α]

/-! ## Two sets -/

/-- The size of a set is the number of its elements, and they are what it contains. -/
def Counts (s : HashTrieSet α) : Prop :=
  s.size = (classes s.toList).card ∧
    ∀ x, s.contains x = .ok (decide (KeyClass.of x ∈ classes s.toList))

/-- The union `u`, the intersection `i` and the difference `d` of two sets. -/
structure Algebra (a b u i d : HashTrieSet α) : Prop where
  union : ∃ events, Yields (a.union b) events u
  intersection : ∃ events, Yields (a.intersection b) events i
  difference : ∃ events, Yields (a.difference b) events d
  contains : ∀ x, ∃ inA inB, a.contains x = .ok inA ∧ b.contains x = .ok inB ∧
    u.contains x = .ok (inA || inB) ∧ i.contains x = .ok (inA && inB) ∧
    d.contains x = .ok (inA && !inB)
  counts : ∀ s ∈ [a, b, u, i, d], s.Counts
  sizes : u.size = (classes a.toList ∪ classes b.toList).card ∧
    i.size = (classes a.toList ∩ classes b.toList).card ∧
    d.size = (classes a.toList \ classes b.toList).card
  union_add_intersection : u.size + i.size = a.size + b.size
  difference_add_intersection : d.size + i.size = a.size
  union_comm : ∃ events u', Yields (b.union a) events u' ∧ u.equals u' = .ok true
  intersection_comm : ∃ events i', Yields (b.intersection a) events i' ∧ i.equals i' = .ok true
  difference_union_intersection : ∃ events r, Yields (d.union i) events r ∧ r.equals a = .ok true
  isSubset : ∃ verdict, a.isSubset b = .ok verdict ∧ u.equals b = .ok verdict ∧
    (verdict = true ↔ ∀ x, a.contains x = .ok true → b.contains x = .ok true)

variable {a b s : HashTrieSet α} {e e' : Finset (KeyClass α)}

theorem Holds.classes_toList (h : Holds s.map e) : classes s.toList = e := h.classes_keys

theorem Holds.counts (h : Holds s.map e) : s.Counts := by
  rw [Counts, h.classes_toList]
  exact ⟨h.size_eq, h.contains_eq⟩

/-- A larger set is not within a smaller one, so sizes may be compared first. -/
theorem Holds.isSubset_eq (h : Holds a.map e) (h' : Holds b.map e') :
    a.isSubset b = .ok (decide (e ⊆ e')) := by
  rw [HashTrieSet.isSubset, size, size, h.size_eq, h'.size_eq, h.includes_keys_eq h']
  split
  · rfl
  · next hMore =>
    have hNot : ¬ e ⊆ e' := fun hSub => hMore (Finset.card_le_card hSub)
    rw [decide_eq_false hNot]

/-- A finite set is within another if what is an element of the one is an element of the other. -/
theorem Holds.subset_iff (h : Holds a.map e) (h' : Holds b.map e') :
    e ⊆ e' ↔ ∀ x, a.contains x = .ok true → b.contains x = .ok true := by
  simp only [HashTrieSet.contains, h.contains_eq, h'.contains_eq, Except.ok.injEq,
    decide_eq_true_iff]
  constructor
  · exact fun hSub x hx => hSub hx
  · intro hAll c hc
    induction c using Quotient.ind with
    | _ x => exact hAll x hc

theorem Holds.equals_of_eq (h : Holds a.map e) (h' : Holds b.map e') (hSame : e = e') :
    a.equals b = .ok true := by
  rw [h.equals_eq h', decide_eq_true hSame]

theorem Holds.algebra (h : Holds a.map e) (h' : Holds b.map e') : ∃ u i d, Algebra a b u i d := by
  obtain ⟨es, u, hUnion, hu⟩ := h.union h'
  obtain ⟨fs, i, hIntersection, hi⟩ := h.intersection h'
  obtain ⟨gs, d, hDifference, hd⟩ := h.difference h'
  obtain ⟨es', u', hUnion', hu'⟩ := h'.union h
  obtain ⟨fs', i', hIntersection', hi'⟩ := h'.intersection h
  obtain ⟨hs, r, hRejoined, hr⟩ := hd.union hi
  have hSplit : e \ e' ∪ e ∩ e' = e := Finset.sdiff_union_inter e e'
  exact ⟨u, i, d, {
    union := ⟨es, hUnion⟩
    intersection := ⟨fs, hIntersection⟩
    difference := ⟨gs, hDifference⟩
    contains := fun x => by
      refine ⟨_, _, h.contains_eq x, h'.contains_eq x, ?_, ?_, ?_⟩
      · rw [HashTrieSet.contains, hu.contains_eq]
        simp only [Finset.mem_union, Bool.decide_or]
      · rw [HashTrieSet.contains, hi.contains_eq]
        simp only [Finset.mem_inter, Bool.decide_and]
      · rw [HashTrieSet.contains, hd.contains_eq]
        simp only [Finset.mem_sdiff, Bool.decide_and, decide_not]
    counts := by
      simp only [List.forall_mem_cons]
      exact ⟨h.counts, h'.counts, hu.counts, hi.counts, hd.counts, List.forall_mem_nil _⟩
    sizes := by
      rw [h.classes_toList, h'.classes_toList]
      exact ⟨hu.size_eq, hi.size_eq, hd.size_eq⟩
    union_add_intersection := by
      rw [size, size, size, size, hu.size_eq, hi.size_eq, h.size_eq, h'.size_eq]
      exact Finset.card_union_add_card_inter e e'
    difference_add_intersection := by
      rw [size, size, size, hd.size_eq, hi.size_eq, h.size_eq]
      exact Finset.card_sdiff_add_card_inter e e'
    union_comm := ⟨es', u', hUnion', hu.equals_of_eq hu' (Finset.union_comm e e')⟩
    intersection_comm := ⟨fs', i', hIntersection', hi.equals_of_eq hi' (Finset.inter_comm e e')⟩
    difference_union_intersection := ⟨hs, r, hRejoined, hr.equals_of_eq h hSplit⟩
    isSubset := by
      refine ⟨_, h.isSubset_eq h', ?_, ?_⟩
      · rw [hu.equals_eq h']
        simp only [Finset.union_eq_right]
      · rw [decide_eq_true_iff, h.subset_iff h'] }⟩

/-! ## Transients -/

namespace Transient

variable {t : Transient α} {x : α}

/-- Adding an element to a transient tells whether it has other elements then, and so does taking
one out. Nothing but that element is concerned. -/
structure TellsChanges (t : Transient α) : Prop where
  add : ∀ x, ∃ events added t', Yields (t.add x) events (added, t') ∧
    (added = true ↔ ∃ y, t'.contains y ≠ t.contains y) ∧ t'.contains x = .ok true ∧
    (∀ y, (y == x) = false → t'.contains y = t.contains y) ∧ t'.size = t.size + added.toNat
  take : ∀ x, ∃ events taken t', Yields (t.take x) events (taken, t') ∧
    (taken = true ↔ ∃ y, t'.contains y ≠ t.contains y) ∧ t'.contains x = .ok false ∧
    (∀ y, (y == x) = false → t'.contains y = t.contains y) ∧ t'.size + taken.toNat = t.size

section

variable {m m' : HashTrieMap α Unit} {e e' : Finset (KeyClass α)}

theorem of_ne_of {y : α} (h : (y == x) = false) : KeyClass.of y ≠ KeyClass.of x := by
  rw [ne_eq, KeyClass.of_eq_of, h]
  exact Bool.false_ne_true

/-- There is a change if the finite sets differ. -/
theorem exists_change_iff (h : Holds m e) (h' : Holds m' e') :
    (∃ y, m'.contains y ≠ m.contains y) ↔ e' ≠ e := by
  constructor
  · rintro ⟨y, hDiffer⟩ rfl
    exact hDiffer ((h'.contains_eq y).trans (h.contains_eq y).symm)
  · intro hDiffer
    by_contra hSame
    refine hDiffer (Finset.ext fun c => ?_)
    induction c using Quotient.ind with
    | _ y =>
    have hBoth := not_not.mp (not_exists.mp hSame y)
    rw [h'.contains_eq, h.contains_eq, Except.ok.injEq, decide_eq_decide] at hBoth
    exact hBoth

theorem tellsChanges (h : Holds t.map.map e) : t.TellsChanges where
  add x := by
    obtain ⟨events, ⟨added, t'⟩, hYields, rfl, h'⟩ := h.add x
    refine ⟨events, _, t', hYields, ?_, ?_, ?_, ?_⟩
    · rw [decide_eq_true_iff]
      refine Iff.trans ?_ (exists_change_iff h h').symm
      rw [ne_eq, Finset.union_eq_left, Finset.singleton_subset_iff]
    · refine (h'.contains_eq x).trans ?_
      rw [decide_eq_true (Finset.mem_union_right e (Finset.mem_singleton_self _))]
    · intro y hy
      refine (h'.contains_eq y).trans ((h.contains_eq y).trans ?_).symm
      simp only [Finset.mem_union, Finset.mem_singleton, of_ne_of hy, or_false]
    · refine h'.size_eq.trans ?_
      rw [size, HashTrieMap.Transient.size, h.size_eq]
      by_cases hIn : KeyClass.of x ∈ e
      · rw [union_of_mem hIn, decide_eq_false (not_not.mpr hIn)]
        rfl
      · rw [Finset.union_comm, ← Finset.insert_eq, Finset.card_insert_of_notMem hIn,
          decide_eq_true hIn]
        rfl
  take x := by
    obtain ⟨events, ⟨taken, t'⟩, hYields, rfl, h'⟩ := h.take x
    refine ⟨events, _, t', hYields, ?_, ?_, ?_, ?_⟩
    · rw [decide_eq_true_iff]
      refine Iff.trans ?_ (exists_change_iff h h').symm
      rw [ne_eq, Finset.erase_eq_self, not_not]
    · refine (h'.contains_eq x).trans ?_
      rw [decide_eq_false (Finset.notMem_erase _ e)]
    · intro y hy
      refine (h'.contains_eq y).trans ((h.contains_eq y).trans ?_).symm
      simp only [Finset.mem_erase, of_ne_of hy, true_and, ne_eq, not_false_eq_true]
    · rw [size, size, HashTrieMap.Transient.size, HashTrieMap.Transient.size, h.size_eq,
        h'.size_eq]
      by_cases hIn : KeyClass.of x ∈ e
      · rw [decide_eq_true hIn]
        exact Finset.card_erase_add_one hIn
      · rw [Finset.erase_eq_of_notMem hIn, decide_eq_false hIn]
        rfl

end

end Transient

end

/-! ## Whatever arises -/

/-- The algebra of any two sets that arise, in the same or in different stores, is that of finite
sets, and any transient that arises tells whether there is a change. -/
theorem algebra_of_arises (κ ν : Type) [BEq κ] [HashCode κ] [LawfulHashCode κ] [HashCode ν] :
    (∀ a b : HashTrieSet κ, Arises (.hashSet (s := .frozen) a : Version κ ν) →
      Arises (.hashSet (s := .frozen) b : Version κ ν) → ∃ u i d, Algebra a b u i d) ∧
    ∀ t : Transient κ, Arises (.hashSet (s := .building) t : Version κ ν) → t.TellsChanges := by
  constructor
  · intro a b ha hb
    obtain ⟨⟨e, h⟩, -⟩ := ha.sound
    obtain ⟨⟨e', h'⟩, -⟩ := hb.sound
    exact Holds.algebra h h'
  · intro t ht
    obtain ⟨⟨e, h⟩, -⟩ := ht.sound
    exact Transient.tellsChanges h

/-- Ten elements, one of them nil: more than a flat map takes. -/
def nilAndNine : List (Option UInt8) := none :: (List.range 9).map fun n => some n.toUInt8

/-- A set of ten elements and one that was made of it by taking an element out, and the transient
that the first was made of. -/
theorem algebra_of_arises_nilAndNine : LawfulHashCode (Option UInt8) ∧
    ∃ (t : Transient (Option UInt8)) (a b u i d : HashTrieSet (Option UInt8)),
      Arises (.hashSet (s := .building) t : Version (Option UInt8) Unit) ∧ t.TellsChanges ∧
      Arises (.hashSet (s := .frozen) a : Version (Option UInt8) Unit) ∧
      Arises (.hashSet (s := .frozen) b : Version (Option UInt8) Unit) ∧
      Algebra a b u i d ∧ a.size = 10 ∧ b.size = 9 ∧ u.size = 10 ∧ i.size = 9 ∧ d.size = 1 := by
  obtain ⟨hSets, hTransients⟩ := algebra_of_arises (Option UInt8) Unit
  have hEmpty : Arises (.hashSet (s := .building) .empty : Version (Option UInt8) Unit) :=
    Makes.emptyTransientSet.arises .refl
  obtain ⟨store, hReached, hx⟩ := hEmpty
  have hNone : Holds
      (Held.content (s := .building) (Transient.empty : Transient (Option UInt8))) ∅ := holds_empty
  obtain ⟨es, ⟨_, t⟩, hYields, -, ht⟩ := (Call.extend nilAndNine).run_holds hNone
  have hTransient := (Makes.setCall _ hx hYields).arises hReached
  obtain ⟨store', hReached', hx'⟩ := hTransient
  obtain ⟨es', ⟨_, a⟩, hYields', -, ha⟩ := Call.freeze.run_holds ht
  have hSet := (Makes.setCall _ hx' hYields').arises hReached'
  obtain ⟨store'', hReached'', hx''⟩ := hSet
  obtain ⟨es'', ⟨_, b⟩, hYields'', -, hb⟩ := (Call.erase (some 3)).run_holds ha
  have hOther := (Makes.setCall _ hx'' hYields'').arises hReached''
  obtain ⟨u, i, d, hAlgebra⟩ := hSets a b ⟨store'', hReached'', hx''⟩ hOther
  obtain ⟨hUnion, hIntersection, hDifference⟩ := hAlgebra.sizes
  rw [Holds.classes_toList ha, Holds.classes_toList hb] at hUnion hIntersection hDifference
  exact ⟨inferInstance, t, a, b, u, i, d, ⟨store', hReached', hx'⟩,
    hTransients t ⟨store', hReached', hx'⟩, ⟨store'', hReached'', hx''⟩, hOther, hAlgebra,
    (Holds.size_eq ha).trans (by decide +kernel), (Holds.size_eq hb).trans (by decide +kernel),
    hUnion.trans (by decide +kernel), hIntersection.trans (by decide +kernel),
    hDifference.trans (by decide +kernel)⟩

end PersistentCollections.HashTrieSet
