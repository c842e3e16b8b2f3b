import PersistentCollections.HashTrieSet
import PersistentCollections.Proofs.HashTrieMap.Merge

/-!
# Hash sets as finite sets

A hash set is a hash map to nothing, and its reference is the finite set of its keys, taken up to
`==`. `Holds m e` says that a map to nothing is well-formed and has the keys of `e`. Every change of
a set or of a transient keeps that (`Call.run_holds`), and so do union, intersection and difference,
whichever of the two operands the smaller one is.

Equality of sets is equality of the finite sets (`Holds.equals_eq`), and the hash is a function of
the finite set (`Holds.contentHash_eq`).
-/

namespace PersistentCollections.HashTrieSet

open HashTrieMap (KeyClass FiniteMap Models)

variable {α : Type}

/-! ## Calls -/

/-- What is held in a mode. -/
@[reducible] def Held (α : Type) : Mode → Type
  | .frozen => HashTrieSet α
  | .building => Transient α

/-- The map of what is held. -/
def Held.content : {s : Mode} → Held α s → HashTrieMap α Unit
  | .frozen, s => HashTrieSet.map s
  | .building, t => HashTrieMap.Transient.map (Transient.map t)

/-- A call, with the mode that it starts from and the one that it leads to. -/
inductive Call (α : Type) : Mode → Mode → Type
  | insert (x : α) : Call α .frozen .frozen
  | erase (x : α) : Call α .frozen .frozen
  | transient : Call α .frozen .building
  | add (x : α) : Call α .building .building
  | put (x : α) : Call α .building .building
  | take (x : α) : Call α .building .building
  | drop (x : α) : Call α .building .building
  | extend (xs : List α) : Call α .building .building
  | freeze : Call α .building .frozen

variable [BEq α] [HashCode α]

/-- Make a call. Adding an element to a transient and taking one out answer whether that changed
anything. -/
def Call.run : {s t : Mode} → Call α s t → Held α s → Logged (List Bool × Held α t)
  | _, _, .insert x, s => return ([], ← HashTrieSet.insert s x)
  | _, _, .erase x, s => return ([], ← HashTrieSet.erase s x)
  | _, _, .transient, s => return ([], HashTrieSet.transient s)
  | _, _, .add x, t => do
    let (added, t) ← Transient.add t x
    return ([added], t)
  | _, _, .put x, t => return ([], ← Transient.insert t x)
  | _, _, .take x, t => do
    let (taken, t) ← Transient.take t x
    return ([taken], t)
  | _, _, .drop x, t => return ([], ← Transient.erase t x)
  | _, _, .extend xs, t => return ([], ← Transient.extend t xs)
  | _, _, .freeze, t => return ([], ← Transient.freeze t)

section Reference

variable [LawfulHashCode α]

/-- The finite set of the elements of a list. -/
def classes (xs : List α) : Finset (KeyClass α) := (xs.map KeyClass.of).toFinset

/-- What a call does to a finite set, and what it answers. -/
def Call.reference {s t : Mode} (call : Call α s t) (e : Finset (KeyClass α)) :
    List Bool × Finset (KeyClass α) :=
  match call with
  | .insert x | .put x => ([], e ∪ {KeyClass.of x})
  | .erase x | .drop x => ([], e.erase (.of x))
  | .add x => ([decide (KeyClass.of x ∉ e)], e ∪ {KeyClass.of x})
  | .take x => ([decide (KeyClass.of x ∈ e)], e.erase (.of x))
  | .extend xs => ([], e ∪ classes xs)
  | .transient | .freeze => ([], e)

/-- A well-formed map to nothing with the keys of a finite set. -/
def Holds (m : HashTrieMap α Unit) (e : Finset (KeyClass α)) : Prop :=
  ∃ f : FiniteMap α Unit, Models m f ∧ f.keys = e

variable {m : HashTrieMap α Unit} {s other : HashTrieSet α} {t : Transient α}
  {e e' : Finset (KeyClass α)} {x : α}

theorem holds_empty : Holds (HashTrieMap.empty : HashTrieMap α Unit) ∅ :=
  ⟨∅, HashTrieMap.models_empty, Finmap.keys_empty⟩

theorem Holds.wellFormed (h : Holds m e) : m.WellFormed := by
  obtain ⟨f, hm, -⟩ := h
  exact hm.wellFormed

theorem Holds.stamped (h : Holds m e) (stamp : Nat) : Holds (m.stamped stamp) e := by
  obtain ⟨f, hm, hKeys⟩ := h
  exact ⟨f, hm.stamped stamp, hKeys⟩

/-! ## Reading -/

theorem Holds.size_eq (h : Holds m e) : m.size = e.card := by
  obtain ⟨f, hm, rfl⟩ := h
  exact hm.agrees.size

theorem Holds.isEmpty_iff (h : Holds m e) : m.isEmpty = true ↔ e = ∅ := by
  rw [HashTrieMap.isEmpty, beq_iff_eq, h.size_eq, Finset.card_eq_zero]

theorem Holds.contains_eq (h : Holds m e) (x : α) :
    m.contains x = .ok (decide (KeyClass.of x ∈ e)) := by
  obtain ⟨f, hm, rfl⟩ := h
  have hFound : (f.lookup (.of x)).isSome = decide (KeyClass.of x ∈ f.keys) := by
    rw [Bool.eq_iff_iff, decide_eq_true_iff, Finmap.lookup_isSome, Finmap.mem_keys]
  rw [hm.agrees.contains, hFound]

theorem Holds.classes_keys (h : Holds m e) : classes m.keys = e := by
  obtain ⟨f, hm, rfl⟩ := h
  rw [classes, HashTrieMap.keys, HashTrieMap.toList_eq_entries, List.map_map, hm.keys_eq]
  rfl

theorem Holds.nodup_keys (h : Holds m e) : (m.keys.map KeyClass.of).Nodup := by
  rw [HashTrieMap.keys, HashTrieMap.toList_eq_entries, List.map_map]
  exact h.wellFormed.nodup_keys

theorem Holds.nodup_toList (h : Holds s.map e) : s.toList.Nodup := h.nodup_keys.of_map

/-- Where `==` is equality, the elements are the members of the finite set. -/
theorem Holds.mem_toList [LawfulBEq α] (h : Holds s.map e) : x ∈ s.toList ↔ KeyClass.of x ∈ e := by
  have hMem : KeyClass.of x ∈ classes s.toList ↔ KeyClass.of x ∈ e := by
    rw [← h.classes_keys]
    rfl
  rwa [classes, List.mem_toFinset, List.mem_map_of_injective KeyClass.of_injective] at hMem

theorem Holds.includes_eq (h : Holds s.map e) (xs : List α) :
    s.includes xs = .ok (xs.all fun x => decide (KeyClass.of x ∈ e)) := by
  induction xs with
  | nil => rfl
  | cons x xs ih =>
    rw [includes, contains, h.contains_eq, Result.bind_ok, List.all_cons]
    cases decide (KeyClass.of x ∈ e) with
    | true => exact ih
    | false => rfl

theorem Holds.includes_keys_eq (h : Holds s.map e) (h' : Holds other.map e') :
    other.includes s.toList = .ok (decide (e ⊆ e')) := by
  have hAll : (s.toList.all fun x => decide (KeyClass.of x ∈ e')) = decide (e ⊆ e') := by
    rw [Bool.eq_iff_iff, decide_eq_true_iff, ← h.classes_keys, List.all_eq_true, classes,
      Finset.subset_iff]
    simp only [decide_eq_true_iff, List.mem_toFinset, List.mem_map, forall_exists_index, and_imp,
      forall_apply_eq_imp_iff₂]
    rfl
  rw [h'.includes_eq, hAll]

theorem Holds.equals_eq (h : Holds s.map e) (h' : Holds other.map e') :
    s.equals other = .ok (decide (e = e')) := by
  rw [equals, size, size, h.size_eq, h'.size_eq, h.includes_keys_eq h']
  split
  · next hCard =>
    -- of two finite sets of one size the one is not within the other unless they are the same
    have hSame : e ⊆ e' ↔ e = e' :=
      ⟨fun hSub => Finset.eq_of_subset_of_card_le hSub (Nat.le_of_eq hCard.symm),
        fun hEq => hEq ▸ Finset.Subset.refl _⟩
    simp only [hSame]
  · next hCard =>
    have hDiffer : ¬ e = e' := fun hEq => hCard (congrArg Finset.card hEq)
    simp only [hDiffer, decide_false]

/-! ## Changing -/

omit [HashCode α] [LawfulHashCode α] in
theorem keys_insert [EquivBEq α] (f : FiniteMap α Unit) (c : KeyClass α) :
    (f.insert c ()).keys = f.keys ∪ {c} := by
  ext d
  rw [Finmap.mem_keys, Finmap.mem_insert, Finset.mem_union, Finset.mem_singleton,
    Finmap.mem_keys, or_comm]

theorem Holds.insert_map (h : Holds m e) (x : α) :
    Succeeds (m.insert x ()) fun m' => Holds m' (e ∪ {KeyClass.of x}) := by
  obtain ⟨f, hm, rfl⟩ := h
  obtain ⟨es, m', hYields, hm'⟩ := hm.insert_succeeds x ()
  exact ⟨es, m', hYields, _, hm', keys_insert f _⟩

theorem Holds.erase_map (h : Holds m e) (x : α) :
    Succeeds (HashTrieMap.erase m x) fun m' => Holds m' (e.erase (.of x)) := by
  obtain ⟨f, hm, rfl⟩ := h
  obtain ⟨es, m', hYields, hm'⟩ := hm.erase_succeeds x
  exact ⟨es, m', hYields, _, hm', Finmap.keys_erase _ _⟩

theorem union_of_mem (h : KeyClass.of x ∈ e) : e ∪ {KeyClass.of x} = e :=
  Finset.union_eq_left.mpr (Finset.singleton_subset_iff.mpr h)

/-- An element that is there stays as it is stored. -/
theorem Holds.insert (h : Holds s.map e) (x : α) :
    Succeeds (HashTrieSet.insert s x) fun s' => Holds s'.map (e ∪ {KeyClass.of x}) := by
  apply (succeeds_lift (h.contains_eq x) rfl).bind
  rintro _ rfl
  split
  · next hIn =>
    rw [union_of_mem (of_decide_eq_true hIn)]
    exact succeeds_pure h
  · exact (h.insert_map x).bind fun _ hm => succeeds_pure hm

theorem Holds.erase (h : Holds s.map e) (x : α) :
    Succeeds (HashTrieSet.erase s x) fun s' => Holds s'.map (e.erase (.of x)) := by
  apply (succeeds_lift (h.contains_eq x) rfl).bind
  rintro _ rfl
  split
  · exact (h.erase_map x).bind fun _ hm => succeeds_pure hm
  · next hOut =>
    rw [Finset.erase_eq_of_notMem fun hIn => hOut (decide_eq_true hIn)]
    exact succeeds_pure h

/-! ## Transients -/

theorem Holds.transient (h : Holds s.map e) : Holds s.transient.map.map e := h.stamped _

theorem Holds.add (h : Holds t.map.map e) (x : α) :
    Succeeds (t.add x) fun r =>
      r.1 = decide (KeyClass.of x ∉ e) ∧ Holds r.2.map.map (e ∪ {KeyClass.of x}) := by
  apply (succeeds_lift (h.contains_eq x) rfl).bind
  rintro _ rfl
  split
  · next hIn =>
    have hIn := of_decide_eq_true hIn
    rw [union_of_mem hIn]
    exact succeeds_pure ⟨(decide_eq_false (not_not.mpr hIn)).symm, h⟩
  · next hOut =>
    have hOut : KeyClass.of x ∉ e := fun hIn => hOut (decide_eq_true hIn)
    obtain ⟨f, hm, rfl⟩ := h
    apply (hm.insert_transient x ()).bind
    intro u hu
    exact succeeds_pure ⟨(decide_eq_true hOut).symm, _, hu, keys_insert f _⟩

theorem Holds.put (h : Holds t.map.map e) (x : α) :
    Succeeds (t.insert x) fun t' => Holds t'.map.map (e ∪ {KeyClass.of x}) :=
  (h.add x).bind fun _ hr => succeeds_pure hr.2

theorem Holds.take (h : Holds t.map.map e) (x : α) :
    Succeeds (t.take x) fun r =>
      r.1 = decide (KeyClass.of x ∈ e) ∧ Holds r.2.map.map (e.erase (.of x)) := by
  obtain ⟨f, hm, rfl⟩ := h
  apply (hm.take_transient (.writtenBy t.map.map.stamp) x).bind
  rintro ⟨old, u⟩ ⟨rfl, hu⟩
  refine succeeds_pure ⟨?_, _, hu, Finmap.keys_erase _ _⟩
  rw [Bool.eq_iff_iff, decide_eq_true_iff, Finmap.mem_keys, Finmap.lookup_isSome]

theorem Holds.drop (h : Holds t.map.map e) (x : α) :
    Succeeds (t.erase x) fun t' => Holds t'.map.map (e.erase (.of x)) :=
  (h.take x).bind fun _ hr => succeeds_pure hr.2

theorem Holds.freeze (h : Holds t.map.map e) : Succeeds t.freeze fun s => Holds s.map e := by
  obtain ⟨f, hm, rfl⟩ := h
  exact hm.freeze.bind fun _ hm' => succeeds_pure ⟨f, hm', rfl⟩

theorem classes_cons (x : α) (xs : List α) : classes (x :: xs) = {KeyClass.of x} ∪ classes xs := by
  rw [classes, List.map_cons, List.toFinset_cons, Finset.insert_eq]
  rfl

theorem foldl_union (xs : List α) (e : Finset (KeyClass α)) :
    xs.foldl (fun e x => e ∪ {KeyClass.of x}) e = e ∪ classes xs := by
  induction xs generalizing e with
  | nil => exact (Finset.union_empty e).symm
  | cons x xs ih => rw [List.foldl_cons, ih, classes_cons, Finset.union_assoc]

theorem foldl_erase (xs : List α) (e : Finset (KeyClass α)) :
    xs.foldl (fun e x => e.erase (.of x)) e = e \ classes xs := by
  induction xs generalizing e with
  | nil => exact Finset.sdiff_empty.symm
  | cons x xs ih =>
    rw [List.foldl_cons, ih, classes_cons, Finset.erase_eq, sdiff_sdiff_left]
    rfl

theorem foldl_common (xs : List α) (e e' : Finset (KeyClass α)) :
    xs.foldl (fun e x => if KeyClass.of x ∈ e' then e ∪ {KeyClass.of x} else e) e =
      e ∪ classes xs ∩ e' := by
  induction xs generalizing e with
  | nil => exact (Finset.union_empty e).symm
  | cons x xs ih =>
    rw [List.foldl_cons, ih, classes_cons, Finset.union_inter_distrib_right]
    split
    · next hIn => rw [Finset.singleton_inter_of_mem hIn, Finset.union_assoc]
    · next hOut => rw [Finset.singleton_inter_of_notMem hOut, Finset.empty_union]

theorem Holds.extend (h : Holds t.map.map e) (xs : List α) :
    Succeeds (t.extend xs) fun t' => Holds t'.map.map (e ∪ classes xs) := by
  rw [← foldl_union]
  exact succeeds_foldlM (R := fun (t : Transient α) e => Holds t.map.map e)
    (fun t e x ht => ht.put x) xs h

theorem Call.run_holds {s t : Mode} (call : Call α s t) {held : Held α s}
    (h : Holds held.content e) :
    Succeeds (call.run held) fun r =>
      r.1 = (call.reference e).1 ∧ Holds r.2.content (call.reference e).2 := by
  cases call with
  | insert x => exact (Holds.insert h x).bind fun _ hs => succeeds_pure ⟨rfl, hs⟩
  | erase x => exact (Holds.erase h x).bind fun _ hs => succeeds_pure ⟨rfl, hs⟩
  | transient => exact succeeds_pure ⟨rfl, Holds.transient h⟩
  | add x => exact (Holds.add h x).bind fun _ hr => succeeds_pure ⟨congrArg ([·]) hr.1, hr.2⟩
  | put x => exact (Holds.put h x).bind fun _ ht => succeeds_pure ⟨rfl, ht⟩
  | take x => exact (Holds.take h x).bind fun _ hr => succeeds_pure ⟨congrArg ([·]) hr.1, hr.2⟩
  | drop x => exact (Holds.drop h x).bind fun _ ht => succeeds_pure ⟨rfl, ht⟩
  | extend xs => exact (Holds.extend h xs).bind fun _ ht => succeeds_pure ⟨rfl, ht⟩
  | freeze => exact (Holds.freeze h).bind fun _ hs => succeeds_pure ⟨rfl, hs⟩

/-! ## Set algebra -/

theorem Holds.absorb {big small : HashTrieSet α} (h : Holds big.map e) (h' : Holds small.map e') :
    Succeeds (do
      if small.isEmpty then return big
      else (← big.transient.extend small.toList).freeze) fun u => Holds u.map (e ∪ e') := by
  split
  · next hEmpty =>
    rw [h'.isEmpty_iff.mp hEmpty, Finset.union_empty]
    exact succeeds_pure h
  · rw [← h'.classes_keys]
    exact (h.transient.extend small.toList).bind fun _ ht => ht.freeze

theorem Holds.union (h : Holds s.map e) (h' : Holds other.map e') :
    Succeeds (s.union other) fun u => Holds u.map (e ∪ e') := by
  unfold HashTrieSet.union
  by_cases hSize : s.size ≥ other.size
  · rw [if_pos hSize]
    exact h.absorb h'
  · rw [if_neg hSize, Finset.union_comm]
    exact h'.absorb h

theorem Holds.common {big small : HashTrieSet α} (h : Holds small.map e) (h' : Holds big.map e') :
    Succeeds (do (← small.toList.foldlM big.intersectionStep Transient.empty).freeze) fun u =>
      Holds u.map (e ∩ e') := by
  have hEmpty : Holds (Transient.map (Transient.empty (α := α))).map ∅ := holds_empty
  have hStep : ∀ (t : Transient α) d x, Holds t.map.map d →
      Succeeds (big.intersectionStep t x) fun t' =>
        Holds t'.map.map (if KeyClass.of x ∈ e' then d ∪ {KeyClass.of x} else d) := by
    intro t d x ht
    apply (succeeds_lift (h'.contains_eq x) rfl).bind
    rintro _ rfl
    split
    · next hIn =>
      rw [if_pos (of_decide_eq_true hIn)]
      exact ht.put x
    · next hOut =>
      rw [if_neg fun hIn => hOut (decide_eq_true hIn)]
      exact succeeds_pure ht
  have hFold := succeeds_foldlM (R := fun (t : Transient α) d => Holds t.map.map d) hStep
    small.toList hEmpty
  rw [foldl_common, Finset.empty_union, toList, h.classes_keys] at hFold
  exact hFold.bind fun _ ht => ht.freeze

theorem Holds.intersection (h : Holds s.map e) (h' : Holds other.map e') :
    Succeeds (s.intersection other) fun u => Holds u.map (e ∩ e') := by
  unfold HashTrieSet.intersection
  by_cases hSize : s.size ≤ other.size
  · rw [if_pos hSize]
    exact h.common h'
  · rw [if_neg hSize, Finset.inter_comm]
    exact h'.common h

/-- The elements of the first set that are not in the second. -/
theorem Holds.difference (h : Holds s.map e) (h' : Holds other.map e') :
    Succeeds (s.difference other) fun u => Holds u.map (e \ e') := by
  have hFold := succeeds_foldlM (R := fun (t : Transient α) d => Holds t.map.map d)
    (fun t d x ht => ht.drop x) other.toList h.transient
  rw [foldl_erase, toList, h'.classes_keys] at hFold
  exact hFold.bind fun _ ht => ht.freeze

/-! ## Hashes -/

/-- Equal elements have one hash. -/
def classHash (c : KeyClass α) : UInt32 :=
  Quotient.lift hashCode (fun _ _ h => LawfulHashCode.hashCode_eq h) c

theorem Holds.contentHash_eq (h : Holds s.map e) :
    s.contentHash = Hash.unordered (e.toList.map classHash) := by
  -- the order of the elements is that of the trie, so the two lists are compared up to order
  have hPerm : (s.toList.map KeyClass.of).Perm e.toList := by
    apply List.perm_of_nodup_nodup_toFinset_eq h.nodup_keys e.nodup_toList
    rw [Finset.toList_toFinset]
    exact h.classes_keys
  have hHashes : s.toList.map hashCode = (s.toList.map KeyClass.of).map classHash := by
    rw [List.map_map]
    rfl
  rw [contentHash, hHashes]
  exact Hash.unordered_perm (hPerm.map classHash)

end Reference

end PersistentCollections.HashTrieSet
