import PersistentCollections.Proofs.HashTrieMap.Cache
import PersistentCollections.Proofs.HashTrieSet.History

/-!
# Kept hashes of hash sets

A set keeps a hash of its own, next to the one that its map might keep. A change makes a set without
a hash or leaves the set as it is, and so do union, intersection and difference. What its map keeps
follows the changes of the map (`Call.run_fresh`).
-/

namespace PersistentCollections.HashTrieSet

open HashTrieMap (KeyClass)

variable {α : Type} [BEq α] [HashCode α] {s other : HashTrieSet α} {t : Transient α}

/-- The hashes that a set and its map keep are those of the elements and of the entries. -/
structure Fresh (s : HashTrieSet α) : Prop where
  own : ∀ h ∈ s.cache, h = s.contentHash
  map : s.map.Fresh

omit [BEq α] in
theorem Fresh.hash_eq (h : s.Fresh) : s.hash = s.contentHash := getD_eq_of_fresh h.own

omit [BEq α] in
theorem fresh_ofMap {m : HashTrieMap α Unit} (h : m.Fresh) : (ofMap m).Fresh :=
  ⟨fun _ hk => (nomatch hk), h⟩

omit [BEq α] in
theorem Fresh.hashed (h : s.Fresh) : s.hashed.Fresh := by
  refine ⟨?_, h.map⟩
  intro k hk
  cases hk
  exact h.hash_eq

omit [BEq α] in
theorem Fresh.stamped (h : s.Fresh) (stamp : Nat) : (s.stamped stamp).Fresh := by
  refine ⟨?_, h.map.stamped stamp⟩
  intro k hk
  rw [h.own k hk]
  rfl

theorem Fresh.insert (h : s.Fresh) (x : α) :
    Ensures (HashTrieSet.insert s x) fun s' => s'.Fresh := by
  refine (ensures_true _).bind fun found _ => ?_
  split
  · exact ensures_pure h
  · exact (HashTrieMap.insert_fresh s.map x ()).bind fun _ hm => ensures_pure (fresh_ofMap hm)

/-- The kept hash of the map of a transient is that of its entries. -/
theorem add_fresh (h : t.map.map.Fresh) (x : α) :
    Ensures (t.add x) fun r => r.2.map.map.Fresh := by
  refine (ensures_true _).bind fun found _ => ?_
  split
  · exact ensures_pure h
  · exact (HashTrieMap.insert_transient_fresh t.map x ()).bind fun _ hm => ensures_pure hm

theorem put_fresh (h : t.map.map.Fresh) (x : α) :
    Ensures (t.insert x) fun t' => t'.map.map.Fresh :=
  (add_fresh h x).bind fun _ hr => ensures_pure hr

theorem extend_fresh (h : t.map.map.Fresh) (xs : List α) :
    Ensures (t.extend xs) fun t' => t'.map.map.Fresh :=
  ensures_foldlM (P := fun t : Transient α => t.map.map.Fresh) (fun _ x ht => put_fresh ht x) xs h

omit [BEq α] in
theorem freeze_fresh (h : t.map.map.Fresh) : Ensures t.freeze fun s => s.Fresh :=
  h.freeze.bind fun _ hm => ensures_pure (fresh_ofMap hm)

theorem Fresh.union (h : s.Fresh) (h' : other.Fresh) :
    Ensures (s.union other) fun u => u.Fresh := by
  have hAbsorb : ∀ big small : HashTrieSet α, big.Fresh → Ensures (do
      if small.isEmpty then return big
      else (← big.transient.extend small.toList).freeze) fun u => u.Fresh := by
    intro big small hBig
    split
    · exact ensures_pure hBig
    · have hTransient : big.transient.map.map.Fresh := hBig.map.stamped _
      exact (extend_fresh hTransient small.toList).bind fun _ ht => freeze_fresh ht
  unfold HashTrieSet.union
  by_cases hSize : s.size ≥ other.size
  · rw [if_pos hSize]
    exact hAbsorb s other h
  · rw [if_neg hSize]
    exact hAbsorb other s h'

theorem intersection_fresh (s other : HashTrieSet α) :
    Ensures (s.intersection other) fun u => u.Fresh := by
  have hCommon : ∀ big small : HashTrieSet α, Ensures (do
      (← small.toList.foldlM big.intersectionStep Transient.empty).freeze) fun u => u.Fresh := by
    intro big small
    have hStep : ∀ (t : Transient α) x, t.map.map.Fresh →
        Ensures (big.intersectionStep t x) fun t' => t'.map.map.Fresh := by
      intro t x ht
      refine (ensures_true _).bind fun found _ => ?_
      split
      · exact put_fresh ht x
      · exact ensures_pure ht
    have hEmpty : (Transient.map (Transient.empty (α := α))).map.Fresh :=
      HashTrieMap.Fresh.of_cache rfl
    exact (ensures_foldlM (P := fun t : Transient α => t.map.map.Fresh) hStep small.toList
      hEmpty).bind fun _ ht => freeze_fresh ht
  unfold HashTrieSet.intersection
  by_cases hSize : s.size ≤ other.size
  · rw [if_pos hSize]
    exact hCommon other s
  · rw [if_neg hSize]
    exact hCommon s other

variable [LawfulHashCode α]

theorem Fresh.erase (h : s.Fresh) (hw : s.map.WellFormed) (x : α) :
    Ensures (HashTrieSet.erase s x) fun s' => s'.Fresh := by
  refine (ensures_true _).bind fun found _ => ?_
  split
  · exact (h.map.erase hw x).bind fun _ hm => ensures_pure (fresh_ofMap hm)
  · exact ensures_pure h

theorem take_fresh (h : t.map.map.Fresh) (hw : t.map.map.WellFormed) (x : α) :
    Ensures (t.take x) fun r => r.2.map.map.Fresh :=
  (h.takeWith hw (.writtenBy t.map.map.stamp) x).bind fun _ hm => ensures_pure hm

theorem drop_fresh (h : t.map.map.Fresh) (hw : t.map.map.WellFormed) (x : α) :
    Ensures (t.erase x) fun t' => t'.map.map.Fresh :=
  (take_fresh h hw x).bind fun _ hr => ensures_pure hr

/-- A removal needs a well-formed trie to find out that there is nothing to remove. -/
theorem Fresh.difference {e : Finset (KeyClass α)} (h : s.Fresh) (hs : Holds s.map e)
    (other : HashTrieSet α) : Ensures (s.difference other) fun u => u.Fresh := by
  have hStep : ∀ (t : Transient α) x, (∃ e, Holds t.map.map e) ∧ t.map.map.Fresh →
      Ensures (t.erase x) fun t' => (∃ e, Holds t'.map.map e) ∧ t'.map.map.Fresh := by
    rintro t x ⟨⟨e, ht⟩, hf⟩
    exact ((ht.drop x).ensures.mono fun _ ht' => ⟨_, ht'⟩).and (drop_fresh hf ht.wellFormed x)
  have hTransient : s.transient.map.map.Fresh := h.map.stamped _
  exact (ensures_foldlM hStep other.toList ⟨⟨e, hs.transient⟩, hTransient⟩).bind
    fun _ ht => freeze_fresh ht.2

/-- What is held keeps hashes of what it has. -/
def Held.Fresh : {s : Mode} → Held α s → Prop
  | .frozen, s => HashTrieSet.Fresh s
  | .building, t => HashTrieMap.Fresh (Held.content (s := .building) t)

/-- A call leads to hashes that are fresh, or to none. -/
theorem Call.run_fresh {s t : Mode} (call : Call α s t) {held : Held α s}
    (hw : held.content.WellFormed) (h : held.Fresh) :
    Ensures (call.run held) fun r => r.2.Fresh := by
  cases call with
  | insert x => exact (Fresh.insert h x).bind fun _ h' => ensures_pure h'
  | erase x => exact (Fresh.erase h hw x).bind fun _ h' => ensures_pure h'
  | transient => exact ensures_pure (HashTrieMap.Fresh.stamped h.map _)
  | add x => exact (add_fresh h x).bind fun _ h' => ensures_pure h'
  | put x => exact (put_fresh h x).bind fun _ h' => ensures_pure h'
  | take x => exact (take_fresh h hw x).bind fun _ h' => ensures_pure h'
  | drop x => exact (drop_fresh h hw x).bind fun _ h' => ensures_pure h'
  | extend xs => exact (extend_fresh h xs).bind fun _ h' => ensures_pure h'
  | freeze => exact (freeze_fresh h).bind fun _ h' => ensures_pure h'

end PersistentCollections.HashTrieSet
