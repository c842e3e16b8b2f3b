import PersistentCollections.HashTrieMap.Bitmap

/-!
# Bitmaps and ranks

A bitmap is a set of positions below `width`, and `rank` numbers its members in order. Adding a
member moves up the ranks above it by one, taking one out moves them down. A partial function on
positions whose domain is the bitmap is listed in the order of ranks: its value at a member `p` is
the item at index `rank p` (`getElem?_rank_filterMap`).
-/

namespace PersistentCollections.HashTrieMap.Bitmap

variable {b : Bitmap} {p q n : Nat}

theorem has_empty (p : Nat) : Bitmap.empty.has p = false := by
  simp [has, empty]

theorem lt_width_of_has (h : b.has p = true) : p < width := BitVec.lt_of_getLsbD h

theorem has_insert (hp : p < width) (q : Nat) :
    (b.insert p).has q = (decide (q = p) || b.has q) := by
  simp only [width] at hp
  simp only [has, insert, BitVec.getLsbD_or, BitVec.getLsbD_twoPow]
  by_cases h : q = p
  · subst h
    simp [hp]
  · have h' : ¬ p = q := fun e => h e.symm
    simp [h, h']

theorem has_toggle (hp : p < width) (q : Nat) :
    (b.toggle p).has q = if q = p then !b.has p else b.has q := by
  simp only [width] at hp
  simp only [has, toggle, BitVec.getLsbD_xor, BitVec.getLsbD_twoPow]
  by_cases h : q = p
  · subst h
    simp [hp]
  · have h' : ¬ p = q := fun e => h e.symm
    simp [h, h']

theorem rank_mono (b : Bitmap) (h : p ≤ q) : b.rank p ≤ b.rank q := by
  induction h with
  | refl => exact Nat.le_refl _
  | step _ ih => exact Nat.le_trans ih (Nat.le_add_right _ _)

theorem rank_lt_count (h : b.has p = true) : b.rank p < b.count := by
  have hs : b.rank (p + 1) = b.rank p + 1 := by rw [rank, h]; rfl
  have hm : b.rank (p + 1) ≤ b.count := b.rank_mono (lt_width_of_has h)
  omega

theorem rank_lt_rank (hp : b.has p = true) (h : p < q) : b.rank p < b.rank q := by
  have hs : b.rank (p + 1) = b.rank p + 1 := by rw [rank, hp]; rfl
  have hm : b.rank (p + 1) ≤ b.rank q := b.rank_mono h
  omega

theorem rank_ne_rank (hp : b.has p = true) (hq : b.has q = true) (h : q ≠ p) :
    b.rank q ≠ b.rank p := by
  rcases Nat.lt_or_gt_of_ne h with hlt | hlt
  · exact Nat.ne_of_lt (rank_lt_rank hq hlt)
  · exact Nat.ne_of_gt (rank_lt_rank hp hlt)

theorem rank_empty (q : Nat) : Bitmap.empty.rank q = 0 := by
  induction q with
  | zero => rfl
  | succ q ih => rw [rank, ih, has_empty]; rfl

theorem rank_insert (hw : p < width) (hp : b.has p = false) (q : Nat) :
    (b.insert p).rank q = b.rank q + if p < q then 1 else 0 := by
  induction q with
  | zero => rfl
  | succ q ih =>
    rw [rank, rank, ih, has_insert hw]
    by_cases h : q = p
    · subst h
      simp [hp]
    · have hlt : p < q + 1 ↔ p < q := by omega
      simp only [h, decide_false, Bool.false_or, hlt]
      omega

theorem rank_toggle (hw : p < width) (hp : b.has p = true) (q : Nat) :
    (b.toggle p).rank q + (if p < q then 1 else 0) = b.rank q := by
  induction q with
  | zero => rfl
  | succ q ih =>
    rw [rank, rank, has_toggle hw]
    by_cases h : q = p
    · subst h
      simp [hp] at ih ⊢
      exact ih
    · have hlt : p < q + 1 ↔ p < q := by omega
      simp only [h, if_false, hlt]
      omega

theorem count_insert (hw : p < width) (hp : b.has p = false) :
    (b.insert p).count = b.count + 1 := by
  rw [count, rank_insert hw hp, if_pos hw, count]

theorem count_toggle (hw : p < width) (hp : b.has p = true) :
    (b.toggle p).count + 1 = b.count := by
  have h := rank_toggle hw hp width
  rwa [if_pos hw] at h

/-- A bitmap with members below `n` only has at most `n` of them. -/
theorem rank_le (h : ∀ p, b.has p = true → p < n) (q : Nat) : b.rank q ≤ n := by
  have hm : b.rank q ≤ min q n := by
    induction q with
    | zero => exact Nat.zero_le _
    | succ q ih =>
      rw [rank]
      by_cases hq : b.has q = true
      · have := h q hq
        rw [hq, Bool.toNat_true]
        omega
      · rw [Bool.eq_false_iff.mpr hq, Bool.toNat_false]
        omega
  omega

/-! ## Functions on the members of a bitmap -/

/-- The number of positions below `p` at which a partial function is defined. -/
theorem length_filterMap_range {α : Type} {f : Nat → Option α}
    (h : ∀ q, q < p → b.has q = (f q).isSome) :
    ((List.range p).filterMap f).length = b.rank p := by
  induction p with
  | zero => rfl
  | succ p ih =>
    rw [List.range_succ, List.filterMap_append, List.length_append,
      ih fun q hq => h q (Nat.lt_succ_of_lt hq), rank, h p (Nat.lt_succ_self p)]
    cases hf : f p with
    | none => simp [hf]
    | some a => simp [hf]

/-- The positions below `width`, cut at one of them. -/
theorem range_width (hp : p < width) :
    List.range width = List.range p ++ p :: List.range' (p + 1) (width - (p + 1)) := by
  have hJoin := @List.range'_append_1 0 p (width - p)
  have hTail : width - p = width - (p + 1) + 1 := by omega
  rw [Nat.zero_add, Nat.add_sub_cancel' (Nat.le_of_lt hp)] at hJoin
  rw [List.range_eq_range', List.range_eq_range', ← hJoin, hTail, List.range'_succ]

/-- The values of a function on positions, cut at a position where it has the value `o`. -/
theorem filterMap_range_width {α : Type} (f : Nat → Option α) (hp : p < width) :
    (List.range width).filterMap f =
      (List.range p).filterMap f ++
        (f p).toList ++ (List.range' (p + 1) (width - (p + 1))).filterMap f := by
  rw [range_width hp, List.filterMap_append, List.append_assoc]
  congr 1
  cases hf : f p with
  | none => simp [hf]
  | some a => simp [hf]

theorem getElem?_rank_filterMap {α : Type} {f : Nat → Option α}
    (h : ∀ q, q < width → b.has q = (f q).isSome) (hp : b.has p = true) :
    ((List.range width).filterMap f)[b.rank p]? = f p := by
  have hw : p < width := lt_width_of_has hp
  have hl := length_filterMap_range (p := p) fun q hq => h q (Nat.lt_trans hq hw)
  obtain ⟨a, ha⟩ := Option.isSome_iff_exists.mp ((h p hw).symm.trans hp)
  rw [filterMap_range_width f hw, ha, ← hl, List.append_assoc,
    List.getElem?_append_right (Nat.le_refl _), Nat.sub_self]
  rfl

end PersistentCollections.HashTrieMap.Bitmap
