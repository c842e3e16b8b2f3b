import PersistentCollections.Proofs.TrieVector.Layout

/-!
# Changing a vector

What the changes of a vector do to its leaves and its tail, and so to the elements that it holds.

* `Holds.push`, `Holds.extend`: an append puts the element into the tail, or the full tail into the
  trie. The height stays the least one, and a record is left exactly where it grows.
* `Holds.put_inside`, `Holds.put_end`, `Holds.put_outside`: an element is overwritten in its leaf
  or in the tail, appended, or refused.
* `Holds.pop`, `Holds.pop_nil`: a removal is the way back. It shortens the tail, or takes the last
  leaf of the trie for the tail, and one level at most is too many then (`collapse_ofLeaves`).
-/

namespace PersistentCollections.TrieVector

variable {α : Type} {v : TrieVector α} {ls : List (Array α)} {l : List α}

/-! ## Appending -/

/-- An element fits into the tail. -/
theorem Layout.push_tail (h : Layout v ls) (x : α) (hRoom : v.tail.size < width) :
    ∃ v', Yields (v.push x) [] v' ∧ v'.size = v.size + 1 ∧ v'.height = v.height ∧
      v'.tail = v.tail.push x ∧ Layout v' ls := by
  have hSize := h.size
  have hTest : v.size - v.tailOffset < width := by
    rw [h.tailOffset_eq]
    omega
  refine ⟨{ v with size := v.size + 1, tail := v.tail.push x, cache := none }, ?_, rfl, rfl, rfl,
    ⟨h.root, ?_, h.full, ?_, fun _ => ?_, h.shift⟩⟩
  · rw [push, if_pos hTest, if_pos hRoom]
    exact yields_pure _
  · simp only [Array.size_push]
    omega
  · simp only [Array.size_push]
    omega
  · simp only [Array.size_push]
    omega

/-- The vector with the tail among its leaves, and a new tail. -/
theorem Layout.concat (h : Layout v ls) (x : α) (hTail : v.tail.size = width) {height : Nat}
    (hShift : leastShift (ls.length + 1) = 5 * height) :
    Layout ⟨v.size + 1, height, Node.ofLeaves height (ls ++ [v.tail]), #[x], none⟩
      (ls ++ [v.tail]) := by
  have hSize := h.size
  have hLength : (ls ++ [v.tail]).length = ls.length + 1 := List.length_append
  refine ⟨rfl, ?_, h.full.concat hTail, Nat.le_add_left 1 31, fun _ => Nat.one_pos, ?_⟩
  · rw [hLength, Nat.mul_succ, ← hTail]
    show v.size + 1 = _ + 1
    rw [hSize, hTail]
  · rw [hLength]
    exact hShift

/-- A full tail is seen from the size, -/
theorem Layout.tail_overflows (h : Layout v ls) (hTail : v.tail.size = width) :
    ¬ v.size - v.tailOffset < width := by
  have hSize := h.size
  rw [h.tailOffset_eq]
  omega

/-- and so is then a full trie. -/
theorem Layout.trie_overflows (h : Layout v ls) (hTail : v.tail.size = width) :
    v.size / width > Nat.pow 2 v.shift ↔ ls.length = capacity v.height := by
  have hRoom := h.height_spec.2.1
  have hPow : Nat.pow 2 v.shift = capacity v.height := (capacity_eq_two_pow v.height).symm
  have hDiv : v.size / width = ls.length + 1 := by
    have hSize := h.size
    simp only [width] at *
    omega
  rw [hPow, hDiv]
  omega

/-- A full tail goes into a trie that has room for it. -/
theorem Layout.push_leaf (h : Layout v ls) (x : α) (hTail : v.tail.size = width)
    (hRoom : ls.length < capacity v.height) :
    ∃ v', Yields (v.push x) [] v' ∧ v'.size = v.size + 1 ∧ v'.height = v.height ∧
      v'.tail = #[x] ∧ Layout v' (ls ++ [v.tail]) := by
  obtain ⟨hPos, -, hLeast⟩ := h.height_spec
  obtain ⟨k, hk⟩ : ∃ k, v.height = k + 1 := ⟨v.height - 1, by omega⟩
  have hTrie : ¬ v.size / width > Nat.pow 2 v.shift := fun hOver =>
    Nat.ne_of_lt hRoom ((h.trie_overflows hTail).mp hOver)
  have hPlace : place (v.size - 1) (k + 1) = ls.length := by
    have hDiv : (v.size - 1) / width = ls.length := by
      have hSize := h.size
      simp only [width] at *
      omega
    rw [place, hDiv, ← hk, Nat.mod_eq_of_lt hRoom]
  have hPush := Node.pushLeaf_ofLeaves v.tail hPlace
  rw [← hk, ← h.root] at hPush
  have hShift : leastShift (ls.length + 1) = 5 * v.height :=
    leastShift_eq hPos hRoom fun hOne => Nat.lt_succ_of_lt (hLeast hOne)
  have hLayout := h.concat x hTail hShift
  refine ⟨_, ?_, ?_, ?_, ?_, hLayout⟩
  · rw [push, if_neg (h.tail_overflows hTail), if_neg hTrie]
    exact (yields_lift hPush).pass (yields_pure _)
  · rfl
  · rfl
  · rfl

/-- A full tail goes above a full trie, which gains a level. -/
theorem Layout.push_level (h : Layout v ls) (x : α) (hTail : v.tail.size = width)
    (hFull : ls.length = capacity v.height) :
    ∃ v', Yields (v.push x) [.vectorGrew v'.shift v.size] v' ∧ v'.size = v.size + 1 ∧
      v'.height = v.height + 1 ∧ v'.tail = #[x] ∧ Layout v' (ls ++ [v.tail]) := by
  have hTrie := (h.trie_overflows hTail).mpr hFull
  have hShift : leastShift (ls.length + 1) = 5 * (v.height + 1) := by
    have hw := capacity_pos v.height
    refine leastShift_eq (Nat.le_add_left 1 _) ?_ fun _ => ?_
    · rw [capacity_succ]
      omega
    · rw [Nat.add_sub_cancel]
      omega
  have hLayout := h.concat x hTail hShift
  rw [← Node.ofLeaves_grown v.tail hFull, ← h.root] at hLayout
  refine ⟨_, ?_, ?_, ?_, ?_, hLayout⟩
  · rw [push, if_neg (h.tail_overflows hTail), if_pos hTrie]
    exact (yields_record _).bind (yields_pure _)
  · rfl
  · rfl
  · rfl

/-- The records of an append, read off the vectors before and after it. -/
theorem Layout.growth_eq {v' : TrieVector α} {ls' : List (Array α)} (h : Layout v ls)
    (h' : Layout v' ls') (hSize : v'.size = v.size + 1) :
    growth v.size = if v.height < v'.height then [.vectorGrew v'.shift v.size] else [] := by
  have hShift : v.shift < v'.shift ↔ v.height < v'.height := by
    rw [TrieVector.shift, TrieVector.shift]
    omega
  rw [growth, ← hSize, h.leafCount_eq, h'.leafCount_eq, h.shift, h'.shift]
  simp only [hShift]

/-- An append puts one element behind the others, and leaves a record if the trie gets higher. -/
theorem Holds.push (h : Holds v l) (x : α) :
    ∃ v', Yields (v.push x) (growth l.length) v' ∧ Holds v' (l ++ [x]) := by
  rw [← h.size_eq]
  obtain ⟨ls, hLayout, rfl⟩ := h
  rcases Nat.lt_or_eq_of_le hLayout.room with hTail | hTail
  · obtain ⟨v', hYields, hSize, hHeight, hTail', hLayout'⟩ := hLayout.push_tail x hTail
    refine ⟨v', ?_, ls, hLayout', ?_⟩
    · rwa [hLayout.growth_eq hLayout' hSize, hHeight, if_neg (Nat.lt_irrefl _)]
    · rw [hTail', Array.toList_push, List.append_assoc]
  · rcases Nat.lt_or_eq_of_le hLayout.height_spec.2.1 with hRoom | hFull
    · obtain ⟨v', hYields, hSize, hHeight, hTail', hLayout'⟩ := hLayout.push_leaf x hTail hRoom
      refine ⟨v', ?_, _, hLayout', ?_⟩
      · rwa [hLayout.growth_eq hLayout' hSize, hHeight, if_neg (Nat.lt_irrefl _)]
      · rw [hTail', items_concat]
    · obtain ⟨v', hYields, hSize, hHeight, hTail', hLayout'⟩ := hLayout.push_level x hTail hFull
      refine ⟨v', ?_, _, hLayout', ?_⟩
      · rwa [hLayout.growth_eq hLayout' hSize, hHeight, if_pos (Nat.lt_succ_self _)]
      · rw [hTail', items_concat]

/-- The records of appending so many elements to a vector of a size. -/
def growths : (size count : Nat) → List Event
  | _, 0 => []
  | size, count + 1 => growth size ++ growths (size + 1) count

theorem Holds.extend (h : Holds v l) (xs : List α) :
    ∃ v', Yields (v.extend xs) (growths l.length xs.length) v' ∧ Holds v' (l ++ xs) := by
  induction xs generalizing v l with
  | nil => exact ⟨v, yields_pure v, by rwa [List.append_nil]⟩
  | cons x xs ih =>
    obtain ⟨v₁, hYields₁, h₁⟩ := h.push x
    obtain ⟨v₂, hYields₂, h₂⟩ := ih h₁
    rw [List.length_append, List.length_singleton] at hYields₂
    rw [List.append_assoc] at h₂
    refine ⟨v₂, ?_, h₂⟩
    rw [TrieVector.extend, List.foldlM_cons]
    exact hYields₁.bind hYields₂

/-! ## Replacing -/

/-- An element of the tail. -/
theorem Layout.overwrite_tail (h : Layout v ls) {index : Nat} (x : α)
    (hTail : width * ls.length ≤ index) (hIndex : index < v.size) :
    ∃ v', v.overwrite index x = .ok v' ∧ Layout v' ls ∧
      v'.tail.toList = v.tail.toList.set (index - width * ls.length) x := by
  have hSize := h.size
  have hRoom := h.room
  have hPlace : index % width = index - width * ls.length := by
    simp only [width] at *
    omega
  have hItem : index % width < v.tail.size := by omega
  rw [overwrite, h.tailOffset_eq, if_pos hTail, dif_pos hItem]
  refine ⟨_, rfl, ⟨h.root, ?_, h.full, ?_, ?_, h.shift⟩, ?_⟩
  · simpa only [Array.size_set] using h.size
  · simpa only [Array.size_set] using h.room
  · simpa only [Array.size_set] using h.tail
  · rw [Array.toList_set, hPlace]

/-- An element of the trie. -/
theorem Layout.overwrite_leaf (h : Layout v ls) {index : Nat} (x : α)
    (hIndex : index < width * ls.length) :
    ∃ v' ls', v.overwrite index x = .ok v' ∧ Layout v' ls' ∧ v'.tail = v.tail ∧
      items ls' = (items ls).set index x := by
  have hPlace : index / width < ls.length := Nat.div_lt_of_lt_mul hIndex
  have hLeaf := List.getElem?_eq_getElem hPlace
  have hFull := h.full _ (List.getElem_mem hPlace)
  have hItem : index % width < ls[index / width].size := by
    rw [hFull]
    exact Nat.mod_lt index (by decide)
  have hAt : ls[place index v.height]? = some ls[index / width] := by
    rw [h.place_eq hPlace, hLeaf]
  have hSet := Node.setAt_ofLeaves x hAt hItem
  rw [← h.root, h.place_eq hPlace] at hSet
  rw [overwrite, h.tailOffset_eq, if_neg (Nat.not_le_of_lt hIndex), hSet, Result.bind_ok]
  refine ⟨_, _, rfl, ⟨rfl, ?_, h.full.set _ ?_, h.room, h.tail, ?_⟩, rfl, ?_⟩
  · rw [List.length_set]
    exact h.size
  · rw [Array.size_set]
    exact hFull
  · rw [List.length_set]
    exact h.shift
  · rw [h.full.items_set x hLeaf hItem, Nat.div_add_mod]

theorem Holds.overwrite (h : Holds v l) {index : Nat} (hIndex : index < l.length) (x : α) :
    ∃ v', v.overwrite index x = .ok v' ∧ Holds v' (l.set index x) := by
  rw [← h.size_eq] at hIndex
  obtain ⟨ls, hLayout, rfl⟩ := h
  have hItems := hLayout.full.length_items
  rcases Nat.lt_or_ge index (width * ls.length) with hTrie | hTail
  · obtain ⟨v', ls', hOverwrite, hLayout', hTail', hItems'⟩ := hLayout.overwrite_leaf x hTrie
    refine ⟨v', hOverwrite, ls', hLayout', ?_⟩
    rw [hTail', hItems', List.set_append_left _ _ (hItems ▸ hTrie)]
  · obtain ⟨v', hOverwrite, hLayout', hTail'⟩ := hLayout.overwrite_tail x hTail hIndex
    refine ⟨v', hOverwrite, ls, hLayout', ?_⟩
    rw [hTail', List.set_append_right _ _ (hItems ▸ hTail), hItems]

/-- An index below the size is replaced. -/
theorem Holds.put_inside (h : Holds v l) {index : Nat} (hIndex : index < l.length) (x : α) :
    ∃ v', Yields (v.put index x) [] v' ∧ Holds v' (l.set index x) := by
  obtain ⟨v', hOverwrite, h'⟩ := h.overwrite hIndex x
  refine ⟨v', ?_, h'⟩
  rw [put, h.size_eq, if_pos hIndex]
  exact yields_lift hOverwrite

/-- The index behind the last element is appended. -/
theorem Holds.put_end (h : Holds v l) (x : α) :
    ∃ v', Yields (v.put l.length x) (growth l.length) v' ∧ Holds v' (l ++ [x]) := by
  rw [put, h.size_eq, if_neg (Nat.lt_irrefl _), if_pos rfl]
  exact h.push x

/-- Any other index is an error. -/
theorem Holds.put_outside (h : Holds v l) {index : Nat} (hIndex : l.length < index) (x : α) :
    Stops (v.put index x) (.indexOutOfBounds index l.length) := by
  rw [put, h.size_eq, if_neg (Nat.not_lt_of_gt hIndex), if_neg (Nat.ne_of_gt hIndex)]
  exact stops_throw _

/-! ## Dropping the last element -/

/-- A trie that lost a leaf has at most one level to spare, and shows this by an only child. -/
theorem collapse_ofLeaves {height : Nat} (hPos : 1 ≤ height) (hRoom : ls.length ≤ capacity height)
    (hLeast : 1 < height → capacity (height - 1) ≤ ls.length) :
    ∃ height', collapse height (Node.ofLeaves height ls) = .ok (height', Node.ofLeaves height' ls) ∧
      leastShift ls.length = 5 * height' := by
  unfold collapse
  split
  · next hOne =>
    obtain ⟨h, rfl⟩ : ∃ h, height = h + 2 := ⟨height - 2, by omega⟩
    have hLow : capacity (h + 1) ≤ ls.length := hLeast hOne
    have hw := capacity_pos h
    rcases Nat.lt_or_eq_of_le hLow with hMore | hFull
    · have hSize : 1 < (Node.children (h + 1) ls).size :=
        Node.lt_size_children.mpr (by rwa [Nat.mul_one])
      refine ⟨h + 2, ?_, leastShift_eq hPos hRoom fun _ => hMore⟩
      simp only [Node.ofLeaves_succ (h + 1)]
      split
      · next child hChild =>
        rw [← Array.length_toList, hChild, List.length_singleton] at hSize
        exact absurd hSize (Nat.lt_irrefl 1)
      · rfl
    · refine ⟨h + 1, ?_, leastShift_eq (Nat.le_add_left 1 h) (Nat.le_of_eq hFull.symm) fun _ => ?_⟩
      · have hLength : 0 < ls.length := hFull ▸ capacity_pos (h + 1)
        rw [Node.ofLeaves_of_le hLength (Nat.le_of_eq hFull.symm)]
        rfl
      · rw [← hFull, capacity_succ, Nat.add_sub_cancel]
        omega
  · next hOne =>
    exact ⟨height, rfl, leastShift_eq hPos hRoom fun hLt => absurd hLt hOne⟩

/-- A tail with other elements gets shorter. -/
theorem Layout.pop_tail (h : Layout v ls) (hTail : 1 < v.tail.size) :
    ∃ v', v.pop = .ok v' ∧ v'.tail = v.tail.pop ∧ Layout v' ls := by
  have hSize := h.size
  have hRoom := h.room
  have hTest : v.size - v.tailOffset > 1 := by
    rw [h.tailOffset_eq]
    omega
  refine ⟨{ v with size := v.size - 1, tail := v.tail.pop, cache := none }, ?_, rfl,
    ⟨h.root, ?_, h.full, ?_, fun _ => ?_, h.shift⟩⟩
  · rw [pop, if_neg (by omega), if_neg (by omega), if_pos hTest]
    rfl
  · simp only [Array.size_pop]
    omega
  · simp only [Array.size_pop]
    omega
  · simp only [Array.size_pop]
    omega

/-- Behind a tail of one element, the last leaf of the trie becomes the tail. -/
theorem Layout.pop_leaf {a : Array α} (h : Layout v (ls ++ [a])) (hTail : v.tail.size = 1) :
    ∃ v', v.pop = .ok v' ∧ v'.tail = a ∧ Layout v' ls := by
  have hSize := h.size
  have hLength : (ls ++ [a]).length = ls.length + 1 := List.length_append
  have hItems : a.size = width := h.full a (List.mem_append_right _ List.mem_cons_self)
  have hFull : Full ls := fun b hb => h.full b (List.mem_append_left _ hb)
  obtain ⟨hPos, hRoom, hLeast⟩ := h.height_spec
  obtain ⟨k, hk⟩ : ∃ k, v.height = k + 1 := ⟨v.height - 1, by omega⟩
  rw [hLength] at hSize hRoom hLeast
  rw [hTail, Nat.mul_succ] at hSize
  have hPlace : place (v.size - 2) v.height = ls.length := by
    have hDiv : (v.size - 2) / width = ls.length := by
      simp only [width] at *
      omega
    rw [h.place_eq (by omega), hDiv]
  have hLeaf : v.leafFor (v.size - 2) = .ok a := by
    have hTrie : ¬ v.tailOffset ≤ v.size - 2 := by
      rw [h.tailOffset_eq, hLength, Nat.mul_succ]
      simp only [width] at *
      omega
    rw [leafFor, if_neg hTrie, h.root]
    exact Node.leafAt_ofLeaves (by rw [hPlace, List.getElem?_concat_length])
  have hPop : v.root.popLeaf v.size v.height = .ok (Node.ofLeaves v.height ls) := by
    rw [h.root, hk]
    exact Node.popLeaf_ofLeaves a (hk ▸ hPlace)
  obtain ⟨height', hCollapse, hShift⟩ := collapse_ofLeaves hPos (Nat.le_of_succ_le hRoom)
    fun hOne => Nat.le_of_lt_succ (hLeast hOne)
  have hTest : ¬ v.size - v.tailOffset > 1 := by
    rw [h.tailOffset_eq, hLength, Nat.mul_succ]
    omega
  refine ⟨⟨v.size - 1, height', Node.ofLeaves height' ls, a, none⟩, ?_, rfl,
    ⟨rfl, ?_, hFull, Nat.le_of_eq hItems, fun _ => ?_, hShift⟩⟩
  · simp only [width] at hSize
    rw [pop, if_neg (by omega), if_neg (by omega), if_neg hTest, hLeaf, Result.bind_ok, hPop,
      Result.bind_ok, hCollapse]
    rfl
  · show v.size - 1 = _ + a.size
    omega
  · show 0 < a.size
    rw [hItems]
    decide

theorem Holds.pop_nil (h : Holds v []) : v.pop = .error .emptyPop := by
  rw [TrieVector.pop, h.size_eq]
  rfl

theorem Holds.pop (h : Holds v l) (hNonempty : l ≠ []) :
    ∃ v', v.pop = .ok v' ∧ Holds v' l.dropLast := by
  have hPos := List.length_pos_of_ne_nil hNonempty
  have hSize := h.size_eq
  obtain ⟨ls, hLayout, rfl⟩ := h
  have hTail := hLayout.tail (by omega)
  have hTotal := hLayout.size
  have hToList : v.tail.toList ≠ [] := List.ne_nil_of_length_pos hTail
  rw [List.dropLast_append_of_ne_nil hToList]
  by_cases hMore : 1 < v.tail.size
  · obtain ⟨v', hPop, hTail', hLayout'⟩ := hLayout.pop_tail hMore
    refine ⟨v', hPop, ls, hLayout', ?_⟩
    rw [hTail', Array.toList_pop]
  · have hOne : v.tail.toList.length = 1 := by
      rw [Array.length_toList]
      omega
    have hNil : v.tail.toList.dropLast = [] :=
      List.eq_nil_of_length_eq_zero (by rw [List.length_dropLast, hOne])
    rw [hNil, List.append_nil]
    rcases List.eq_nil_or_concat ls with rfl | ⟨init, a, rfl⟩
    · refine ⟨empty, ?_, holds_empty⟩
      have hOnly : v.size = 1 := by
        rw [hTotal, List.length_nil]
        omega
      rw [TrieVector.pop, hOnly]
      rfl
    · rw [List.concat_eq_append] at hLayout ⊢
      obtain ⟨v', hPop, hTail', hLayout'⟩ := hLayout.pop_leaf hOne
      refine ⟨v', hPop, init, hLayout', ?_⟩
      rw [hTail', items_concat]

end PersistentCollections.TrieVector
