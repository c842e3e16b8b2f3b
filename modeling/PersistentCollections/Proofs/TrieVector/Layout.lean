import Mathlib.Data.Nat.Find
import PersistentCollections.Proofs.TrieVector.Dense
import PersistentCollections.TrieVector.Basic

/-!
# The layout of a vector

`Layout v ls` is the invariant of a vector: its trie is the dense trie of the full leaves `ls`, as
low as these leaves allow, and the last elements, at least one if there are any, are in the tail.
`Holds v l` says that a vector with a layout has the elements of a list in order.

The height of the trie is the least one in terms of the shift, which is five bits for each level
(`leastShift`). The leaf of an index is a block of the elements (`Holds.leafFor_eq`), and so
everything that can be read from a vector is read from the list.
-/

namespace PersistentCollections.TrieVector

variable {α : Type}

/-! ## Full leaves -/

/-- The items of leaves, in order. -/
def items (ls : List (Array α)) : List α := ls.flatMap Array.toList

/-- All leaves are full. -/
def Full (ls : List (Array α)) : Prop := ∀ a ∈ ls, a.size = width

theorem items_cons (a : Array α) (ls : List (Array α)) : items (a :: ls) = a.toList ++ items ls :=
  List.flatMap_cons

theorem items_append (ls ls' : List (Array α)) : items (ls ++ ls') = items ls ++ items ls' :=
  List.flatMap_append

theorem items_concat (ls : List (Array α)) (a : Array α) :
    items (ls ++ [a]) = items ls ++ a.toList := by
  rw [items_append, items_cons]
  exact congrArg (items ls ++ ·) (List.append_nil _)

theorem Full.of_cons {a : Array α} {ls : List (Array α)} (h : Full (a :: ls)) :
    a.toList.length = width ∧ Full ls :=
  ⟨h a List.mem_cons_self, fun b hb => h b (List.mem_cons_of_mem a hb)⟩

theorem Full.concat {a : Array α} {ls : List (Array α)} (h : Full ls) (ha : a.size = width) :
    Full (ls ++ [a]) := by
  intro b hb
  rcases List.mem_append.mp hb with hb | hb
  · exact h b hb
  · rwa [List.mem_singleton.mp hb]

theorem Full.set {a : Array α} {ls : List (Array α)} (h : Full ls) (p : Nat)
    (ha : a.size = width) : Full (ls.set p a) := by
  intro b hb
  rcases List.mem_or_eq_of_mem_set hb with hb | rfl
  · exact h b hb
  · exact ha

theorem Full.of_block {ls : List (Array α)} (h : Full ls) (w i : Nat) : Full (block w i ls) :=
  fun a ha => h a (List.mem_of_mem_drop (List.mem_of_mem_take ha))

theorem Full.length_items {ls : List (Array α)} (h : Full ls) :
    (items ls).length = width * ls.length := by
  induction ls with
  | nil => rfl
  | cons a ls ih =>
    obtain ⟨ha, hLs⟩ := h.of_cons
    rw [items_cons, List.length_append, ha, ih hLs, List.length_cons, Nat.mul_add, Nat.mul_one,
      Nat.add_comm]

/-- A full leaf is a block of the items. -/
theorem Full.block_items {ls : List (Array α)} (h : Full ls) (rest : List α) {p : Nat} {a : Array α}
    (ha : ls[p]? = some a) : block width p (items ls ++ rest) = a.toList := by
  induction ls generalizing p with
  | nil => cases ha
  | cons b ls ih =>
    obtain ⟨hb, hLs⟩ := h.of_cons
    cases p with
    | zero =>
      obtain rfl : b = a := Option.some.inj ha
      rw [block, items_cons, Nat.mul_zero, List.drop_zero, List.append_assoc, ← hb, List.take_left]
    | succ p =>
      rw [block, items_cons, Nat.mul_succ, Nat.add_comm, ← List.drop_drop, List.append_assoc,
        List.drop_left' hb]
      exact ih hLs ha

/-- What comes after full leaves is a block of its own. -/
theorem Full.block_rest {ls : List (Array α)} (h : Full ls) {rest : List α}
    (hRest : rest.length ≤ width) : block width ls.length (items ls ++ rest) = rest := by
  rw [block, ← h.length_items, List.drop_left, List.take_of_length_le hRest]

/-- Overwriting an item of a leaf overwrites it among all items. -/
theorem Full.items_set {ls : List (Array α)} (h : Full ls) {p r : Nat} {a : Array α} (x : α)
    (ha : ls[p]? = some a) (hr : r < a.size) :
    items (ls.set p (a.set r x hr)) = (items ls).set (width * p + r) x := by
  induction ls generalizing p with
  | nil => cases ha
  | cons b ls ih =>
    obtain ⟨hb, hLs⟩ := h.of_cons
    cases p with
    | zero =>
      obtain rfl : b = a := Option.some.inj ha
      rw [List.set_cons_zero, items_cons, items_cons, Array.toList_set, Nat.mul_zero, Nat.zero_add,
        List.set_append_left _ _ hr]
    | succ p =>
      have hIndex : width * (p + 1) + r = width + (width * p + r) := by
        rw [Nat.mul_succ]
        omega
      have hBehind : b.toList.length ≤ width * (p + 1) + r := by
        rw [hb, hIndex]
        exact Nat.le_add_right _ _
      rw [List.set_cons_succ, items_cons, items_cons, ih hLs ha,
        List.set_append_right _ _ hBehind, hb, hIndex, Nat.add_sub_cancel_left]

/-! ## The least shift -/

/-- Some multiple of five is large enough. -/
theorem exists_shift (leaves : Nat) : ∃ s, 5 ∣ s ∧ 5 ≤ s ∧ leaves ≤ Nat.pow 2 s := by
  refine ⟨5 * (leaves + 1), Nat.dvd_mul_right 5 _, by omega, ?_⟩
  have hLt : 5 * (leaves + 1) < Nat.pow 2 (5 * (leaves + 1)) := Nat.lt_two_pow_self
  omega

/-- The least multiple of five, from five on, that leaves room for so many leaves. -/
def leastShift (leaves : Nat) : Nat := Nat.find (exists_shift leaves)

theorem capacity_eq_two_pow (h : Nat) : capacity h = Nat.pow 2 (5 * h) :=
  (Nat.pow_mul 2 5 h).symm

theorem capacity_le {h h' : Nat} (hle : h ≤ h') : capacity h ≤ capacity h' :=
  Nat.pow_le_pow_right (by decide) hle

/-- A height with room for the leaves is the least one if the height below is too low. -/
theorem leastShift_eq {h leaves : Nat} (hPos : 1 ≤ h) (hRoom : leaves ≤ capacity h)
    (hLeast : 1 < h → capacity (h - 1) < leaves) : leastShift leaves = 5 * h := by
  rw [leastShift, Nat.find_eq_iff]
  refine ⟨⟨Nat.dvd_mul_right 5 h, by omega, capacity_eq_two_pow h ▸ hRoom⟩, ?_⟩
  rintro _ hs ⟨⟨k, rfl⟩, hk, hFits⟩
  rw [← capacity_eq_two_pow] at hFits
  have hle := capacity_le (show k ≤ h - 1 by omega)
  have hLow := hLeast (by omega)
  omega

theorem of_leastShift_eq {h leaves : Nat} (hShift : leastShift leaves = 5 * h) :
    1 ≤ h ∧ leaves ≤ capacity h ∧ (1 < h → capacity (h - 1) < leaves) := by
  rw [leastShift, Nat.find_eq_iff] at hShift
  obtain ⟨⟨-, hPos, hRoom⟩, hLeast⟩ := hShift
  refine ⟨by omega, capacity_eq_two_pow h ▸ hRoom, fun hOne => ?_⟩
  have hLow := hLeast (5 * (h - 1)) (by omega)
  rw [← capacity_eq_two_pow] at hLow
  exact Nat.lt_of_not_le fun hle => hLow ⟨Nat.dvd_mul_right 5 _, by omega, hle⟩

/-! ## The invariant -/

/-- The number of leaves in the trie of a vector of a size. -/
def leafCount (size : Nat) : Nat := (size - 1) / width

/-- The records of appending to a vector of a size. -/
def growth (size : Nat) : List Event :=
  if leastShift (leafCount size) < leastShift (leafCount (size + 1)) then
    [.vectorGrew (leastShift (leafCount (size + 1))) size]
  else []

/-- A vector whose trie has these leaves. -/
structure Layout (v : TrieVector α) (ls : List (Array α)) : Prop where
  root : v.root = Node.ofLeaves v.height ls
  size : v.size = width * ls.length + v.tail.size
  full : Full ls
  room : v.tail.size ≤ width
  tail : 0 < v.size → 0 < v.tail.size
  shift : leastShift ls.length = v.shift

/-- A vector that has the elements of a list. -/
def Holds (v : TrieVector α) (l : List α) : Prop :=
  ∃ ls, Layout v ls ∧ items ls ++ v.tail.toList = l

section Layout

variable {v : TrieVector α} {ls : List (Array α)} {l : List α}

theorem tailOffset_div_width (v : TrieVector α) : v.tailOffset / width = leafCount v.size := by
  rw [tailOffset, leafCount]
  split
  · next hLess => rw [Nat.zero_div, Nat.div_eq_of_lt (by omega)]
  · rw [Nat.mul_div_cancel _ (by decide)]

theorem Layout.leafCount_eq (h : Layout v ls) : leafCount v.size = ls.length := by
  have hSize := h.size
  have hRoom := h.room
  have hTail := h.tail
  simp only [leafCount, width] at *
  omega

theorem Layout.tailOffset_eq (h : Layout v ls) : v.tailOffset = width * ls.length := by
  have hCount := h.leafCount_eq
  have hSize := h.size
  rw [tailOffset]
  rw [leafCount] at hCount
  split
  · next hLess =>
    rw [Nat.div_eq_of_lt (by omega)] at hCount
    rw [← hCount, Nat.mul_zero]
  · rw [hCount, Nat.mul_comm]

theorem Layout.height_spec (h : Layout v ls) :
    1 ≤ v.height ∧ ls.length ≤ capacity v.height ∧
      (1 < v.height → capacity (v.height - 1) < ls.length) := of_leastShift_eq h.shift

/-- Places of indices of the trie, at its own height. -/
theorem Layout.place_eq (h : Layout v ls) {index : Nat} (hIndex : index / width < ls.length) :
    place index v.height = index / width :=
  Nat.mod_eq_of_lt (Nat.lt_of_lt_of_le hIndex h.height_spec.2.1)

theorem Holds.size_eq (h : Holds v l) : v.size = l.length := by
  obtain ⟨ls, hLayout, rfl⟩ := h
  rw [List.length_append, hLayout.full.length_items, hLayout.size]
  rfl

theorem holds_empty : Holds (empty : TrieVector α) [] := by
  have hShift : leastShift 0 = 5 * 1 :=
    leastShift_eq (Nat.le_refl 1) (Nat.zero_le _) fun hOne => absurd hOne (Nat.lt_irrefl 1)
  have hFull : Full ([] : List (Array α)) := fun a ha => absurd ha List.not_mem_nil
  refine ⟨[], ⟨?_, rfl, hFull, Nat.zero_le _, fun hPos => ?_, hShift⟩, rfl⟩
  · exact congrArg Node.branch (Node.children_nil 0).symm
  · exact absurd hPos (Nat.lt_irrefl 0)

/-! ## Reading -/

/-- The leaf of an index, or the tail, is a block of the elements. -/
theorem Holds.leafFor_eq (h : Holds v l) {index : Nat} (hIndex : index < l.length) :
    ∃ leaf, v.leafFor index = .ok leaf ∧ leaf.toList = block width (index / width) l := by
  have hSize := h.size_eq
  obtain ⟨ls, hLayout, rfl⟩ := h
  have hTotal := hLayout.size
  have hRoom := hLayout.room
  have hDiv := Nat.div_add_mod index width
  have hMod := Nat.mod_lt index (show 0 < width by decide)
  rw [leafFor, hLayout.tailOffset_eq]
  split
  · next hTail =>
    have hPlace : index / width = ls.length := by
      simp only [width] at *
      omega
    exact ⟨v.tail, rfl, by rw [hPlace, hLayout.full.block_rest hRoom]⟩
  · next hTrie =>
    have hPlace : index / width < ls.length := by
      simp only [width] at *
      omega
    have hLeaf := List.getElem?_eq_getElem hPlace
    refine ⟨ls[index / width], ?_, (hLayout.full.block_items _ hLeaf).symm⟩
    rw [hLayout.root]
    exact Node.leafAt_ofLeaves (by rw [hLayout.place_eq hPlace, hLeaf])

theorem Holds.item_eq (h : Holds v l) {index : Nat} (hIndex : index < l.length) :
    v.item index = .ok l[index] := by
  obtain ⟨leaf, hLeaf, hBlock⟩ := h.leafFor_eq hIndex
  have hItem : leaf[index % width]? = some l[index] := by
    rw [← Array.getElem?_toList, hBlock, getElem?_block, if_pos (Nat.mod_lt index (by decide)),
      Nat.div_add_mod, List.getElem?_eq_getElem hIndex]
  rw [item, hLeaf, Result.bind_ok, hItem]
  rfl

theorem Holds.get?_eq (h : Holds v l) (index : Nat) : v.get? index = .ok l[index]? := by
  rw [get?, h.size_eq]
  split
  · next hIndex => rw [h.item_eq hIndex, Result.map_ok, List.getElem?_eq_getElem hIndex]
  · next hIndex => rw [List.getElem?_eq_none (Nat.le_of_not_lt hIndex)]

theorem Holds.get_eq (h : Holds v l) {index : Nat} (hIndex : index < l.length) :
    v.get index = .ok l[index] := by
  rw [get, h.get?_eq, Result.bind_ok, List.getElem?_eq_getElem hIndex]
  rfl

theorem Holds.get_eq_error (h : Holds v l) {index : Nat} (hIndex : l.length ≤ index) :
    v.get index = .error (.indexOutOfBounds index l.length) := by
  rw [get, h.get?_eq, Result.bind_ok, List.getElem?_eq_none hIndex, h.size_eq]
  rfl

theorem Holds.getD_eq (h : Holds v l) (index : Nat) (fallback : α) :
    v.getD index fallback = .ok (l.getD index fallback) := by
  rw [getD, h.get?_eq, Result.bind_ok, List.getD_eq_getElem?_getD]
  rfl

theorem Holds.first?_eq (h : Holds v l) : v.first? = .ok l.head? := by
  rw [first?, h.get?_eq, List.head?_eq_getElem?]

theorem Holds.last?_eq (h : Holds v l) : v.last? = l.getLast? := by
  have hSize := h.size_eq
  obtain ⟨ls, hLayout, rfl⟩ := h
  rw [last?, ← Array.getLast?_toList]
  by_cases hPos : 0 < v.size
  · have hTail : v.tail.toList ≠ [] := List.ne_nil_of_length_pos (hLayout.tail hPos)
    rw [List.getLast?_append_of_ne_nil _ hTail]
  · have hNil := List.eq_nil_of_length_eq_zero (hSize ▸ Nat.eq_zero_of_not_pos hPos)
    rw [hNil, (List.append_eq_nil_iff.mp hNil).2]

theorem Holds.isEmpty_eq (h : Holds v l) : v.isEmpty = l.isEmpty := by
  rw [isEmpty, h.size_eq]
  cases l with
  | nil => rfl
  | cons x l => rfl

end Layout

end PersistentCollections.TrieVector
