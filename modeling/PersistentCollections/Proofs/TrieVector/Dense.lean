import Mathlib.Data.List.Basic
import PersistentCollections.Proofs.Outcome
import PersistentCollections.TrieVector.Node

/-!
# Dense tries

`Node.ofLeaves h ls` is the trie of height `h` whose leaves are those of a list, filled from the
left: the child at position `i` of its root has the block of leaves number `i`, and every block but
the last is as long as a trie of height `h - 1` has room for.

The operations of a node are operations of the list. An index has a `place` in the list, and along
the digits of the index every level finds the block of that place.

* `leafAt_ofLeaves`: `leafAt` reads the leaf at the place of the index;
* `setAt_ofLeaves`: `setAt` writes it;
* `pushLeaf_ofLeaves`: `pushLeaf` appends a leaf, if there is room;
* `popLeaf_ofLeaves`: `popLeaf` drops the last leaf;
* `ofLeaves_grown`, `ofLeaves_of_le`: a root more or less for the same leaves.
-/

namespace PersistentCollections.TrieVector

variable {α β : Type}

/-! ## Blocks of a list -/

/-- The entries of a list from `w * i` on, at most `w` of them. -/
def block (w i : Nat) (ls : List β) : List β := (ls.drop (w * i)).take w

theorem length_block (w i : Nat) (ls : List β) :
    (block w i ls).length = min w (ls.length - w * i) := by
  rw [block, List.length_take, List.length_drop]

theorem getElem?_block (w i j : Nat) (ls : List β) :
    (block w i ls)[j]? = if j < w then ls[w * i + j]? else none := by
  rw [block, List.getElem?_take, List.getElem?_drop]

theorem block_of_le {w : Nat} {ls : List β} (hLength : ls.length ≤ w) : block w 0 ls = ls := by
  rw [block, Nat.mul_zero, List.drop_zero, List.take_of_length_le hLength]

theorem block_nil {w i : Nat} {ls : List β} (hLength : ls.length ≤ w * i) : block w i ls = [] := by
  rw [block, List.drop_eq_nil_of_le hLength, List.take_nil]

/-- Places of one block have one quotient. -/
theorem mul_add_eq_iff {w i j p : Nat} (hj : j < w) : w * i + j = p ↔ p / w = i ∧ p % w = j := by
  constructor
  · rintro rfl
    rw [Nat.mul_add_div (by omega), Nat.div_eq_of_lt hj, Nat.mul_add_mod, Nat.mod_eq_of_lt hj]
    exact ⟨Nat.add_zero i, rfl⟩
  · rintro ⟨rfl, rfl⟩
    exact Nat.div_add_mod p w

/-- A new entry at a place of the list is one of the block of that place. -/
theorem block_set {w : Nat} (hw : 0 < w) (i p : Nat) (x : β) (ls : List β) :
    block w i (ls.set p x) =
      if p / w = i then (block w i ls).set (p % w) x else block w i ls := by
  apply List.ext_getElem?
  intro j
  rw [getElem?_block]
  by_cases hj : j < w
  · rw [if_pos hj, List.getElem?_set]
    have hPlace := mul_add_eq_iff (i := i) (p := p) hj
    by_cases hi : p / w = i
    · rw [if_pos hi, List.getElem?_set, getElem?_block, if_pos hj, length_block]
      by_cases hm : p % w = j
      · have hp := hPlace.mpr ⟨hi, hm⟩
        have hBound : p % w < min w (ls.length - w * i) ↔ p < ls.length := by omega
        rw [if_pos hp.symm, if_pos hm]
        simp only [hBound]
      · have hp : ¬ p = w * i + j := fun he => hm (hPlace.mp he.symm).2
        rw [if_neg hp, if_neg hm]
    · have hp : ¬ p = w * i + j := fun he => hi (hPlace.mp he.symm).1
      rw [if_neg hp, if_neg hi, getElem?_block, if_pos hj]
  · rw [if_neg hj, eq_comm, List.getElem?_eq_none_iff]
    have hLength := length_block w i ls
    split
    · rw [List.length_set]
      omega
    · omega

/-- An appended entry goes to the block of the place past the end. -/
theorem block_append {w : Nat} (hw : 0 < w) (i : Nat) (x : β) (ls : List β) :
    block w i (ls ++ [x]) =
      if ls.length / w = i then block w i ls ++ [x] else block w i ls := by
  have hDiv := Nat.div_add_mod ls.length w
  have hMod := Nat.mod_lt ls.length hw
  by_cases hi : ls.length / w = i
  · subst hi
    have hTake : ls.length - w * (ls.length / w) < w := by omega
    have hFits : ((ls.drop (w * (ls.length / w))) ++ [x]).length ≤ w := by
      rw [List.length_append, List.length_drop, List.length_singleton]
      omega
    rw [if_pos rfl, block, block, List.drop_append_of_le_length (by omega),
      List.take_of_length_le hFits, List.take_of_length_le (by rw [List.length_drop]; omega)]
  · rw [if_neg hi]
    rcases Nat.lt_or_gt_of_ne hi with hlt | hgt
    · -- the block begins behind the appended entry
      have hMul : w * (ls.length / w + 1) ≤ w * i := Nat.mul_le_mul_left w hlt
      rw [Nat.mul_add, Nat.mul_one] at hMul
      rw [block_nil (by rw [List.length_append, List.length_singleton]; omega),
        block_nil (by omega)]
    · -- the block ends before it
      have hMul : w * (i + 1) ≤ w * (ls.length / w) := Nat.mul_le_mul_left w hgt
      rw [Nat.mul_add, Nat.mul_one] at hMul
      rw [block, block, List.drop_append_of_le_length (by omega),
        List.take_append_of_le_length (by rw [List.length_drop]; omega)]

/-! ## Capacities and places -/

/-- The number of leaves that a trie of a height has room for. -/
def capacity (height : Nat) : Nat := Nat.pow width height

theorem capacity_zero : capacity 0 = 1 := rfl

theorem capacity_succ (h : Nat) : capacity (h + 1) = capacity h * 32 := rfl

theorem capacity_pos (h : Nat) : 0 < capacity h := Nat.pow_pos (by decide)

/-- The place of the leaf of an index in a trie of a height. -/
def place (index height : Nat) : Nat := index / width % capacity height

theorem place_lt (index h : Nat) : place index h < capacity h := Nat.mod_lt _ (capacity_pos h)

theorem place_zero (index : Nat) : place index 0 = 0 := Nat.mod_one _

theorem place_succ_mod (index h : Nat) : place index (h + 1) % capacity h = place index h := by
  rw [place, place, capacity_succ, Nat.mod_mul_right_mod]

/-- The digit of an index is the number of the block of its place. -/
theorem digit_succ (index h : Nat) : digit index (h + 1) = place index (h + 1) / capacity h := by
  have hPow : Nat.pow width (h + 1) = width * capacity h := Nat.mul_comm _ _
  rw [digit, place, capacity_succ, Nat.mod_mul_right_div_self, hPow, Nat.div_div_eq_div_mul]
  rfl

/-- The place of an index one level down is a place of the block that its digit chooses. -/
theorem getElem?_block_place (h index : Nat) (ls : List β) :
    (block (capacity h) (place index (h + 1) / capacity h) ls)[place index h]? =
      ls[place index (h + 1)]? := by
  have hDiv := Nat.div_add_mod (place index (h + 1)) (capacity h)
  rw [place_succ_mod] at hDiv
  rw [getElem?_block, if_pos (place_lt index h), hDiv]

/-! ## The trie of a list of leaves -/

namespace Node

/-- The trie of a height with the leaves of a list, filled from the left. -/
def ofLeaves : (height : Nat) → List (Array α) → Node α
  | 0, ls => .leaf (ls.headD #[])
  | h + 1, ls =>
    .branch ((Array.range ((ls.length + capacity h - 1) / capacity h)).map fun i =>
      ofLeaves h (block (capacity h) i ls))

/-- The children of its root. -/
def children (h : Nat) (ls : List (Array α)) : Array (Node α) :=
  (Array.range ((ls.length + capacity h - 1) / capacity h)).map fun i =>
    ofLeaves h (block (capacity h) i ls)

theorem ofLeaves_succ (h : Nat) (ls : List (Array α)) :
    ofLeaves (h + 1) ls = .branch (children h ls) := rfl

/-- There are as many children as blocks with a leaf. -/
theorem lt_size_children {h i : Nat} {ls : List (Array α)} :
    i < (children h ls).size ↔ capacity h * i < ls.length := by
  have hw := capacity_pos h
  rw [children, Array.size_map, Array.size_range, Nat.lt_iff_add_one_le, Nat.le_div_iff_mul_le hw,
    Nat.add_mul, Nat.one_mul, Nat.mul_comm]
  omega

theorem getElem?_children (h i : Nat) (ls : List (Array α)) :
    (children h ls)[i]? =
      if capacity h * i < ls.length then some (ofLeaves h (block (capacity h) i ls)) else none := by
  by_cases hi : capacity h * i < ls.length
  · have hSize := lt_size_children.mpr hi
    rw [if_pos hi, Array.getElem?_eq_getElem hSize]
    simp only [children, Array.getElem_map, Array.getElem_range]
  · rw [if_neg hi, Array.getElem?_eq_none]
    exact Nat.not_lt.mp fun hlt => hi (lt_size_children.mp hlt)

theorem getElem_children {h i : Nat} {ls : List (Array α)} (hi : i < (children h ls).size) :
    (children h ls)[i] = ofLeaves h (block (capacity h) i ls) := by
  simp only [children, Array.getElem_map, Array.getElem_range]

theorem children_set {h p : Nat} {a : Array α} {ls : List (Array α)}
    (hd : p / capacity h < (children h ls).size) :
    children h (ls.set p a) =
      (children h ls).set (p / capacity h)
        (ofLeaves h ((block (capacity h) (p / capacity h) ls).set (p % capacity h) a)) := by
  apply Array.ext_getElem?
  intro i
  rw [Array.getElem?_set, getElem?_children, getElem?_children, List.length_set,
    block_set (capacity_pos h)]
  by_cases hi : p / capacity h = i
  · subst hi
    rw [if_pos rfl, if_pos rfl, if_pos (lt_size_children.mp hd)]
  · rw [if_neg hi, if_neg hi]

/-- A leaf that is appended within the last block. -/
theorem children_append_within {h : Nat} {a : Array α} {ls : List (Array α)}
    (hd : ls.length / capacity h < (children h ls).size) :
    children h (ls ++ [a]) =
      (children h ls).set (ls.length / capacity h)
        (ofLeaves h (block (capacity h) (ls.length / capacity h) ls ++ [a])) := by
  have hBlock := lt_size_children.mp hd
  apply Array.ext_getElem?
  intro i
  rw [Array.getElem?_set, getElem?_children, getElem?_children, List.length_append,
    List.length_singleton, block_append (capacity_pos h)]
  by_cases hi : ls.length / capacity h = i
  · subst hi
    rw [if_pos rfl, if_pos rfl, if_pos (by omega)]
  · have hBound : capacity h * i < ls.length + 1 ↔ capacity h * i < ls.length := by
      have hne : capacity h * i ≠ ls.length := fun he =>
        hi (by rw [← he, Nat.mul_div_cancel_left i (capacity_pos h)])
      omega
    rw [if_neg hi, if_neg hi]
    simp only [hBound]

/-- If the place past the end has no child yet, all blocks are full. -/
theorem size_children_of_behind {h : Nat} {ls : List (Array α)}
    (hd : ¬ ls.length / capacity h < (children h ls).size) :
    capacity h * (ls.length / capacity h) = ls.length ∧
      (children h ls).size = ls.length / capacity h := by
  have hw := capacity_pos h
  have hDiv := Nat.mul_div_le ls.length (capacity h)
  have hBlock := mt lt_size_children.mpr hd
  refine ⟨by omega, ?_⟩
  rw [children, Array.size_map, Array.size_range]
  refine Nat.le_antisymm ?_ ?_
  · exact Nat.le_of_lt_succ (Nat.div_lt_of_lt_mul (by rw [Nat.mul_succ]; omega))
  · exact Nat.div_le_div_right (by omega)

/-- A leaf that is appended behind full blocks begins a block. -/
theorem children_append_behind {h : Nat} (a : Array α) {ls : List (Array α)}
    (hd : ¬ ls.length / capacity h < (children h ls).size) :
    children h (ls ++ [a]) = (children h ls).push (ofLeaves h [a]) := by
  have hw := capacity_pos h
  obtain ⟨hEdge, hSize⟩ := size_children_of_behind hd
  apply Array.ext_getElem?
  intro i
  rw [Array.getElem?_push, getElem?_children, getElem?_children, List.length_append,
    List.length_singleton, block_append hw, hSize]
  by_cases hi : i = ls.length / capacity h
  · subst hi
    rw [if_pos rfl, if_pos rfl, if_pos (by omega), block_nil (by omega), List.nil_append]
  · have hi' : ¬ ls.length / capacity h = i := fun he => hi he.symm
    have hBound : capacity h * i < ls.length + 1 ↔ capacity h * i < ls.length := by
      have hne : capacity h * i ≠ ls.length := fun he =>
        hi' (by rw [← he, Nat.mul_div_cancel_left i hw])
      omega
    rw [if_neg hi, if_neg hi']
    simp only [hBound]

/-- A single block makes a single child. -/
theorem children_of_le {h : Nat} {ls : List (Array α)} (hPos : 0 < ls.length)
    (hLength : ls.length ≤ capacity h) : children h ls = #[ofLeaves h ls] := by
  apply Array.ext_getElem?
  intro i
  rw [getElem?_children]
  cases i with
  | zero =>
    rw [if_pos (by omega), block_of_le hLength]
    rfl
  | succ i =>
    have hMul : capacity h * 1 ≤ capacity h * (i + 1) := Nat.mul_le_mul_left _ (by omega)
    rw [if_neg (by omega)]
    rfl

theorem children_nil (h : Nat) : children h ([] : List (Array α)) = #[] := by
  refine Array.eq_empty_of_size_eq_zero (Nat.eq_zero_of_not_pos fun hPos => ?_)
  exact absurd (lt_size_children.mp hPos) (Nat.not_lt_zero _)

theorem isEmpty_ofLeaves_succ (h : Nat) (ls : List (Array α)) :
    (ofLeaves (h + 1) ls).isEmpty = true ↔ ls = [] := by
  have hSize : 0 < (children h ls).size ↔ capacity h * 0 < ls.length := lt_size_children
  rw [ofLeaves_succ, isEmpty, Array.isEmpty_iff_size_eq_zero, ← List.length_eq_zero_iff]
  omega

/-! ## Reading and writing -/

theorem leafAt_ofLeaves {h index : Nat} {ls : List (Array α)} {a : Array α}
    (ha : ls[place index h]? = some a) : leafAt h (ofLeaves h ls) index = .ok a := by
  induction h generalizing ls with
  | zero =>
    rw [place_zero, ← List.head?_eq_getElem?] at ha
    rw [ofLeaves, leafAt, List.headD_eq_head?_getD, ha]
    rfl
  | succ h ih =>
    obtain ⟨hLength, -⟩ := List.getElem?_eq_some_iff.mp ha
    have hDiv := Nat.mul_div_le (place index (h + 1)) (capacity h)
    rw [← getElem?_block_place] at ha
    rw [ofLeaves_succ, leafAt, digit_succ, getElem?_children, if_pos (by omega)]
    exact ih ha

theorem setAt_ofLeaves {h index : Nat} {ls : List (Array α)} {a : Array α} (x : α)
    (ha : ls[place index h]? = some a) (hx : index % width < a.size) :
    setAt x h (ofLeaves h ls) index =
      .ok (ofLeaves h (ls.set (place index h) (a.set (index % width) x hx))) := by
  induction h generalizing ls with
  | zero =>
    rw [place_zero] at ha ⊢
    cases ls with
    | nil => cases ha
    | cons b ls =>
      obtain rfl : b = a := Option.some.inj ha
      exact dif_pos hx
  | succ h ih =>
    obtain ⟨hLength, -⟩ := List.getElem?_eq_some_iff.mp ha
    have hDiv := Nat.mul_div_le (place index (h + 1)) (capacity h)
    rw [← getElem?_block_place] at ha
    have hd : place index (h + 1) / capacity h < (children h ls).size :=
      lt_size_children.mpr (by omega)
    rw [ofLeaves_succ, setAt]
    simp only [digit_succ, hd, dif_pos, getElem_children]
    rw [ih ha, Result.bind_ok, Result.pure_eq, ofLeaves_succ, children_set hd, place_succ_mod]

/-! ## The right edge -/

theorem raise_leaf (h : Nat) (a : Array α) : raise h (.leaf a) = ofLeaves h [a] := by
  induction h with
  | zero => rfl
  | succ h ih =>
    have hPos : 0 < [a].length := Nat.one_pos
    have hLength : [a].length ≤ capacity h := capacity_pos h
    rw [raise, ih, ofLeaves_succ, children_of_le hPos hLength]

/-- A leaf that is appended behind full blocks makes a new child, for which there is room. -/
theorem addChild_behind {h : Nat} (a : Array α) {ls : List (Array α)}
    (hd : ¬ ls.length / capacity h < (children h ls).size)
    (hRoom : ls.length < capacity (h + 1)) :
    addChild (children h ls) (ofLeaves h [a]) = .ok (ofLeaves (h + 1) (ls ++ [a])) := by
  have hSize : (children h ls).size < width := by
    rw [(size_children_of_behind hd).2]
    exact Nat.div_lt_of_lt_mul hRoom
  rw [addChild, if_pos hSize, ofLeaves_succ, children_append_behind a hd]

/-- The place past the end, one level down, is the place past the end of the last block. -/
theorem place_below {index h : Nat} {ls : List β} (hPlace : place index (h + 1) = ls.length) :
    place index h = (block (capacity h) (ls.length / capacity h) ls).length := by
  have hDiv := Nat.div_add_mod ls.length (capacity h)
  have hMod := Nat.mod_lt ls.length (capacity_pos h)
  rw [← place_succ_mod, hPlace, length_block]
  omega

/-- Appending a leaf at the place of the last index before the push. -/
theorem pushLeaf_ofLeaves {size h : Nat} {ls : List (Array α)} (a : Array α)
    (hPlace : place (size - 1) (h + 1) = ls.length) :
    pushLeaf size (.leaf a) (h + 1) (ofLeaves (h + 1) ls) = .ok (ofLeaves (h + 1) (ls ++ [a])) := by
  have hRoom : ls.length < capacity (h + 1) := hPlace ▸ place_lt (size - 1) (h + 1)
  induction h generalizing ls with
  | zero =>
    have hd : ¬ ls.length / capacity 0 < (children 0 ls).size := by
      rw [lt_size_children, capacity_zero]
      omega
    exact addChild_behind a hd hRoom
  | succ h ih =>
    rw [ofLeaves_succ, pushLeaf]
    simp only [digit_succ, hPlace]
    split
    · next hd =>
      have hBelow := place_below hPlace
      rw [getElem_children, ih hBelow (hBelow ▸ place_lt _ _), Result.bind_ok, Result.pure_eq,
        ofLeaves_succ (h + 1), children_append_within hd]
    · next hd =>
      rw [raise_leaf]
      exact addChild_behind a hd hRoom

/-- Dropping the leaf at the place of the last index but one before the pop. -/
theorem popLeaf_ofLeaves {size h : Nat} {ls : List (Array α)} (a : Array α)
    (hPlace : place (size - 2) (h + 1) = ls.length) :
    popLeaf size (h + 1) (ofLeaves (h + 1) (ls ++ [a])) = .ok (ofLeaves (h + 1) ls) := by
  induction h generalizing ls with
  | zero =>
    have hd : ¬ ls.length / capacity 0 < (children 0 ls).size := by
      rw [lt_size_children, capacity_zero]
      omega
    rw [ofLeaves_succ, popLeaf, children_append_behind a hd, Array.pop_push, ofLeaves_succ]
  | succ h ih =>
    have hDiv := Nat.mul_div_le ls.length (capacity (h + 1))
    have hd : ls.length / capacity (h + 1) < (children (h + 1) (ls ++ [a])).size := by
      rw [lt_size_children, List.length_append, List.length_singleton]
      omega
    rw [ofLeaves_succ, popLeaf]
    simp only [digit_succ, hPlace, hd, dif_pos, getElem_children]
    rw [block_append (capacity_pos (h + 1)), if_pos rfl, ih (place_below hPlace), Result.bind_ok,
      Result.pure_eq, ofLeaves_succ (h + 1)]
    have hEmpty := isEmpty_ofLeaves_succ h
      (block (capacity (h + 1)) (ls.length / capacity (h + 1)) ls)
    rw [← List.length_eq_zero_iff, length_block] at hEmpty
    have hw := capacity_pos (h + 1)
    congr 2
    by_cases hd' : ls.length / capacity (h + 1) < (children (h + 1) ls).size
    · have hBlock := lt_size_children.mp hd'
      rw [if_neg (by rw [hEmpty]; omega)]
      simp only [children_append_within hd', Array.set_set, ← getElem_children hd',
        Array.set_getElem_self]
    · obtain ⟨hEdge, -⟩ := size_children_of_behind hd'
      rw [if_pos (by rw [hEmpty]; omega)]
      simp only [children_append_behind a hd', Array.set_push, hd', dif_neg, not_false_eq_true,
        Array.pop_push]

/-! ## The root -/

/-- A full trie gains a level for one more leaf. -/
theorem ofLeaves_grown {h : Nat} {ls : List (Array α)} (a : Array α)
    (hFull : ls.length = capacity h) :
    .branch #[ofLeaves h ls, raise h (.leaf a)] = ofLeaves (h + 1) (ls ++ [a]) := by
  have hw := capacity_pos h
  have hOne := children_of_le (hFull ▸ hw) (Nat.le_of_eq hFull)
  have hd : ¬ ls.length / capacity h < (children h ls).size := by
    rw [lt_size_children, hFull, Nat.div_self hw, Nat.mul_one]
    exact Nat.lt_irrefl _
  rw [raise_leaf, ofLeaves_succ, children_append_behind a hd, hOne]
  rfl

/-- A trie whose leaves fit into its first child has that child only. -/
theorem ofLeaves_of_le {h : Nat} {ls : List (Array α)} (hPos : 0 < ls.length)
    (hLength : ls.length ≤ capacity h) : ofLeaves (h + 1) ls = .branch #[ofLeaves h ls] := by
  rw [ofLeaves_succ, children_of_le hPos hLength]

end Node

end PersistentCollections.TrieVector
