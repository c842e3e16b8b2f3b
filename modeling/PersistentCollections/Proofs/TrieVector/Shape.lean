import Mathlib.Order.Bounds.Basic
import PersistentCollections.Proofs.TrieVector.History

/-!
# The shape of a vector

`Canonical` says what the trie and the tail of a vector look like, path by path, and `Alike` that
two vectors have the same shape. After every history a vector is canonical, and its shape is that
of any other vector of its size (`run_canonical`). This is read off the dense trie of the leaves
(`Holds.canonical`, `Holds.alike`): along a path every node is the dense trie of a part of the
leaves (`Node.at?_ofLeaves`), and without its elements a dense trie depends on the number of its
leaves only (`Node.outline_ofLeaves`).
-/

namespace PersistentCollections.TrieVector

variable {α β : Type}

/-! ## Parts of a trie -/

namespace Node

/-- The leaves of a trie, from the left. -/
def leaves : Node α → List (Array α)
  | .leaf items => [items]
  | .branch children => (children.map fun child => leaves child).toList.flatten

/-- The node that a path of positions leads to. -/
def at? : List Nat → Node α → Option (Node α)
  | [], node => some node
  | i :: path, .branch children => children[i]?.bind (at? path)
  | _ :: _, .leaf _ => none

/-- All branches have as many children as they can have, down to full leaves. -/
inductive Complete : (height : Nat) → Node α → Prop
  | leaf {items : Array α} (hItems : items.size = width) : Complete 0 (.leaf items)
  | branch {h : Nat} {children : Array (Node α)} (hSize : children.size = width)
    (hChildren : ∀ child ∈ children, Complete h child) : Complete (h + 1) (.branch children)

/-- The trie without its elements. -/
def outline : Node α → Node Unit
  | .leaf items => .leaf (Array.replicate items.size ())
  | .branch children => .branch (children.map fun child => outline child)

end Node

/-- The canonical shape of a vector. -/
structure Canonical (v : TrieVector α) : Prop where
  tail_size : v.tail.size = v.size - v.tailOffset
  tail_bounds : v.size ≠ 0 → 1 ≤ v.tail.size ∧ v.tail.size ≤ width
  leaves_length : v.root.leaves.length = v.tailOffset / width
  leaf : ∀ path items, v.root.at? path = some (.leaf items) →
    items.size = width ∧ path.length = v.shift / 5
  branch : ∀ path children, v.root.at? path = some (.branch children) → path ≠ [] →
    children ≠ #[]
  complete : ∀ path children i, v.root.at? path = some (.branch children) →
    i + 1 < children.size →
      ∃ child, children[i]? = some child ∧ child.Complete (v.shift / 5 - (path.length + 1))
  root : ∃ children, v.root = .branch children ∧ (5 < v.shift → 2 ≤ children.size)
  shift : IsLeast {s | 5 ∣ s ∧ 5 ≤ s ∧ v.tailOffset / width ≤ Nat.pow 2 s} v.shift

/-- Every index below the size leads to an item, for reading, writing and iterating. -/
structure Unbroken (v : TrieVector α) : Prop where
  item : ∀ index, index < v.size → ∃ x, v.item index = .ok x
  overwrite : ∀ index x, index < v.size → ∃ w, v.overwrite index x = .ok w
  iter : ∃ l, v.iter.Gives l

/-- Two vectors of the same shape. -/
structure Alike (v : TrieVector α) (w : TrieVector β) : Prop where
  shift : v.shift = w.shift
  outline : v.root.outline = w.root.outline
  tail : v.tail.size = w.tail.size

/-! ## Dense tries -/

namespace Node

theorem leaves_branch (children : Array (Node α)) :
    (Node.branch children).leaves = children.toList.flatMap leaves := by
  rw [leaves, Array.toList_map, List.flatMap_def]

theorem outline_branch (children : Array (Node α)) :
    (Node.branch children).outline = .branch (children.map outline) := by
  rw [outline]

theorem toList_children (h : Nat) (ls : List (Array α)) :
    (children h ls).toList =
      (List.range (children h ls).size).map fun i => ofLeaves h (block (capacity h) i ls) := by
  rw [children, Array.toList_map, Array.toList_range, Array.size_map, Array.size_range]

theorem flatMap_block (w n : Nat) (ls : List β) :
    ((List.range n).flatMap fun i => block w i ls) = ls.take (w * n) := by
  induction n with
  | zero => rw [Nat.mul_zero, List.take_zero, List.range_zero, List.flatMap_nil]
  | succ n ih =>
    rw [List.range_succ, List.flatMap_append, ih, List.flatMap_singleton, block, Nat.mul_succ,
      List.take_add]

theorem length_block_le (w i : Nat) (ls : List β) : (block w i ls).length ≤ w := by
  rw [length_block]
  exact Nat.min_le_left _ _

/-- The leaves of a dense trie are those that it was made of. -/
theorem leaves_ofLeaves {h : Nat} {ls : List (Array α)} (hRoom : ls.length ≤ capacity h)
    (hNonempty : 0 < h ∨ 0 < ls.length) : (ofLeaves h ls).leaves = ls := by
  induction h generalizing ls with
  | zero =>
    rw [capacity_zero] at hRoom
    obtain ⟨a, rfl⟩ := List.length_eq_one_iff.mp (show ls.length = 1 by omega)
    rw [ofLeaves, leaves]
    rfl
  | succ h ih =>
    have hAll : ls.length ≤ capacity h * (children h ls).size :=
      Nat.le_of_not_lt fun hlt => Nat.lt_irrefl _ (lt_size_children.mpr hlt)
    have hBlocks : ∀ i ∈ List.range (children h ls).size,
        (ofLeaves h (block (capacity h) i ls)).leaves = block (capacity h) i ls := by
      intro i hi
      have hStart := lt_size_children.mp (List.mem_range.mp hi)
      have hw := capacity_pos h
      refine ih (length_block_le _ _ _) (.inr ?_)
      rw [length_block]
      omega
    rw [ofLeaves_succ, leaves_branch, toList_children, List.flatMap_map, List.flatMap_def,
      List.map_congr_left hBlocks, ← List.flatMap_def, flatMap_block, List.take_of_length_le hAll]

theorem map_block (w i : Nat) {γ : Type} (f : β → γ) (ls : List β) :
    (block w i ls).map f = block w i (ls.map f) := by
  rw [block, block, List.map_take, List.map_drop]

/-- Without its elements, a dense trie is one of leaves without their elements. -/
theorem outline_ofLeaves (h : Nat) (ls : List (Array α)) :
    (ofLeaves h ls).outline = ofLeaves h (ls.map fun a => Array.replicate a.size ()) := by
  induction h generalizing ls with
  | zero =>
    rw [ofLeaves, outline, ofLeaves]
    cases ls with
    | nil => rfl
    | cons a ls => rfl
  | succ h ih =>
    rw [ofLeaves_succ, outline_branch, ofLeaves_succ, children, children, Array.map_map,
      List.length_map]
    simp only [Function.comp_def, ih, map_block]

/-- As many leaves as fit make a complete trie. -/
theorem complete_ofLeaves {h : Nat} {ls : List (Array α)} (hFull : Full ls)
    (hLength : ls.length = capacity h) : (ofLeaves h ls).Complete h := by
  induction h generalizing ls with
  | zero =>
    rw [capacity_zero] at hLength
    obtain ⟨a, rfl⟩ := List.length_eq_one_iff.mp hLength
    exact .leaf (hFull a List.mem_cons_self)
  | succ h ih =>
    have hw := capacity_pos h
    have hSize {i : Nat} : i < (children h ls).size ↔ i < width := by
      rw [lt_size_children, hLength, capacity_succ]
      exact Nat.mul_lt_mul_left hw
    rw [ofLeaves_succ]
    refine .branch ?_ fun child hChild => ?_
    · refine Nat.le_antisymm (Nat.le_of_not_lt fun hlt => ?_) (Nat.le_of_not_lt fun hlt => ?_)
      · exact Nat.lt_irrefl width (hSize.mp hlt)
      · exact Nat.lt_irrefl _ (hSize.mpr hlt)
    · obtain ⟨i, hi, rfl⟩ := Array.mem_iff_getElem.mp hChild
      have hMul : capacity h * (i + 1) ≤ capacity h * 32 := Nat.mul_le_mul_left _ (hSize.mp hi)
      rw [getElem_children]
      refine ih (hFull.of_block _ _) ?_
      rw [length_block, hLength, capacity_succ]
      rw [Nat.mul_succ] at hMul
      omega

/-- Along a path, a dense trie has dense tries of parts of its leaves. Only an empty trie has an
empty part. -/
theorem at?_ofLeaves {path : List Nat} {h : Nat} {ls : List (Array α)} {node : Node α}
    (hFull : Full ls) (hRoom : ls.length ≤ capacity h)
    (hAt : (ofLeaves h ls).at? path = some node) :
    path.length ≤ h ∧ ∃ ls', node = ofLeaves (h - path.length) ls' ∧ Full ls' ∧
      (path ≠ [] ∨ 0 < ls.length → 0 < ls'.length) := by
  induction path generalizing h ls with
  | nil =>
    obtain rfl : ofLeaves h ls = node := Option.some.inj hAt
    exact ⟨Nat.zero_le h, ls, rfl, hFull, fun hPos => hPos.resolve_left fun hNil => hNil rfl⟩
  | cons i path ih =>
    cases h with
    | zero => cases hAt
    | succ h =>
      rw [ofLeaves_succ, at?, getElem?_children] at hAt
      split at hAt
      · next hStart =>
        have hw := capacity_pos h
        obtain ⟨hPath, ls', hNode, hFull', hPos⟩ :=
          ih (hFull.of_block _ _) (length_block_le _ _ _) hAt
        refine ⟨Nat.succ_le_succ hPath, ls', ?_, hFull', fun _ => hPos (.inr ?_)⟩
        · rw [hNode, List.length_cons, Nat.add_sub_add_right]
        · rw [length_block]
          omega
      · cases hAt

/-- A leaf at the bottom is one of the leaves. -/
theorem of_ofLeaves_eq_leaf {h : Nat} {ls : List (Array α)} {items : Array α}
    (hNode : ofLeaves h ls = .leaf items) (hNonempty : 0 < ls.length) : h = 0 ∧ items ∈ ls := by
  cases h with
  | zero =>
    cases ls with
    | nil => exact absurd hNonempty (Nat.lt_irrefl 0)
    | cons a ls =>
      cases hNode
      exact ⟨rfl, List.mem_cons_self⟩
  | succ h => cases hNode

theorem of_ofLeaves_eq_branch {h : Nat} {ls : List (Array α)} {cs : Array (Node α)}
    (hNode : ofLeaves h ls = .branch cs) : ∃ k, h = k + 1 ∧ cs = children k ls := by
  cases h with
  | zero => cases hNode
  | succ h =>
    cases hNode
    exact ⟨h, rfl, rfl⟩

/-- Every child but the last is complete. -/
theorem children_complete {h i : Nat} {ls : List (Array α)} (hFull : Full ls)
    (hi : i + 1 < (children h ls).size) :
    ∃ child, (children h ls)[i]? = some child ∧ child.Complete h := by
  have hStart := lt_size_children.mp hi
  rw [Nat.mul_succ] at hStart
  refine ⟨ofLeaves h (block (capacity h) i ls), ?_, complete_ofLeaves (hFull.of_block _ _) ?_⟩
  · rw [getElem?_children, if_pos (by omega)]
  · rw [length_block]
    omega

end Node

/-! ## Vectors -/

/-- Full leaves without their elements are all the same. -/
theorem Full.map_outline {ls : List (Array α)} (h : Full ls) :
    (ls.map fun a => Array.replicate a.size ()) =
      List.replicate ls.length (Array.replicate width ()) := by
  rw [← List.map_const']
  exact List.map_congr_left fun a ha => by rw [h a ha]

section Holds

variable {v : TrieVector α} {l : List α}

/-- A vector that holds a list is canonical. -/
theorem Holds.canonical (h : Holds v l) : Canonical v := by
  obtain ⟨ls, hLayout, -⟩ := h
  obtain ⟨hPos, hRoom, hLeast⟩ := hLayout.height_spec
  have hSize := hLayout.size
  have hOffset := hLayout.tailOffset_eq
  have hLeaves : v.tailOffset / width = ls.length := by
    rw [tailOffset_div_width, hLayout.leafCount_eq]
  have hShift : v.shift / 5 = v.height := Nat.mul_div_cancel_left _ (by decide)
  have hAt {path : List Nat} {node : Node α} (hNode : v.root.at? path = some node) :=
    Node.at?_ofLeaves hLayout.full hRoom (hLayout.root ▸ hNode)
  refine ⟨?_, fun hNonzero => ⟨?_, hLayout.room⟩, ?_, ?_, ?_, ?_, ?_, ?_⟩
  · omega
  · exact hLayout.tail (Nat.pos_of_ne_zero hNonzero)
  · rw [hLeaves, hLayout.root, Node.leaves_ofLeaves hRoom (.inl hPos)]
  · intro path items hLeaf
    obtain ⟨hPath, ls', hNode, hFull, hNonempty⟩ := hAt hLeaf
    have hBelow : path ≠ [] := by
      rintro rfl
      rw [Node.at?, hLayout.root, ← Nat.sub_add_cancel hPos] at hLeaf
      cases hLeaf
    obtain ⟨hBottom, hMem⟩ := Node.of_ofLeaves_eq_leaf hNode.symm (hNonempty (.inl hBelow))
    exact ⟨hFull items hMem, by omega⟩
  · rintro path children hBranch hPath rfl
    obtain ⟨-, ls', hNode, -, hNonempty⟩ := hAt hBranch
    obtain ⟨k, -, hChildren⟩ := Node.of_ofLeaves_eq_branch hNode.symm
    have hFirst : 0 < (Node.children k ls').size :=
      Node.lt_size_children.mpr (hNonempty (.inl hPath))
    rw [← hChildren] at hFirst
    exact Nat.lt_irrefl 0 hFirst
  · intro path children i hBranch hi
    obtain ⟨-, ls', hNode, hFull, -⟩ := hAt hBranch
    obtain ⟨k, hk, rfl⟩ := Node.of_ofLeaves_eq_branch hNode.symm
    have hHeight : v.shift / 5 - (path.length + 1) = k := by omega
    rw [hHeight]
    exact Node.children_complete hFull hi
  · obtain ⟨k, hk⟩ : ∃ k, v.height = k + 1 := ⟨v.height - 1, by omega⟩
    refine ⟨Node.children k ls, by rw [hLayout.root, hk, Node.ofLeaves_succ], fun hHigh => ?_⟩
    rw [hk, Nat.add_sub_cancel] at hLeast
    have hShift' : v.shift = 5 * v.height := rfl
    refine Node.lt_size_children.mpr ?_
    rw [Nat.mul_one]
    exact hLeast (by omega)
  · rw [hLeaves, ← hLayout.shift]
    exact ⟨Nat.find_spec (exists_shift ls.length), fun s hs => Nat.find_min' _ hs⟩

/-- A vector that holds a list has a place for every index. -/
theorem Holds.unbroken (h : Holds v l) : Unbroken v where
  item index hIndex := ⟨_, h.item_eq (h.size_eq ▸ hIndex)⟩
  overwrite index x hIndex := by
    obtain ⟨w, hOverwrite, -⟩ := h.overwrite (h.size_eq ▸ hIndex) x
    exact ⟨w, hOverwrite⟩
  iter := ⟨l, h.iter_gives⟩

/-- Vectors that hold lists of one length have the same shape. -/
theorem Holds.alike {w : TrieVector β} {l' : List β} (h : Holds v l) (h' : Holds w l')
    (hLength : l.length = l'.length) : Alike v w := by
  have hTotal : v.size = w.size := by rw [h.size_eq, h'.size_eq, hLength]
  obtain ⟨ls, hLayout, -⟩ := h
  obtain ⟨ls', hLayout', -⟩ := h'
  have hCount : ls.length = ls'.length := by
    rw [← hLayout.leafCount_eq, ← hLayout'.leafCount_eq, hTotal]
  have hShift : v.shift = w.shift := by rw [← hLayout.shift, ← hLayout'.shift, hCount]
  have hHeight : v.height = w.height := Nat.eq_of_mul_eq_mul_left (by decide) hShift
  have hSize := hLayout.size
  have hSize' := hLayout'.size
  refine ⟨hShift, ?_, ?_⟩
  · rw [hLayout.root, hLayout'.root, Node.outline_ofLeaves, Node.outline_ofLeaves,
      hLayout.full.map_outline, hLayout'.full.map_outline, hCount, hHeight]
  · rw [hCount] at hSize
    omega

end Holds

/-- Every history of the empty vector succeeds, and leaves a record of growth exactly for the
appends that increase the least shift. It leads to a vector of canonical shape, in which every
index finds its item. Any history that leads to as many elements leads to the same shape, in
particular the appends of so many elements and nothing else. -/
theorem run_canonical {s : Mode} (calls : Calls α .frozen s) :
    ∃ held : Held α s,
      Yields (calls.run TrieVector.empty) (calls.records []) ((calls.reference []).1, held) ∧
      Canonical held.content ∧ Unbroken held.content ∧
      (∀ (β : Type) (t : Mode) (others : Calls β .frozen t),
        (others.reference []).2.length = held.content.size →
          Succeeds (others.run TrieVector.empty) fun r => Alike held.content r.2.content) ∧
      (∀ (β : Type) (xs : List β), xs.length = held.content.size →
        Succeeds (TrieVector.empty.extend xs) fun w => Alike held.content w) := by
  obtain ⟨held, hYields, h⟩ := calls.run_empty
  refine ⟨held, hYields, h.canonical, h.unbroken, ?_, ?_⟩
  · intro β t others hLength
    obtain ⟨held', hYields', h'⟩ := others.run_empty
    exact ⟨_, _, hYields', h.alike h' (by rw [hLength, h.size_eq])⟩
  · intro β xs hLength
    obtain ⟨w, hYields', h'⟩ := holds_empty.extend xs
    exact ⟨_, _, hYields', h.alike h' (by rw [List.nil_append, hLength, h.size_eq])⟩

end PersistentCollections.TrieVector
