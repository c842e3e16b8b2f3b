import Mathlib.Data.List.Basic
import PersistentCollections.HashTrieMap.Node
import PersistentCollections.Proofs.HashTrieMap.Bitmap

/-!
# Nodes by position

`Node.entries` lists the entries below a node. A bitmap node and an array node hold the same kind of
thing in two forms, namely at each position nothing, an entry or a child: that is `Node.slotAt`. For
a node of the right shape its entries are listed position by position (`entries_eq_listing`), and a
change at one position exchanges one stretch of the list (`listing_update`).

The way of a hash down to a node is the digits before the ones that are to go. `Meets left h₁ h₂`
says that two hashes have the same way down to a node with `left` digits to go.
-/

namespace PersistentCollections.HashTrieMap

variable {κ ν : Type} {now left p q : Nat} {bits : Bitmap} {slots : List (Slot κ ν)}
  {children : List (Option (Node κ ν))} {n : Node κ ν}

/-! ## The way of a hash -/

theorem position_lt (h : UInt32) (left : Nat) : position h left < width :=
  Nat.mod_lt _ (by decide)

/-- The last digit of a hash has two bits. -/
theorem position_one_lt (h : UInt32) : position h 1 < 4 := by
  have hh := h.toNat_lt
  show h.toNat / 1073741824 % 32 < 4
  omega

/-- Two hashes have the same digits before the last `left` ones. -/
def Meets (left : Nat) (h₁ h₂ : UInt32) : Prop :=
  ∀ l, left < l → l ≤ digits → position h₁ l = position h₂ l

theorem meets_digits (h₁ h₂ : UInt32) : Meets digits h₁ h₂ := by
  intro l hl hl'
  omega

theorem Meets.symm {h₁ h₂ : UInt32} (h : Meets left h₁ h₂) : Meets left h₂ h₁ :=
  fun l hl hl' => (h l hl hl').symm

theorem Meets.step {h₁ h₂ : UInt32} (h : Meets (left + 1) h₁ h₂)
    (hp : position h₁ (left + 1) = position h₂ (left + 1)) : Meets left h₁ h₂ := by
  intro l hl hl'
  by_cases he : l = left + 1
  · rw [he, hp]
  · exact h l (by omega) hl'

/-- Hashes that meet where no digit is to go are equal. -/
theorem eq_of_meets_zero {h₁ h₂ : UInt32} (h : Meets 0 h₁ h₂) : h₁ = h₂ := by
  apply UInt32.toNat.inj
  have b₁ := h₁.toNat_lt
  have b₂ := h₂.toNat_lt
  have d₇ : h₁.toNat / 1 % 32 = h₂.toNat / 1 % 32 := h 7 (by decide) (by decide)
  have d₆ : h₁.toNat / 32 % 32 = h₂.toNat / 32 % 32 := h 6 (by decide) (by decide)
  have d₅ : h₁.toNat / 1024 % 32 = h₂.toNat / 1024 % 32 := h 5 (by decide) (by decide)
  have d₄ : h₁.toNat / 32768 % 32 = h₂.toNat / 32768 % 32 := h 4 (by decide) (by decide)
  have d₃ : h₁.toNat / 1048576 % 32 = h₂.toNat / 1048576 % 32 := h 3 (by decide) (by decide)
  have d₂ : h₁.toNat / 33554432 % 32 = h₂.toNat / 33554432 % 32 := h 2 (by decide) (by decide)
  have d₁ : h₁.toNat / 1073741824 % 32 = h₂.toNat / 1073741824 % 32 :=
    h 1 (by decide) (by decide)
  omega

/-! ## Entries -/

mutual

/-- The entries below a node, in the order of its places. -/
def Node.entries : Node κ ν → List (κ × ν)
  | .bitmap _ _ slots => slotsEntries slots
  | .array _ _ children => childrenEntries children
  | .collision _ _ entries => entries

def slotsEntries : List (Slot κ ν) → List (κ × ν)
  | [] => []
  | .leaf e :: slots => e :: slotsEntries slots
  | .inner child :: slots => child.entries ++ slotsEntries slots

def childrenEntries : List (Option (Node κ ν)) → List (κ × ν)
  | [] => []
  | none :: children => childrenEntries children
  | some child :: children => child.entries ++ childrenEntries children

end

/-- The entries of a populated place. -/
def Slot.entries : Slot κ ν → List (κ × ν)
  | .leaf e => [e]
  | .inner child => child.entries

theorem slotsEntries_eq (slots : List (Slot κ ν)) :
    slotsEntries slots = slots.flatMap Slot.entries := by
  induction slots with
  | nil => rw [slotsEntries]; rfl
  | cons slot slots ih =>
    cases slot with
    | leaf e => rw [slotsEntries, ih]; rfl
    | inner child => rw [slotsEntries, ih]; rfl

theorem childrenEntries_eq (children : List (Option (Node κ ν))) :
    childrenEntries children =
      (children.filterMap (·.map Slot.inner)).flatMap Slot.entries := by
  induction children with
  | nil => rw [childrenEntries]; rfl
  | cons child children ih =>
    cases child with
    | none => rw [childrenEntries, ih]; rfl
    | some child => rw [childrenEntries, ih]; rfl

theorem Node.entries_bitmap (now : Nat) (bits : Bitmap) (slots : List (Slot κ ν)) :
    (Node.bitmap now bits slots).entries = slots.flatMap Slot.entries := by
  rw [Node.entries, slotsEntries_eq]

theorem Node.entries_array (now count : Nat) (children : List (Option (Node κ ν))) :
    (Node.array now count children).entries =
      (children.filterMap (·.map Slot.inner)).flatMap Slot.entries := by
  rw [Node.entries, childrenEntries_eq]

@[simp] theorem Node.entries_collision (now : Nat) (h : UInt32) (es : List (κ × ν)) :
    (Node.collision now h es).entries = es := by
  rw [Node.entries]

/-! ## Places -/

/-- What a node holds at a position. -/
def Node.slotAt : Node κ ν → (p : Nat) → Option (Slot κ ν)
  | .bitmap _ bits slots, p => if bits.has p then slots[bits.rank p]? else none
  | .array _ _ children, p => children[p]?.join.map Slot.inner
  | .collision .., _ => none

/-- A bitmap node has one slot for each position of its bitmap and not too many of them; an array
node has a child or none for each position, counts its children and has too many of them for
packing. A collision node has no shape of this kind. -/
def Node.Shaped : Node κ ν → Prop
  | .bitmap _ bits slots => slots.length = bits.count ∧ slots.length ≤ mostSlots
  | .array _ count children =>
    children.length = width ∧ children.countP Option.isSome = count ∧ fewestChildren < count
  | .collision .. => False

/-- The entries of a place that may be empty. -/
def placeEntries (o : Option (Slot κ ν)) : List (κ × ν) := o.toList.flatMap Slot.entries

/-- The entries at the positions of a node, one position after the other. -/
def listing (f : Nat → Option (Slot κ ν)) : List (κ × ν) :=
  (List.range width).flatMap fun q => placeEntries (f q)

@[simp] theorem placeEntries_none : placeEntries (none : Option (Slot κ ν)) = [] := rfl

@[simp] theorem placeEntries_some (slot : Slot κ ν) : placeEntries (some slot) = slot.entries :=
  List.append_nil _

@[simp] theorem Slot.entries_leaf (e : κ × ν) : (Slot.leaf e).entries = [e] := rfl

@[simp] theorem Slot.entries_inner (child : Node κ ν) :
    (Slot.inner child).entries = child.entries := rfl

theorem mem_placeEntries {o : Option (Slot κ ν)} {e : κ × ν} :
    e ∈ placeEntries o ↔ ∃ slot, o = some slot ∧ e ∈ slot.entries := by
  cases o with
  | none => simp
  | some slot => simp

theorem listing_eq_filterMap (f : Nat → Option (Slot κ ν)) :
    listing f = ((List.range width).filterMap f).flatMap Slot.entries := by
  rw [listing]
  induction List.range width with
  | nil => rfl
  | cons q qs ih =>
    rw [List.flatMap_cons, ih]
    cases hf : f q with
    | none => rw [List.filterMap_cons_none hf]; rfl
    | some slot => rw [List.filterMap_cons_some hf, placeEntries_some, List.flatMap_cons]

namespace Node

theorem slotAt_eq_none_of_le (hs : n.Shaped) (hp : width ≤ p) : n.slotAt p = none := by
  cases n with
  | bitmap now bits slots =>
    have hn : ¬ bits.has p = true := fun h => absurd (Bitmap.lt_width_of_has h) (by omega)
    rw [slotAt, if_neg hn]
  | array now count children =>
    rw [slotAt, List.getElem?_eq_none (by rw [hs.1]; exact hp)]
    rfl
  | collision => exact hs.elim

theorem lt_width_of_slotAt {slot : Slot κ ν} (hs : n.Shaped) (h : n.slotAt p = some slot) :
    p < width := by
  by_contra hn
  rw [slotAt_eq_none_of_le hs (by omega)] at h
  cases h

/-! ### Bitmap nodes -/

/-- A bitmap node has the slot that its bitmap tells. -/
theorem exists_slot (hs : (Node.bitmap now bits slots).Shaped) (hp : bits.has p = true) :
    ∃ slot, slots[bits.rank p]? = some slot ∧
      (Node.bitmap now bits slots).slotAt p = some slot := by
  have hr : bits.rank p < slots.length := hs.1 ▸ Bitmap.rank_lt_count hp
  refine ⟨slots[bits.rank p], List.getElem?_eq_getElem hr, ?_⟩
  rw [slotAt, if_pos hp, List.getElem?_eq_getElem hr]

/-- From the slot of a position on, the slots are that one and those of the positions after it. -/
theorem drop_rank (hs : (Node.bitmap now bits slots).Shaped) (hp : bits.has p = true) :
    ∃ slot, (Node.bitmap now bits slots).slotAt p = some slot ∧
      slots.drop (bits.rank p) = slot :: slots.drop (bits.rank (p + 1)) := by
  obtain ⟨slot, hr, hslot⟩ := exists_slot hs hp
  have hlt : bits.rank p < slots.length := hs.1 ▸ Bitmap.rank_lt_count hp
  have hrank : bits.rank (p + 1) = bits.rank p + 1 := by rw [Bitmap.rank, hp]; rfl
  rw [List.getElem?_eq_getElem hlt] at hr
  exact ⟨slot, hslot, by rw [hrank, List.drop_eq_getElem_cons hlt, Option.some.inj hr]⟩

/-- The slots of a bitmap node stand in the order of their positions. -/
theorem slots_eq_filterMap (hs : (Node.bitmap now bits slots).Shaped) :
    slots = (List.range width).filterMap (Node.bitmap now bits slots).slotAt := by
  have hPrefix : ∀ q, slots.take (bits.rank q) =
      (List.range q).filterMap (Node.bitmap now bits slots).slotAt := by
    intro q
    induction q with
    | zero => rfl
    | succ q ih =>
      rw [List.range_succ, List.filterMap_append, ← ih, Bitmap.rank]
      by_cases h : bits.has q = true
      · obtain ⟨slot, hr, hq⟩ := exists_slot hs h
        rw [h, Bool.toNat_true, List.take_add_one, hr]
        simp [hq]
      · have hq : (Node.bitmap now bits slots).slotAt q = none := by rw [slotAt, if_neg h]
        rw [Bool.eq_false_iff.mpr h]
        simp [hq]
  rw [← hPrefix width, List.take_of_length_le]
  exact Nat.le_of_eq hs.1

/-- A bitmap node that is made from a function on positions holds the values of the function. -/
theorem slotAt_bitmap {f : Nat → Option (Slot κ ν)} (hp : p < width)
    (h : ∀ q, q < width → bits.has q = (f q).isSome) :
    (Node.bitmap now bits ((List.range width).filterMap f)).slotAt p = f p := by
  rw [slotAt]
  by_cases hb : bits.has p = true
  · rw [if_pos hb, Bitmap.getElem?_rank_filterMap h hb]
  · have hf : f p = none := by
      rw [← Option.not_isSome_iff_eq_none, ← h p hp]
      exact hb
    rw [if_neg hb, hf]

theorem length_eq_count {f : Nat → Option (Slot κ ν)}
    (h : ∀ q, q < width → bits.has q = (f q).isSome) :
    ((List.range width).filterMap f).length = bits.count := Bitmap.length_filterMap_range h

/-! ### Array nodes -/

theorem exists_child {count : Nat} (hs : (Node.array now count children).Shaped)
    (hp : p < width) :
    ∃ child, children[p]? = some child ∧
      (Node.array now count children).slotAt p = child.map Slot.inner := by
  have hr : p < children.length := hs.1 ▸ hp
  refine ⟨children[p], List.getElem?_eq_getElem hr, ?_⟩
  rw [slotAt, List.getElem?_eq_getElem hr]
  rfl

/-! ### Listing -/

/-- The table of an array node, read position by position. -/
theorem children_eq_map (hl : children.length = width) :
    children = (List.range width).map fun q => children[q]?.join := by
  apply List.ext_getElem?
  intro q
  by_cases hq : q < width
  · rw [List.getElem?_map, List.getElem?_range hq]
    simp [List.getElem?_eq_getElem (hl ▸ hq)]
  · rw [List.getElem?_eq_none (by omega), List.getElem?_eq_none (by simp; omega)]

theorem filterMap_slotAt_array (hl : children.length = width) :
    (List.range width).filterMap (Node.array now left children).slotAt =
      children.filterMap (·.map Slot.inner) := by
  conv_rhs => rw [children_eq_map hl, List.filterMap_map]
  rfl

theorem entries_eq_listing (hs : n.Shaped) : n.entries = listing n.slotAt := by
  cases n with
  | bitmap now bits slots =>
    rw [entries_bitmap, listing_eq_filterMap, ← slots_eq_filterMap hs]
  | array now count children =>
    rw [entries_array, listing_eq_filterMap, filterMap_slotAt_array hs.1]
  | collision => exact hs.elim

end Node

/-- The listings of two functions that have the same entries at every position but `p` differ in one
stretch at most. All other entries belong to other positions. -/
theorem listing_update {f g : Nat → Option (Slot κ ν)} (hp : p < width)
    (h : ∀ q, q < width → q ≠ p → placeEntries (g q) = placeEntries (f q)) :
    ∃ before after, listing f = before ++ placeEntries (f p) ++ after ∧
      listing g = before ++ placeEntries (g p) ++ after ∧
      ∀ e ∈ before ++ after, ∃ q slot, q ≠ p ∧ f q = some slot ∧ e ∈ slot.entries := by
  have hBelow : (List.range p).flatMap (fun q => placeEntries (g q)) =
      (List.range p).flatMap fun q => placeEntries (f q) := by
    refine List.flatMap_congr fun q hq => h q ?_ ?_ <;> have := List.mem_range.mp hq <;> omega
  have hAbove : (List.range' (p + 1) (width - (p + 1))).flatMap (fun q => placeEntries (g q)) =
      (List.range' (p + 1) (width - (p + 1))).flatMap fun q => placeEntries (f q) := by
    refine List.flatMap_congr fun q hq => h q ?_ ?_ <;> have := List.mem_range'_1.mp hq <;> omega
  refine ⟨(List.range p).flatMap fun q => placeEntries (f q),
    (List.range' (p + 1) (width - (p + 1))).flatMap fun q => placeEntries (f q), ?_, ?_, ?_⟩
  · rw [listing, Bitmap.range_width hp, List.flatMap_append, List.flatMap_cons, List.append_assoc]
  · rw [listing, Bitmap.range_width hp, List.flatMap_append, List.flatMap_cons, List.append_assoc,
      hBelow, hAbove]
  · intro e he
    simp only [List.mem_append, List.mem_flatMap, mem_placeEntries, List.mem_range,
      List.mem_range'_1] at he
    rcases he with ⟨q, hq, slot, hf, he⟩ | ⟨q, hq, slot, hf, he⟩
    · exact ⟨q, slot, by omega, hf, he⟩
    · exact ⟨q, slot, by omega, hf, he⟩

theorem mem_listing {f : Nat → Option (Slot κ ν)} {e : κ × ν} :
    e ∈ listing f ↔ ∃ q slot, q < width ∧ f q = some slot ∧ e ∈ slot.entries := by
  simp only [listing, List.mem_flatMap, mem_placeEntries, List.mem_range]
  constructor
  · rintro ⟨q, hq, slot, hf, he⟩
    exact ⟨q, slot, hq, hf, he⟩
  · rintro ⟨q, slot, hq, hf, he⟩
    exact ⟨q, hq, slot, hf, he⟩

end PersistentCollections.HashTrieMap
