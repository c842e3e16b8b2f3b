import Mathlib.Data.Finset.Card
import Mathlib.Data.List.Dedup
import PersistentCollections.Proofs.HashTrieMap.Erase
import PersistentCollections.Proofs.HashTrieMap.Insert
import PersistentCollections.Proofs.HashTrieMap.Order

/-!
# Nodes that change their kind

A bitmap node turns into an array node when it gets one place too many, and an array node is packed
when it is left with few children. No operation does that to two nodes, and whether and where it
happens depends on nothing but the entries of the node and the paths that lead to array nodes:

* `promotion left A es hash` is the path to the node that an insertion promotes, where `A` tells the
  paths that lead to array nodes and `es` are the entries;
* `packing left A es hash` is the path to the node that a removal packs.

Both descend along the hash through entry lists only. `Reshapes` says that the records of an
operation and the array paths after it are what these tell. Whether an entry stands directly in a
place or in a child by itself makes no difference: there are no array nodes over a single entry
(`arrayAt_of_length_le_one`), entries of one hash reshape nothing (`promotion_of_hash`,
`packing_of_no_arrays`), and neither does an insertion at a hash that is there
(`promotion_of_mem`).
-/

namespace PersistentCollections.HashTrieMap

variable {κ ν : Type} {left p : Nat} {n n' : Node κ ν}

/-! ## Paths to array nodes -/

/-- The paths that lead to array nodes. -/
abbrev Arrays := List Nat → Bool

/-- The rest of the paths that start with `p`. -/
def Arrays.below (A : Arrays) (p : Nat) : Arrays := fun path => A (p :: path)

def Arrays.none : Arrays := fun _ => false

def Node.isArray : Node κ ν → Bool
  | .array .. => true
  | .bitmap .. | .collision .. => false

/-- Whether a path leads from a node to an array node. -/
def Node.arrayAt : Node κ ν → Arrays
  | n, [] => n.isArray
  | n, p :: path =>
    match n.slotAt p with
    | some (.inner child) => child.arrayAt path
    | _ => false

/-- The paths from a place to array nodes. -/
def placeArrays : Option (Slot κ ν) → Arrays
  | some (.inner child) => child.arrayAt
  | _ => .none

@[simp] theorem placeArrays_none : placeArrays (none : Option (Slot κ ν)) = .none := rfl

theorem Node.arrayAt_nil (n : Node κ ν) : n.arrayAt [] = n.isArray := rfl

theorem Node.arrayAt_below (n : Node κ ν) (p : Nat) :
    n.arrayAt.below p = placeArrays (n.slotAt p) := by
  funext path
  rw [Arrays.below, arrayAt]
  cases n.slotAt p with
  | none => rfl
  | some slot =>
    cases slot with
    | leaf e => rfl
    | inner child => rfl

theorem arrays_ext {A A' : Arrays} (h : A' [] = A []) (hBelow : ∀ p, A'.below p = A.below p) :
    A' = A := by
  funext path
  cases path with
  | nil => exact h
  | cons p path => exact congrFun (hBelow p) path

theorem Node.arrayAt_congr (hKind : n'.isArray = n.isArray)
    (h : ∀ q, placeArrays (n'.slotAt q) = placeArrays (n.slotAt q)) : n'.arrayAt = n.arrayAt := by
  apply arrays_ext hKind
  intro q
  rw [arrayAt_below, arrayAt_below, h]

theorem Node.arrayAt_collision (now : Nat) (hash : UInt32) (es : List (κ × ν)) :
    (Node.collision now hash es).arrayAt = .none := by
  refine arrays_ext (by rfl) fun q => ?_
  rw [arrayAt_below]
  rfl

/-! ## Reshaping told from the entries -/

/-- The path to a node that changes its kind, and the record of that for the shift of the node. -/
structure Reshaping where
  path : List Nat
  record : (shift : Nat) → Event

/-- The same node seen from a node above. -/
def Reshaping.under (p : Nat) (r : Reshaping) : Reshaping := ⟨p :: r.path, r.record⟩

/-- The record that a change of kind leaves, at a node below one with `left` digits to go. -/
def records (left : Nat) (target : Option Reshaping) : List Event :=
  target.toList.map fun r => r.record (shiftOf (left - r.path.length))

/-- The array paths after a change of kind. -/
def Arrays.flip (A : Arrays) (target : Option Reshaping) : Arrays :=
  fun path => A path ^^ target.map Reshaping.path == some path

/-- The records of an operation and the array paths after it are those of the given change of
kind. -/
structure Reshapes (left : Nat) (target : Option Reshaping) (A A' : Arrays) (events : List Event) :
    Prop where
  events_eq : events = records left target
  arrays_eq : A' = A.flip target

section

variable [HashCode κ]

/-- The number of different next digits of entries. -/
def occupied (left : Nat) (es : List (κ × ν)) : Nat :=
  (es.map fun e => position (hashCode e.1) left).toFinset.card

/-- The bitmap node that becomes an array node when an entry of a hash comes in. -/
def promotion : (left : Nat) → Arrays → List (κ × ν) → UInt32 → Option Reshaping
  | 0, _, _, _ => none
  | left + 1, A, es, hash =>
    let p := position hash (left + 1)
    let part := entriesAt (left + 1) p es
    if part.isEmpty then
      if !A [] && decide (mostSlots ≤ occupied (left + 1) es) then some ⟨[], .nodePromoted⟩
      else none
    else (promotion left (A.below p) part hash).map (.under p)

/-- The array node that is packed when an entry of a hash goes. -/
def packing : (left : Nat) → Arrays → List (κ × ν) → UInt32 → Option Reshaping
  | 0, _, _, _ => none
  | left + 1, A, es, hash =>
    let p := position hash (left + 1)
    let part := entriesAt (left + 1) p es
    if part.length ≤ 1 then
      if A [] && decide (occupied (left + 1) es - 1 ≤ fewestChildren) then
        some ⟨[], fun shift => .nodePacked shift (occupied (left + 1) es - 1)⟩
      else none
    else (packing left (A.below p) part hash).map (.under p)

end

section

variable {target : Option Reshaping} {A A' : Arrays} {events : List Event}

theorem Reshapes.of_none (hNone : target = none) (hA : A' = A) : Reshapes left target A A' [] := by
  refine ⟨?_, ?_⟩
  · rw [hNone]
    rfl
  · rw [hNone, hA]
    funext path
    simp [Arrays.flip]

/-- A node that changes its kind itself. -/
theorem Reshapes.here {record : Nat → Event} (hTarget : target = some ⟨[], record⟩)
    (hHere : A' [] = !A []) (hBelow : ∀ p, A'.below p = A.below p) :
    Reshapes left target A A' [record (shiftOf left)] := by
  refine ⟨?_, funext fun path => ?_⟩
  · rw [hTarget]
    rfl
  · rw [hTarget, Arrays.flip]
    cases path with
    | nil => simp [hHere]
    | cons p path =>
      have hPath : A' (p :: path) = A (p :: path) := congrFun (hBelow p) path
      simp [hPath]

/-- A node below a position changes its kind, and nothing else. -/
theorem Reshapes.under {below : Option Reshaping} (hTarget : target = below.map (.under p))
    (hHere : A' [] = A []) (hOthers : ∀ q, q ≠ p → A'.below q = A.below q)
    (h : Reshapes left below (A.below p) (A'.below p) events) :
    Reshapes (left + 1) target A A' events := by
  refine ⟨?_, funext fun path => ?_⟩
  · rw [h.events_eq, hTarget]
    cases below with
    | none => rfl
    | some r => simp [records, Reshaping.under]
  · rw [hTarget, Arrays.flip]
    cases path with
    | nil =>
      rw [hHere]
      cases below with
      | none => simp
      | some r => simp [Reshaping.under]
    | cons q path =>
      by_cases hq : q = p
      · subst hq
        have hPath : A' (q :: path) = (A (q :: path) ^^ _) := congrFun h.arrays_eq path
        rw [hPath]
        cases below with
        | none => simp
        | some r => simp [Reshaping.under]
      · have hPath : A' (q :: path) = A (q :: path) := congrFun (hOthers q hq) path
        have hNe : (p == q) = false := beq_eq_false_iff_ne.mpr (Ne.symm hq)
        rw [hPath]
        cases below with
        | none => simp
        | some r => simp [Reshaping.under, hNe]

end

/-! ### Where the target is -/

section

variable [HashCode κ] {es : List (κ × ν)} {hash : UInt32} {A : Arrays}

theorem promotion_under (hp : position hash (left + 1) = p)
    (hne : entriesAt (left + 1) p es ≠ []) :
    promotion (left + 1) A es hash =
      (promotion left (A.below p) (entriesAt (left + 1) p es) hash).map (.under p) := by
  rw [promotion, hp]
  simp [hne]

theorem packing_under (hp : position hash (left + 1) = p)
    (hMany : 1 < (entriesAt (left + 1) p es).length) :
    packing (left + 1) A es hash =
      (packing left (A.below p) (entriesAt (left + 1) p es) hash).map (.under p) := by
  rw [packing, hp]
  simp [Nat.not_le.mpr hMany]

theorem occupied_le_length (left : Nat) (es : List (κ × ν)) : occupied left es ≤ es.length := by
  have h := List.toFinset_card_le (l := es.map fun e => position (hashCode e.1) left)
  rwa [List.length_map] at h

theorem occupied_of_hash {h : UInt32} (hh : ∀ e ∈ es, hashCode e.1 = h) (left : Nat) :
    occupied left es ≤ 1 := by
  apply Finset.card_le_one.mpr
  intro a ha b hb
  simp only [List.mem_toFinset, List.mem_map] at ha hb
  obtain ⟨e, he, rfl⟩ := ha
  obtain ⟨e', he', rfl⟩ := hb
  rw [hh e he, hh e' he']

/-- An insertion among entries of one hash promotes nothing. -/
theorem promotion_of_hash {h : UInt32} (hh : ∀ e ∈ es, hashCode e.1 = h) (left : Nat)
    (A : Arrays) (hash : UInt32) : promotion left A es hash = none := by
  induction left generalizing A es with
  | zero => rfl
  | succ left ih =>
    have hFew := occupied_of_hash hh (left + 1)
    have hMany : ¬ mostSlots ≤ occupied (left + 1) es := by
      rw [mostSlots]
      omega
    rw [promotion]
    split
    · simp [hMany]
    · rw [ih fun e he => hh e (mem_entriesAt.mp he).1]
      rfl

/-- An insertion at a hash that is there promotes nothing, as each level has a place for it. -/
theorem promotion_of_mem {e : κ × ν} (he : e ∈ es) (hh : hashCode e.1 = hash) (left : Nat)
    (A : Arrays) : promotion left A es hash = none := by
  induction left generalizing A es with
  | zero => rfl
  | succ left ih =>
    have hPart : e ∈ entriesAt (left + 1) (position hash (left + 1)) es :=
      mem_entriesAt.mpr ⟨he, by rw [hh]⟩
    rw [promotion_under rfl (List.ne_nil_of_mem hPart), ih hPart]
    rfl

/-- Where there are no array nodes, none is packed. -/
theorem packing_of_no_arrays (left : Nat) (es : List (κ × ν)) (hash : UInt32) :
    packing left .none es hash = none := by
  induction left generalizing es with
  | zero => rfl
  | succ left ih =>
    have hBelow : ∀ p, Arrays.none.below p = Arrays.none := fun _ => rfl
    rw [packing]
    split
    · simp [Arrays.none]
    · rw [hBelow, ih]
      rfl

end

/-! ## Branches -/

namespace Node

section

variable [HashCode κ] {below : Node κ ν → Prop} {hash : UInt32} {events : List Event}

/-- The digits of the entries of a branch are the positions at which it holds something. -/
theorem Branch.occupied_eq (hb : n.Branch below left) :
    occupied left n.entries = ((List.range width).filterMap n.slotAt).length := by
  have hDigits : (n.entries.map fun e => position (hashCode e.1) left).toFinset =
      ((List.range width).filter fun q => (n.slotAt q).isSome).toFinset := by
    ext q
    simp only [List.mem_toFinset, List.mem_map, List.mem_filter, List.mem_range,
      Option.isSome_iff_exists]
    constructor
    · rintro ⟨e, he, rfl⟩
      obtain ⟨q, slot, hq, hmem⟩ := hb.mem_entries.mp he
      rw [(hb.sound q slot hq).routed e hmem]
      exact ⟨lt_width_of_slotAt hb.shaped hq, slot, hq⟩
    · rintro ⟨-, slot, hq⟩
      obtain ⟨e, he⟩ := List.exists_mem_of_ne_nil _ (hb.sound q slot hq).filled
      exact ⟨e, hb.mem_entries.mpr ⟨q, slot, hq, he⟩, (hb.sound q slot hq).routed e he⟩
  rw [occupied, hDigits, List.toFinset_card_of_nodup (List.nodup_range.filter _),
    List.length_filterMap_eq_countP, List.countP_eq_length_filter]

theorem Branch.occupied_bitmap {now : Nat} {bits : Bitmap} {slots : List (Slot κ ν)}
    (hb : (Node.bitmap now bits slots).Branch below left) :
    occupied left (Node.bitmap now bits slots).entries = slots.length := by
  rw [hb.occupied_eq, ← slots_eq_filterMap hb.shaped]

theorem Branch.occupied_array {now count : Nat} {children : List (Option (Node κ ν))}
    (hb : (Node.array now count children).Branch below left) :
    occupied left (Node.array now count children).entries = count := by
  rw [hb.occupied_eq, filterMap_slotAt_array hb.shaped.1, List.length_filterMap_eq_countP,
    ← hb.shaped.2.1]
  simp

/-- An insertion at a place that holds something. -/
theorem Branch.reshapes_promotion (hb : n.Branch below (left + 1))
    (hp : position hash (left + 1) = p) (hne : placeEntries (n.slotAt p) ≠ [])
    (hKind : n'.isArray = n.isArray)
    (hOthers : ∀ q, q ≠ p → placeArrays (n'.slotAt q) = placeArrays (n.slotAt q))
    (h : Reshapes left
      (promotion left (placeArrays (n.slotAt p)) (placeEntries (n.slotAt p)) hash)
      (placeArrays (n.slotAt p)) (placeArrays (n'.slotAt p)) events) :
    Reshapes (left + 1) (promotion (left + 1) n.arrayAt n.entries hash) n.arrayAt n'.arrayAt
      events := by
  have hPart := hb.filter_entries (hp ▸ position_lt hash (left + 1))
  rw [← arrayAt_below, ← arrayAt_below, ← hPart] at h
  rw [← hPart] at hne
  refine Reshapes.under (promotion_under hp hne) hKind (fun q hq => ?_) h
  rw [arrayAt_below, arrayAt_below, hOthers q hq]

/-- A removal from a place with several entries. -/
theorem Branch.reshapes_packing (hb : n.Branch below (left + 1))
    (hp : position hash (left + 1) = p) (hMany : 1 < (placeEntries (n.slotAt p)).length)
    (hKind : n'.isArray = n.isArray)
    (hOthers : ∀ q, q ≠ p → placeArrays (n'.slotAt q) = placeArrays (n.slotAt q))
    (h : Reshapes left (packing left (placeArrays (n.slotAt p)) (placeEntries (n.slotAt p)) hash)
      (placeArrays (n.slotAt p)) (placeArrays (n'.slotAt p)) events) :
    Reshapes (left + 1) (packing (left + 1) n.arrayAt n.entries hash) n.arrayAt n'.arrayAt
      events := by
  have hPart := hb.filter_entries (hp ▸ position_lt hash (left + 1))
  rw [← arrayAt_below, ← arrayAt_below, ← hPart] at h
  rw [← hPart] at hMany
  refine Reshapes.under (packing_under hp hMany) hKind (fun q hq => ?_) h
  rw [arrayAt_below, arrayAt_below, hOthers q hq]

/-- What an insertion at a free place promotes. -/
theorem Branch.promotion_free (hb : n.Branch below (left + 1))
    (hp : position hash (left + 1) = p) (hFree : n.slotAt p = none) :
    promotion (left + 1) n.arrayAt n.entries hash =
      if !n.isArray && decide (mostSlots ≤ occupied (left + 1) n.entries) then
        some ⟨[], .nodePromoted⟩
      else none := by
  have hPart := hb.filter_entries (hp ▸ position_lt hash (left + 1))
  rw [promotion, hp, hPart, hFree]
  rfl

/-- What a removal of the only entry of a place packs. -/
theorem Branch.packing_last (hb : n.Branch below (left + 1))
    (hp : position hash (left + 1) = p) (hOne : (placeEntries (n.slotAt p)).length ≤ 1) :
    packing (left + 1) n.arrayAt n.entries hash =
      if n.isArray && decide (occupied (left + 1) n.entries - 1 ≤ fewestChildren) then
        some ⟨[], fun shift => .nodePacked shift (occupied (left + 1) n.entries - 1)⟩
      else none := by
  have hPart := hb.filter_entries (hp ▸ position_lt hash (left + 1))
  rw [packing, hp, hPart]
  simp [hOne, arrayAt_nil]

end

section

variable [BEq κ] [HashCode κ]

/-- There are no array nodes over a single entry. -/
theorem arrayAt_of_length_le_one (h : n.WellFormed left) (hOne : n.entries.length ≤ 1) :
    n.arrayAt = .none := by
  induction left generalizing n with
  | zero =>
    obtain ⟨now, hash, es, rfl, -⟩ := wellFormed_zero h
    exact arrayAt_collision now hash es
  | succ left ih =>
    rcases h.cases with ⟨now, hash, es, rfl, -⟩ | ⟨l, hl, hb⟩
    · exact arrayAt_collision now hash es
    · cases hl
      refine arrays_ext ?_ fun q => ?_
      · cases n with
        | bitmap => rfl
        | array now count children =>
          have hCount := hb.occupied_array
          have hLe := occupied_le_length (left + 1) (Node.array now count children).entries
          have hMin := hb.shaped.2.2
          rw [fewestChildren] at hMin
          omega
        | collision => exact hb.shaped.elim
      · rw [arrayAt_below]
        cases hslot : n.slotAt q with
        | none => rfl
        | some slot =>
          cases slot with
          | leaf e => rfl
          | inner child =>
            have hPart := hb.filter_entries (lt_width_of_slotAt hb.shaped hslot)
            have hLe : (entriesAt (left + 1) q n.entries).length ≤ n.entries.length :=
              List.length_filter_le _ _
            rw [hPart, hslot, placeEntries_some, Slot.entries_inner] at hLe
            exact ih ((hb.sound q _ hslot).child child rfl) (by omega)

end

end Node

end PersistentCollections.HashTrieMap
