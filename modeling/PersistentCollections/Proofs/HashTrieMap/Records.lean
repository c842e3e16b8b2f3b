import PersistentCollections.Proofs.HashTrieMap.Reshaping

/-!
# What insertions and removals record

`insert_reshapes` and `erase_reshapes`: an insertion records the promotion that the entries and the
array paths tell, a removal records the packing that they tell, and both change the array paths
accordingly. The inductions follow those for the entries. What a removal finds in a child is known
from its entries alone: a child that loses its only entry has no array nodes, so it records nothing,
and packing may replace it by an entry or not without moving an array node.
-/

namespace PersistentCollections.HashTrieMap.Node

open Entries

variable {κ ν : Type} [BEq κ] [HashCode κ] {now stamp left p q count : Nat} {bits : Bitmap}
  {slots : List (Slot κ ν)} {children : List (Option (Node κ ν))} {n n' child : Node κ ν} {key : κ}
  {value : ν}

/-! ## Insertion -/

/-- An insertion into nodes with `left` digits to go promotes what the entries tell. -/
def Promotes (left : Nat) (insert : Node κ ν → κ × ν → UInt32 → Result (Inserted κ ν)) : Prop :=
  ∀ n key value r, n.WellFormed left → (n.Shaped ∨ n.entries ≠ []) →
    insert n (key, value) (hashCode key) = .ok r →
    Reshapes left (promotion left n.arrayAt n.entries (hashCode key)) n.arrayAt r.node.arrayAt
      r.events

omit [BEq κ] [HashCode κ] in
theorem arrayAt_singleton {hash : UInt32} {e : κ × ν}
    (h : singleton now hash e left = .ok n) : n.arrayAt = .none := by
  cases left with
  | zero => cases h
  | succ l =>
    cases h
    refine arrays_ext (by rfl) fun q => ?_
    rw [arrayAt_below, slotAt_single now (position_lt hash (l + 1))]
    split
    · rfl
    · rfl

/-- Two entries in one place have no array nodes over them. -/
theorem pair_reshapes {insert : Node κ ν → κ × ν → UInt32 → Result (Inserted κ ν)}
    {r : Inserted κ ν} (hi : Promotes left insert) (stored : κ × ν)
    (h : pair now insert left stored (hashCode stored.1) (key, value) (hashCode key) = .ok r) :
    Reshapes left (promotion left .none [stored] (hashCode key)) .none r.node.arrayAt r.events := by
  unfold pair at h
  split at h
  · cases h
    refine Reshapes.of_none (promotion_of_hash (h := hashCode stored.1) ?_ left _ _)
      (arrayAt_collision _ _ _)
    intro e he
    rw [List.mem_singleton.mp he]
  · obtain ⟨n, hn, hInsert⟩ := Result.bind_eq_ok.mp h
    cases left with
    | zero => cases hn
    | succ l =>
      obtain ⟨n', hn', hw, hs, he⟩ := singleton_spec now l stored
      cases hn.symm.trans hn'
      have hr := hi n key value r hw (Or.inl hs) hInsert
      rwa [arrayAt_singleton hn, he] at hr

omit [BEq κ] in
/-- The children of an array node that is made from a bitmap node have the array nodes that were
below its places. -/
theorem spread_arrays {m q : Nat} (hs : (Node.bitmap stamp bits slots).Shaped)
    (h : spread now left bits (List.range' q m) (slots.drop (bits.rank q)) = .ok children) :
    children.length = m ∧ ∀ i, i < m → placeArrays (children[i]?.join.map Slot.inner) =
      placeArrays ((Node.bitmap stamp bits slots).slotAt (q + i)) := by
  induction m generalizing q children with
  | zero =>
    cases h
    refine ⟨rfl, fun i hi => ?_⟩
    omega
  | succ m ih =>
    -- Each position gives one child, and the positions after it the rest.
    obtain ⟨child, rest, rfl, hRest, hChild⟩ : ∃ child rest, children = child :: rest ∧
        spread now left bits (List.range' (q + 1) m) (slots.drop (bits.rank (q + 1))) = .ok rest ∧
        placeArrays (child.map Slot.inner) =
          placeArrays ((Node.bitmap stamp bits slots).slotAt q) := by
      rw [List.range'_succ, spread.eq_def] at h
      by_cases hq : bits.has q = true
      · obtain ⟨slot, hslot, hdrop⟩ := drop_rank hs hq
        simp only [hq, if_true, hdrop] at h
        rw [hslot]
        cases slot with
        | inner child =>
          obtain ⟨rest, hRest, h⟩ := Result.bind_eq_ok.mp h
          cases h
          exact ⟨some child, rest, rfl, hRest, rfl⟩
        | leaf e =>
          obtain ⟨child, hSingle, h⟩ := Result.bind_eq_ok.mp h
          obtain ⟨rest, hRest, h⟩ := Result.bind_eq_ok.mp h
          cases h
          exact ⟨some child, rest, rfl, hRest, arrayAt_singleton hSingle⟩
      · have hrank : bits.rank (q + 1) = bits.rank q := by
          rw [Bitmap.rank, Bool.eq_false_iff.mpr hq]
          rfl
        have hslot : (Node.bitmap stamp bits slots).slotAt q = none := by rw [slotAt, if_neg hq]
        simp only [hq, Bool.false_eq_true, if_false] at h
        obtain ⟨rest, hRest, h⟩ := Result.bind_eq_ok.mp h
        cases h
        exact ⟨none, rest, rfl, hrank ▸ hRest, by rw [hslot]; rfl⟩
    obtain ⟨hLength, hArrays⟩ := ih hRest
    refine ⟨by rw [List.length_cons, hLength], fun i hi => ?_⟩
    cases i with
    | zero => exact hChild
    | succ i =>
      have hIndex : q + (i + 1) = q + 1 + i := by omega
      rw [hIndex]
      exact hArrays i (by omega)

omit [BEq κ] in
theorem promote_reshapes {hash : UInt32} {e : κ × ν} {r : Inserted κ ν}
    {below : Node κ ν → Prop} (hb : (Node.bitmap stamp bits slots).Branch below (left + 1))
    (hp : position hash (left + 1) = p) (hn : bits.has p = false)
    (hFull : mostSlots ≤ slots.length)
    (h : promote now left bits slots e hash = .ok r) :
    Reshapes (left + 1)
      (promotion (left + 1) (Node.bitmap stamp bits slots).arrayAt
        (Node.bitmap stamp bits slots).entries hash)
      (Node.bitmap stamp bits slots).arrayAt r.node.arrayAt r.events := by
  have hw : p < width := hp ▸ position_lt hash (left + 1)
  have hFree : (Node.bitmap stamp bits slots).slotAt p = none := by
    rw [slotAt, hn]
    rfl
  have hTarget := hb.promotion_free hp hFree
  rw [hb.occupied_bitmap] at hTarget
  obtain ⟨children, hSpread, h⟩ := Result.bind_eq_ok.mp h
  obtain ⟨child, hSingle, h⟩ := Result.bind_eq_ok.mp h
  cases h
  have hDrop : slots.drop (bits.rank 0) = slots := rfl
  rw [List.range_eq_range', ← hDrop] at hSpread
  obtain ⟨hLength, hArrays⟩ := spread_arrays hb.shaped hSpread
  refine Reshapes.here (hTarget.trans (by simp [isArray, hFull])) (by rfl) fun q => ?_
  rw [arrayAt_below, arrayAt_below, hp, slotAt_setChild hLength hw]
  by_cases hqp : q = p
  · subst hqp
    rw [if_pos rfl, hFree]
    exact arrayAt_singleton hSingle
  · rw [if_neg hqp]
    by_cases hq : q < width
    · rw [hArrays q hq, Nat.zero_add]
    · rw [slotAt_eq_none_of_le hb.shaped (by omega), List.getElem?_eq_none (by omega)]
      rfl

omit [BEq κ] in
/-- A free place takes an entry, and the node keeps its kind. -/
theorem Branch.reshapes_fresh {below : Node κ ν → Prop} {hash : UInt32}
    (hb : n.Branch below (left + 1)) (hp : position hash (left + 1) = p)
    (hFree : n.slotAt p = none)
    (hFew : n.isArray = false → occupied (left + 1) n.entries < mostSlots)
    (hKind : n'.isArray = n.isArray) (hOthers : ∀ q, q ≠ p → n'.slotAt q = n.slotAt q)
    (hPlace : placeArrays (n'.slotAt p) = .none) :
    Reshapes (left + 1) (promotion (left + 1) n.arrayAt n.entries hash) n.arrayAt n'.arrayAt
      [] := by
  have hStays : ¬ (!n.isArray && decide (mostSlots ≤ occupied (left + 1) n.entries)) := by
    rw [Bool.and_eq_true, decide_eq_true_eq, Bool.not_eq_true']
    exact fun h => Nat.not_le.mpr (hFew h.1) h.2
  refine Reshapes.of_none ((hb.promotion_free hp hFree).trans (if_neg hStays))
    (arrayAt_congr hKind fun q => ?_)
  by_cases hq : q = p
  · rw [hq, hPlace, hFree, placeArrays_none]
  · rw [hOthers q hq]

/-- Insertion into a bitmap node at a place that is taken. -/
theorem insertBitmap_taken_reshapes {insert : Node κ ν → κ × ν → UInt32 → Result (Inserted κ ν)}
    {r : Inserted κ ν} [LawfulHashCode κ] (hi : Promotes left insert)
    (hb : (Node.bitmap stamp bits slots).Branch (Node.WellFormed left) (left + 1))
    (hp : position (hashCode key) (left + 1) = p) (hh : bits.has p = true)
    (h : insertBitmap now insert left bits slots (key, value) (hashCode key) = .ok r) :
    Reshapes (left + 1)
      (promotion (left + 1) (Node.bitmap stamp bits slots).arrayAt
        (Node.bitmap stamp bits slots).entries (hashCode key))
      (Node.bitmap stamp bits slots).arrayAt r.node.arrayAt r.events := by
  obtain ⟨slot, hr, hslot⟩ := exists_slot hb.shaped hh
  have hSound := hb.sound p slot hslot
  -- Whatever is put into the slot, the other places stay.
  have hSet : ∀ slot' events,
      Reshapes left (promotion left (placeArrays (some slot)) slot.entries (hashCode key))
        (placeArrays (some slot)) (placeArrays (some slot')) events →
      Reshapes (left + 1)
        (promotion (left + 1) (Node.bitmap stamp bits slots).arrayAt
          (Node.bitmap stamp bits slots).entries (hashCode key))
        (Node.bitmap stamp bits slots).arrayAt
        (Node.bitmap now bits (slots.set (bits.rank p) slot')).arrayAt events := by
    intro slot' events hSlot
    refine hb.reshapes_promotion hp ?_ (by rfl) (fun q hq => ?_) ?_
    · rw [hslot, placeEntries_some]
      exact hSound.filled
    · rw [slotAt_set hb.shaped hh, if_neg hq]
    · rw [slotAt_set hb.shaped hh, if_pos rfl, hslot, placeEntries_some]
      exact hSlot
  simp only [insertBitmap, hp, hh, if_true, hr] at h
  cases slot with
  | inner child =>
    obtain ⟨r', hInsert, h⟩ := Result.bind_eq_ok.mp h
    cases h
    exact hSet _ _
      (hi child key value r' (hSound.child child rfl) (Or.inr hSound.filled) hInsert)
  | leaf stored =>
    by_cases he : (stored.1 == key) = true
    · simp only [he, if_true] at h
      cases h
      refine hSet _ _ (Reshapes.of_none (promotion_of_hash (h := hashCode key) ?_ _ _ _) rfl)
      intro e hmem
      rw [Slot.entries_leaf, List.mem_singleton] at hmem
      rw [hmem, LawfulHashCode.hashCode_eq he]
    · simp only [he, Bool.false_eq_true, if_false] at h
      obtain ⟨r', hPair, h⟩ := Result.bind_eq_ok.mp h
      cases h
      exact hSet _ _ (pair_reshapes hi stored hPair)

/-- Insertion into a bitmap node at a free place, which may be one too many. -/
theorem insertBitmap_free_reshapes {insert : Node κ ν → κ × ν → UInt32 → Result (Inserted κ ν)}
    {r : Inserted κ ν}
    (hb : (Node.bitmap stamp bits slots).Branch (Node.WellFormed left) (left + 1))
    (hp : position (hashCode key) (left + 1) = p) (hn : bits.has p = false)
    (h : insertBitmap now insert left bits slots (key, value) (hashCode key) = .ok r) :
    Reshapes (left + 1)
      (promotion (left + 1) (Node.bitmap stamp bits slots).arrayAt
        (Node.bitmap stamp bits slots).entries (hashCode key))
      (Node.bitmap stamp bits slots).arrayAt r.node.arrayAt r.events := by
  have hw : p < width := hp ▸ position_lt (hashCode key) (left + 1)
  simp only [insertBitmap, hp, hn, Bool.false_eq_true, if_false] at h
  by_cases hl : slots.length < mostSlots
  · have hFree : (Node.bitmap stamp bits slots).slotAt p = none := by
      rw [slotAt, hn]
      rfl
    have hAt : ∀ q, (Node.bitmap now (bits.insert p)
        (slots.insertIdx (bits.rank p) (.leaf (key, value)))).slotAt q =
          if q = p then some (.leaf (key, value)) else (Node.bitmap stamp bits slots).slotAt q :=
      slotAt_insertIdx hb.shaped hw hn
    simp only [hl, if_true] at h
    split at h
    · cases h
      refine hb.reshapes_fresh hp hFree (fun _ => ?_) (by rfl)
        (fun q hq => by rw [hAt, if_neg hq]) ?_
      · rw [hb.occupied_bitmap]
        exact hl
      · rw [hAt, if_pos rfl]
        rfl
    · cases h
  · simp only [hl, if_false] at h
    exact promote_reshapes hb hp hn (Nat.le_of_not_lt hl) h

/-- Insertion into a bitmap node. -/
theorem insertBitmap_reshapes {insert : Node κ ν → κ × ν → UInt32 → Result (Inserted κ ν)}
    {r : Inserted κ ν} [LawfulHashCode κ] (hi : Promotes left insert)
    (hb : (Node.bitmap stamp bits slots).Branch (Node.WellFormed left) (left + 1))
    (h : insertBitmap now insert left bits slots (key, value) (hashCode key) = .ok r) :
    Reshapes (left + 1)
      (promotion (left + 1) (Node.bitmap stamp bits slots).arrayAt
        (Node.bitmap stamp bits slots).entries (hashCode key))
      (Node.bitmap stamp bits slots).arrayAt r.node.arrayAt r.events := by
  by_cases hh : bits.has (position (hashCode key) (left + 1)) = true
  · exact insertBitmap_taken_reshapes hi hb rfl hh h
  · exact insertBitmap_free_reshapes hb rfl (Bool.eq_false_iff.mpr hh) h

theorem insert_array_reshapes {r : Inserted κ ν}
    (hi : Promotes left (insert (κ := κ) (ν := ν) now left))
    (hb : (Node.array stamp count children).Branch (Node.WellFormed left) (left + 1))
    (h : insert now (left + 1) (.array stamp count children) (key, value) (hashCode key) = .ok r) :
    Reshapes (left + 1)
      (promotion (left + 1) (Node.array stamp count children).arrayAt
        (Node.array stamp count children).entries (hashCode key))
      (Node.array stamp count children).arrayAt r.node.arrayAt r.events := by
  have hw := position_lt (hashCode key) (left + 1)
  obtain ⟨place, hr, hslot⟩ := exists_child hb.shaped hw
  rw [insert] at h
  simp only [hr] at h
  cases place with
  | some child =>
    have hSound := hb.sound _ _ hslot
    obtain ⟨r', hInsert, h⟩ := Result.bind_eq_ok.mp h
    cases h
    refine hb.reshapes_promotion rfl ?_ (by rfl) (fun q hq => ?_) ?_
    · rw [hslot]
      exact (placeEntries_some _).symm ▸ hSound.filled
    · rw [slotAt_setChild hb.shaped.1 hw, if_neg hq]
      rfl
    · rw [slotAt_setChild hb.shaped.1 hw, if_pos rfl, hslot]
      exact (placeEntries_some (Slot.inner child)).symm ▸
        hi child key value r' (hSound.child child rfl) (Or.inr hSound.filled) hInsert
  | none =>
    obtain ⟨child, hSingle, h⟩ := Result.bind_eq_ok.mp h
    cases h
    have hAt : ∀ q, (Node.array now (count + 1) (children.set (position (hashCode key) (left + 1))
        (some child))).slotAt q = _ := slotAt_setChild hb.shaped.1 hw (some child)
    refine hb.reshapes_fresh rfl hslot (fun hBitmap => by cases hBitmap) (by rfl)
      (fun q hq => by rw [hAt, if_neg hq]; rfl) ?_
    rw [hAt, if_pos rfl]
    exact arrayAt_singleton hSingle

omit [BEq κ] in
/-- A collision node that takes an entry stays one. -/
theorem collision_reshapes {hash hash' : UInt32} {es es' : List (κ × ν)}
    (hh : ∀ e ∈ es, hashCode e.1 = hash) :
    Reshapes left
      (promotion left (Node.collision stamp hash es).arrayAt (Node.collision stamp hash es).entries
        hash')
      (Node.collision stamp hash es).arrayAt (Node.collision now hash es').arrayAt [] := by
  rw [entries_collision, arrayAt_collision, arrayAt_collision]
  exact Reshapes.of_none (promotion_of_hash hh _ _ _) rfl

omit [BEq κ] [HashCode κ] in
/-- The bitmap node that a collision node is put below has no array nodes under it. -/
theorem arrayAt_nest (now left : Nat) (hash : UInt32) (es : List (κ × ν)) :
    (Node.bitmap now (Bitmap.empty.insert (position hash (left + 1)))
      [Slot.inner (Node.collision now hash es)]).arrayAt = .none := by
  refine arrays_ext (by rfl) fun q => ?_
  rw [arrayAt_below, slotAt_single now (position_lt hash (left + 1))]
  split
  · exact arrayAt_collision now hash es
  · rfl

/-- Insertion into a well-formed node promotes what the entries tell. -/
theorem insert_promotes [LawfulHashCode κ] (now left : Nat) :
    Promotes left (insert (κ := κ) (ν := ν) now left) := by
  induction left with
  | zero =>
    intro n key value r hn hf h
    obtain ⟨stamp, hash, es, rfl, hb⟩ := wellFormed_zero hn
    rw [insert] at h
    split at h
    · split at h
      · cases h
        exact collision_reshapes hb.hash
      · cases h
        exact collision_reshapes hb.hash
    · cases h
  | succ left ih =>
    intro n key value r hn hf h
    cases n with
    | bitmap stamp bits slots => exact insertBitmap_reshapes ih hn h
    | array stamp count children => exact insert_array_reshapes ih hn h
    | collision stamp hash es =>
      have hb : Bucket hash es := wellFormed_collision.mp hn
      rw [insert] at h
      split at h
      · split at h
        · cases h
          exact collision_reshapes hb.hash
        · cases h
          exact collision_reshapes hb.hash
      · obtain ⟨hNest, hEntries⟩ := nest_spec hb (by simpa [Shaped] using hf) now left
        have hr := insertBitmap_reshapes ih hNest h
        rw [hEntries, arrayAt_nest] at hr
        rwa [entries_collision, arrayAt_collision]

/-! ## Removal -/

/-- The outcome of a removal from a node: it packs what the entries tell. -/
def PacksTo (left : Nat) (n : Node κ ν) (key : κ) (r : Erased κ ν) : Prop :=
  Reshapes left (packing left n.arrayAt n.entries (hashCode key)) n.arrayAt r.node.arrayAt r.events

omit [BEq κ] [HashCode κ] in
theorem length_gather (sole : (position stamp : Nat) → Bool) (q : Nat)
    (children : List (Option (Node κ ν))) :
    (gather sole q children).2.length = children.countP Option.isSome := by
  induction children generalizing q with
  | nil => rfl
  | cons child children ih =>
    cases child with
    | none => simpa [gather] using ih (q + 1)
    | some child => simpa [gather] using ih (q + 1)

omit [BEq κ] [HashCode κ] in
theorem pack_event (now : Nat) (sole : Sharing) (left : Nat)
    (children : List (Option (Node κ ν))) :
    (pack now sole left children).2 =
      .nodePacked (shiftOf left) (children.countP Option.isSome) := by
  rw [← length_gather (sole (shiftOf left)) 0]
  rfl

/-- A child may give its place to its only entry: there are no array nodes over that. -/
theorem placeArrays_packed (sole : (position stamp : Nat) → Bool) (p : Nat)
    (hc : child.WellFormed left) :
    placeArrays (some (packed sole p child)) = child.arrayAt := by
  unfold packed
  split
  · next e he =>
    split
    · refine (arrayAt_of_length_le_one hc ?_).symm
      rw [entries_of_single? he]
      exact Nat.le_refl 1
    · rfl
  · rfl

section Lawful

variable [LawfulHashCode κ] {sole : Sharing} {r : Erased κ ν}

/-- What a removal leaves of the entries of a node. -/
theorem removes_of_erase (hn : n.WellFormed left)
    (h : erase now sole key (hashCode key) left n = .ok (some r)) : Removes left n key r := by
  have ha := erase_answers now sole key left n hn
  rw [h] at ha
  cases ha with
  | taken hr => exact hr

omit [LawfulHashCode κ] in
/-- A node that loses its only entry records nothing. -/
theorem events_of_single (hn : n.WellFormed left) (hr : Removes left n key r)
    (hPacks : PacksTo left n key r) (hEmpty : r.node.entries = []) :
    n.entries.length = 1 ∧ n.arrayAt = .none ∧ r.events = [] := by
  have hLength : n.entries.length = 1 := by
    rw [hr.cut.perm.length_eq, hEmpty]
    rfl
  have hNone := arrayAt_of_length_le_one hn (Nat.le_of_eq hLength)
  refine ⟨hLength, hNone, ?_⟩
  rw [hPacks.events_eq, hNone, packing_of_no_arrays]
  rfl

omit [LawfulHashCode κ] in
/-- A place without array nodes is given up, and the node keeps its kind. -/
theorem Branch.packs_gone {taken : κ × ν} (hb : n.Branch (Node.WellFormed left) (left + 1))
    (hp : position (hashCode key) (left + 1) = p) (hOne : (placeEntries (n.slotAt p)).length ≤ 1)
    (hNone : placeArrays (n.slotAt p) = .none)
    (hMany : n.isArray = true → fewestChildren < occupied (left + 1) n.entries - 1)
    (hKind : n'.isArray = n.isArray)
    (hPlaces : ∀ q, n'.slotAt q = if q = p then none else n.slotAt q) :
    PacksTo (left + 1) n key ⟨n', taken, []⟩ := by
  have hStays : ¬ (n.isArray && decide (occupied (left + 1) n.entries - 1 ≤ fewestChildren)) := by
    rw [Bool.and_eq_true, decide_eq_true_eq]
    exact fun h => Nat.not_le.mpr (hMany h.1) h.2
  refine Reshapes.of_none ((hb.packing_last hp hOne).trans (if_neg hStays))
    (arrayAt_congr hKind fun q => ?_)
  rw [hPlaces]
  split
  · next hq => rw [hq, hNone, placeArrays_none]
  · rfl

omit [LawfulHashCode κ] in
/-- A place keeps what is left of a child, as a child or as an entry. -/
theorem Branch.packs_kept (hb : n.Branch (Node.WellFormed left) (left + 1))
    (hp : position (hashCode key) (left + 1) = p) (hslot : n.slotAt p = some (.inner child))
    (hRemoves : Removes left child key r) (hPacks : PacksTo left child key r)
    (hne : r.node.entries ≠ []) (hKind : n'.isArray = n.isArray)
    (hOthers : ∀ q, q ≠ p → n'.slotAt q = n.slotAt q)
    (hPlace : placeArrays (n'.slotAt p) = r.node.arrayAt) :
    PacksTo (left + 1) n key ⟨n', r.entry, r.events⟩ := by
  have hPos := List.length_pos_iff.mpr hne
  have hLength := hRemoves.cut.perm.length_eq
  rw [List.length_cons] at hLength
  refine hb.reshapes_packing hp ?_ hKind (fun q hq => by rw [hOthers q hq]) ?_
  · rw [hslot, placeEntries_some, Slot.entries_inner]
    omega
  · rw [hPlace, hslot, placeEntries_some]
    exact hPacks

theorem erase_bitmap_packs
    (ih : ∀ (n : Node κ ν) (r : Erased κ ν), n.WellFormed left →
      erase now sole key (hashCode key) left n = .ok (some r) → PacksTo left n key r)
    (hb : (Node.bitmap stamp bits slots).Branch (Node.WellFormed left) (left + 1))
    (h : erase now sole key (hashCode key) (left + 1) (.bitmap stamp bits slots) = .ok (some r)) :
    PacksTo (left + 1) (.bitmap stamp bits slots) key r := by
  rw [erase] at h
  generalize hp : position (hashCode key) (left + 1) = p at h
  by_cases hh : bits.has p = true
  · obtain ⟨slot, hr, hslot⟩ := exists_slot hb.shaped hh
    have hGone : ∀ taken, slot.entries.length ≤ 1 → placeArrays (some slot) = .none →
        PacksTo (left + 1) (.bitmap stamp bits slots) key
          ⟨.bitmap now (bits.toggle p) (slots.eraseIdx (bits.rank p)), taken, []⟩ := by
      intro taken hOne hNone
      refine hb.packs_gone hp ?_ (by rw [hslot, hNone]) (fun hArray => by cases hArray) (by rfl)
        (slotAt_eraseIdx stamp hh)
      rw [hslot, placeEntries_some]
      exact hOne
    simp only [hh, if_true, hr] at h
    cases slot with
    | leaf e =>
      simp only at h
      split at h
      · cases h
        exact hGone _ (Nat.le_refl 1) rfl
      · cases h
    | inner child =>
      have hc := (hb.sound p _ hslot).child child rfl
      obtain ⟨answer, hErase, h⟩ := Result.bind_eq_ok.mp h
      cases answer with
      | none => cases h
      | some r' =>
        have hRemoves := removes_of_erase hc hErase
        have hPacks := ih child r' hc hErase
        have hEmptyIff := isEmpty_iff hRemoves.wellFormed
        cases h
        by_cases hEmpty : r'.node.isEmpty = true
        · obtain ⟨hOne, hNone, hEvents⟩ :=
            events_of_single hc hRemoves hPacks (hEmptyIff.mp hEmpty)
          simp only [hEmpty, if_true, hEvents]
          exact hGone _ (Nat.le_of_eq hOne) hNone
        · have hne : r'.node.entries ≠ [] := fun he => hEmpty (hEmptyIff.mpr he)
          have hKept : ∀ slot', placeArrays (some slot') = r'.node.arrayAt →
              PacksTo (left + 1) (.bitmap stamp bits slots) key
                ⟨.bitmap now bits (slots.set (bits.rank p) slot'), r'.entry, r'.events⟩ := by
            intro slot' hArrays
            have hAt : ∀ q, (Node.bitmap now bits (slots.set (bits.rank p) slot')).slotAt q =
                if q = p then some slot' else (Node.bitmap stamp bits slots).slotAt q :=
              slotAt_set hb.shaped hh
            refine hb.packs_kept hp hslot hRemoves hPacks hne (by rfl)
              (fun q hq => by rw [hAt, if_neg hq]) ?_
            rw [hAt, if_pos rfl, hArrays]
          simp only [hEmpty, Bool.false_eq_true, if_false]
          cases hSingle : r'.node.single? with
          | some e =>
            refine hKept _ (arrayAt_of_length_le_one hRemoves.wellFormed ?_).symm
            rw [entries_of_single? hSingle]
            exact Nat.le_refl 1
          | none => exact hKept _ rfl
  · simp only [hh, Bool.false_eq_true, if_false] at h
    cases h

omit [LawfulHashCode κ] in
/-- Packing an array node that has lost a child with a single entry. -/
theorem Branch.reshapes_pack
    (hb : (Node.array stamp count children).Branch (Node.WellFormed left) (left + 1))
    (hp : position (hashCode key) (left + 1) = p) (hchild : children[p]? = some (some child))
    (hOne : child.entries.length = 1) (hNone : child.arrayAt = .none)
    (hfew : count - 1 ≤ fewestChildren) :
    Reshapes (left + 1)
      (packing (left + 1) (Node.array stamp count children).arrayAt
        (Node.array stamp count children).entries (hashCode key))
      (Node.array stamp count children).arrayAt
      (pack now sole (left + 1) (children.set p none)).1.arrayAt
      [(pack now sole (left + 1) (children.set p none)).2] := by
  obtain ⟨hlen, hsum, hmin⟩ := hb.shaped
  obtain ⟨hlt, hat⟩ := List.getElem?_eq_some_iff.mp hchild
  have hslot : (Node.array stamp count children).slotAt p = some (.inner child) := by
    rw [slotAt, hchild]
    rfl
  have hTarget := hb.packing_last hp (by
    rw [hslot, placeEntries_some]
    exact Nat.le_of_eq hOne)
  rw [hb.occupied_array, if_pos (by simp [isArray, hfew])] at hTarget
  have hLeft : (children.set p none).countP Option.isSome = count - 1 := by
    rw [List.countP_set hlt, hat, hsum]
    simp
  have hLen : (children.set p none).length = width := by rw [List.length_set, hlen]
  have hMost : (children.set p none).countP Option.isSome ≤ mostSlots := by
    rw [hLeft]
    exact Nat.le_trans hfew (by decide)
  obtain ⟨hs, hAt⟩ := pack_spec now sole (left + 1) hLen hMost
  rw [pack_event, hLeft]
  refine Reshapes.here hTarget (by rfl) fun q => ?_
  rw [arrayAt_below, arrayAt_below]
  by_cases hq : q < width
  · rw [hAt q hq]
    by_cases hqp : q = p
    · rw [hqp, List.getElem?_set_self hlt, hslot]
      exact hNone.symm
    · rw [List.getElem?_set_ne (Ne.symm hqp), slotAt]
      cases hPlace : children[q]?.join with
      | none => rfl
      | some node =>
        have hNode : (Node.array stamp count children).slotAt q = some (.inner node) := by
          rw [slotAt, hPlace]
          rfl
        exact placeArrays_packed _ q ((hb.sound q _ hNode).child node rfl)
  · rw [slotAt_eq_none_of_le hs (by omega), slotAt_eq_none_of_le hb.shaped (by omega)]

theorem erase_array_packs
    (ih : ∀ (n : Node κ ν) (r : Erased κ ν), n.WellFormed left →
      erase now sole key (hashCode key) left n = .ok (some r) → PacksTo left n key r)
    (hb : (Node.array stamp count children).Branch (Node.WellFormed left) (left + 1))
    (h : erase now sole key (hashCode key) (left + 1) (.array stamp count children) =
      .ok (some r)) :
    PacksTo (left + 1) (.array stamp count children) key r := by
  have hw := position_lt (hashCode key) (left + 1)
  obtain ⟨place, hr, hslot⟩ := exists_child hb.shaped hw
  rw [erase] at h
  generalize hp : position (hashCode key) (left + 1) = p at h hw hr hslot
  simp only [hr] at h
  cases place with
  | none => cases h
  | some child =>
    have hc := (hb.sound p _ hslot).child child rfl
    obtain ⟨answer, hErase, h⟩ := Result.bind_eq_ok.mp h
    cases answer with
    | none => cases h
    | some r' =>
      have hRemoves := removes_of_erase hc hErase
      have hPacks := ih child r' hc hErase
      have hEmptyIff := isEmpty_iff hRemoves.wellFormed
      obtain ⟨hlen, -, hmin⟩ := hb.shaped
      by_cases hEmpty : r'.node.isEmpty = true
      · obtain ⟨hOne, hNone, hEvents⟩ := events_of_single hc hRemoves hPacks (hEmptyIff.mp hEmpty)
        have hz : ¬ count = 0 := by omega
        simp only [hEmpty, hz, Bool.not_true, Bool.false_eq_true, if_false] at h
        by_cases hfew : count - 1 ≤ fewestChildren
        · simp only [hfew, if_true] at h
          cases h
          simp only [PacksTo, hEvents, List.nil_append]
          exact hb.reshapes_pack hp hr hOne hNone hfew
        · simp only [hfew, if_false] at h
          cases h
          rw [hEvents]
          refine hb.packs_gone hp ?_ (by rw [hslot]; exact hNone) (fun _ => ?_) (by rfl)
            fun q => ?_
          · rw [hslot, Option.map_some, placeEntries_some]
            exact Nat.le_of_eq hOne
          · rw [hb.occupied_array]
            exact Nat.lt_of_not_le hfew
          · rw [slotAt_setChild hlen hw]
            rfl
      · have hne : r'.node.entries ≠ [] := fun he => hEmpty (hEmptyIff.mpr he)
        simp only [hEmpty, Bool.not_false, if_true] at h
        cases h
        refine hb.packs_kept hp hslot hRemoves hPacks hne (by rfl) (fun q hq => ?_) ?_
        · rw [slotAt_setChild hlen hw, if_neg hq]
          rfl
        · rw [slotAt_setChild hlen hw, if_pos rfl]
          rfl

omit [LawfulHashCode κ] in
theorem erase_collision_packs {hash : UInt32} {es : List (κ × ν)}
    (h : (if hash = hashCode key then
        .ok ((takeSwap? key es).map fun (entry, es) => ⟨.collision now hash es, entry, []⟩)
      else .ok none : Result (Option (Erased κ ν))) = .ok (some r)) :
    PacksTo left (.collision stamp hash es) key r := by
  split at h
  · obtain ⟨⟨taken, es'⟩, -, rfl⟩ := Option.map_eq_some_iff.mp (Except.ok.inj h)
    rw [PacksTo, arrayAt_collision]
    exact Reshapes.of_none (packing_of_no_arrays _ _ _) (arrayAt_collision _ _ _)
  · cases h

/-- A removal from a well-formed node packs what the entries tell, whichever nodes have other
owners. -/
theorem erase_packs (now : Nat) (sole : Sharing) (key : κ) (left : Nat) (n : Node κ ν)
    (r : Erased κ ν) (hn : n.WellFormed left)
    (h : erase now sole key (hashCode key) left n = .ok (some r)) : PacksTo left n key r := by
  induction left generalizing n r with
  | zero =>
    obtain ⟨stamp, hash, es, rfl, -⟩ := wellFormed_zero hn
    rw [erase] at h
    exact erase_collision_packs h
  | succ left ih =>
    cases n with
    | bitmap stamp bits slots => exact erase_bitmap_packs ih hn h
    | array stamp count children => exact erase_array_packs ih hn h
    | collision stamp hash es =>
      rw [erase] at h
      exact erase_collision_packs h

end Lawful

/-! ## A removal that finds nothing -/

/-- Writing the nodes on the way of a hash anew moves no array node. -/
theorem arrayAt_touch (now : Nat) (hash : UInt32) (left : Nat) (n : Node κ ν)
    (hn : n.WellFormed left) : (touch now hash left n).arrayAt = n.arrayAt := by
  induction left generalizing n with
  | zero =>
    obtain ⟨stamp, hash', es, rfl, -⟩ := wellFormed_zero hn
    rw [touch, arrayAt_collision, arrayAt_collision]
  | succ left ih =>
    have hw := position_lt hash (left + 1)
    cases n with
    | collision stamp hash' es => rw [touch, arrayAt_collision, arrayAt_collision]
    | bitmap stamp bits slots =>
      have hb : (Node.bitmap stamp bits slots).Branch (Node.WellFormed left) (left + 1) := hn
      rw [touch]
      cases hChild : (Node.bitmap now bits slots).child? (position hash (left + 1)) with
      | none => exact arrayAt_congr (by rfl) fun q => by rfl
      | some child =>
        obtain ⟨hh, hslot⟩ : bits.has (position hash (left + 1)) = true ∧
            (Node.bitmap stamp bits slots).slotAt (position hash (left + 1)) =
              some (.inner child) := child?_bitmap hChild
        refine arrayAt_congr (by rfl) fun q => ?_
        rw [slotAt_set hb.shaped hh]
        split
        · next hq =>
          rw [hq, hslot]
          exact ih child ((hb.sound _ _ hslot).child child rfl)
        · rfl
    | array stamp count children =>
      have hb : (Node.array stamp count children).Branch (Node.WellFormed left) (left + 1) := hn
      obtain ⟨place, hr, hslot⟩ := exists_child hb.shaped hw
      rw [touch]
      simp only [hr]
      cases place with
      | none => exact arrayAt_congr (by rfl) fun q => by rfl
      | some child =>
        refine arrayAt_congr (by rfl) fun q => ?_
        rw [slotAt_setChild hb.shaped.1 hw]
        split
        · next hq =>
          rw [hq, hslot]
          exact ih child ((hb.sound _ _ hslot).child child rfl)
        · rfl

end PersistentCollections.HashTrieMap.Node
