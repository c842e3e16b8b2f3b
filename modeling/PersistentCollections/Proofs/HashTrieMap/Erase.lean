import PersistentCollections.Proofs.HashTrieMap.Update
import PersistentCollections.Proofs.Outcome

/-!
# Removal from a trie

`erase` either gives a well-formed node without the entry of the key, which is one `Cut`, or finds
that the node lacks the key (`erase_removes`). A child that is left with one entry may be replaced
by that entry, and packing does the same to children of its choice: both exchange a place for one
with the same entries, so the answer does not depend on which nodes have other owners.
`touch` changes no entry.
-/

namespace PersistentCollections.HashTrieMap.Node

open Entries

variable {κ ν : Type} [BEq κ] [HashCode κ] {now stamp left p q count : Nat} {bits : Bitmap}
  {slots : List (Slot κ ν)} {children : List (Option (Node κ ν))} {n : Node κ ν} {key : κ}
  {sole : Sharing}

/-- The outcome of taking the entry of a key out of a node: a well-formed node of the same kind,
with one `Cut`. -/
structure Removes (left : Nat) (n : Node κ ν) (key : κ) (r : Erased κ ν) : Prop where
  wellFormed : r.node.WellFormed left
  shaped : n.Shaped → r.node.Shaped
  cut : Cut key n.entries r.entry r.node.entries

/-- What a removal from a node can answer: the node without the entry, or that there is none. -/
inductive Answers (left : Nat) (n : Node κ ν) (key : κ) : Result (Option (Erased κ ν)) → Prop
  | taken {r : Erased κ ν} : Removes left n key r → Answers left n key (.ok (some r))
  | absent : Lacks key n.entries → Answers left n key (.ok none)

/-! ## Small nodes -/

theorem isEmpty_iff (h : n.WellFormed left) : n.isEmpty = true ↔ n.entries = [] := by
  rcases h.cases with ⟨stamp, hash, es, rfl, -⟩ | ⟨l, rfl, hb⟩
  · simp [isEmpty]
  · cases n with
    | bitmap stamp bits slots =>
      rw [isEmpty, List.isEmpty_iff, entries_bitmap]
      constructor
      · rintro rfl
        rfl
      · intro he
        by_contra hne
        obtain ⟨slot, hslot⟩ := List.exists_mem_of_ne_nil slots hne
        rw [slots_eq_filterMap hb.shaped] at hslot
        obtain ⟨q, -, hq⟩ := List.mem_filterMap.mp hslot
        rw [← slots_eq_filterMap hb.shaped] at hslot
        exact (hb.sound q slot hq).filled (List.flatMap_eq_nil_iff.mp he slot hslot)
    | array stamp count children =>
      obtain ⟨hlen, hcount, hmin⟩ := hb.shaped
      have hpos : 0 < children.countP Option.isSome := by omega
      obtain ⟨child, hc, hsome⟩ := List.countP_pos_iff.mp hpos
      obtain ⟨node, rfl⟩ := Option.isSome_iff_exists.mp hsome
      obtain ⟨q, hq⟩ := List.mem_iff_getElem?.mp hc
      have hslot : (Node.array stamp count children).slotAt q = some (.inner node) := by
        rw [slotAt, hq]
        rfl
      have hne : (Node.array stamp count children).entries ≠ [] := by
        obtain ⟨e, he⟩ := List.exists_mem_of_ne_nil _ (hb.sound q _ hslot).filled
        exact List.ne_nil_of_mem (hb.mem_entries.mpr ⟨q, _, hslot, he⟩)
      have hz : ¬ count = 0 := by omega
      simp [isEmpty, hz, hne]
    | collision => exact hb.shaped.elim

omit [BEq κ] [HashCode κ] in
theorem entries_of_single? {e : κ × ν} (h : n.single? = some e) : n.entries = [e] := by
  unfold single? at h
  split at h
  · cases h
    rw [entries_bitmap]
    rfl
  · cases h
    rw [entries_collision]
  · cases h

/-! ## Packing -/

omit [BEq κ] [HashCode κ] in
theorem entries_packed (sole : (position stamp : Nat) → Bool) (p : Nat) (child : Node κ ν) :
    (packed sole p child).entries = child.entries := by
  unfold packed
  split
  · next e he =>
    split
    · rw [Slot.entries_leaf, entries_of_single? he]
    · rfl
  · rfl

omit [BEq κ] [HashCode κ] in
theorem packed_eq_inner {sole : (position stamp : Nat) → Bool} {child node : Node κ ν}
    (h : packed sole p child = .inner node) : node = child := by
  unfold packed at h
  split at h
  · split at h
    · cases h
    · cases h
      rfl
  · cases h
    rfl

/-- The entries of a list that is counted from `q`, behind the first. -/
theorem getElem?_cons_sub {α : Type} {x : α} {xs : List α} {q i : Nat} (hi : q < i) :
    (x :: xs)[i - q]? = xs[i - (q + 1)]? := by
  have he : i - q = i - (q + 1) + 1 := by omega
  rw [he, List.getElem?_cons_succ]

theorem isSome_cons_sub {α : Type} (x : Option α) (xs : List (Option α)) (q i : Nat) :
    (decide (q ≤ i) && (x :: xs)[i - q]?.join.isSome) =
      (decide (i = q) && x.isSome || (decide (q + 1 ≤ i) && xs[i - (q + 1)]?.join.isSome)) := by
  rcases Nat.lt_trichotomy i q with hi | rfl | hi
  · have h₁ : ¬ q ≤ i := by omega
    have h₂ : ¬ q + 1 ≤ i := by omega
    have h₃ : ¬ i = q := by omega
    simp only [h₁, h₂, h₃, decide_false, Bool.false_and, Bool.or_self]
  · have hHead : (x :: xs)[i - i]?.join = x := by
      rw [Nat.sub_self]
      rfl
    have h₂ : ¬ i + 1 ≤ i := by omega
    simp only [hHead, h₂, Nat.le_refl, decide_true, decide_false, Bool.true_and, Bool.false_and,
      Bool.or_false]
  · have h₁ : q ≤ i := by omega
    have h₂ : q + 1 ≤ i := hi
    have h₃ : ¬ i = q := by omega
    simp only [getElem?_cons_sub hi, h₁, h₂, h₃, decide_true, decide_false, Bool.true_and,
      Bool.false_and, Bool.false_or]

omit [BEq κ] [HashCode κ] in
/-- Packing lists the places of the children from position `q` on, and marks their positions. -/
theorem gather_spec (sole : (position stamp : Nat) → Bool) (children : List (Option (Node κ ν)))
    (q : Nat) (hq : q + children.length ≤ width) :
    (gather sole q children).2 = (List.range' q children.length).filterMap
        (fun i => children[i - q]?.join.map (packed sole i)) ∧
      ∀ i, (gather sole q children).1.has i =
        (decide (q ≤ i) && children[i - q]?.join.isSome) := by
  induction children generalizing q with
  | nil => exact ⟨rfl, fun i => by simp [gather, Bitmap.has_empty]⟩
  | cons child children ih =>
    rw [List.length_cons] at hq
    obtain ⟨hs, hb⟩ := ih (q + 1) (by omega)
    have hRest : (List.range' (q + 1) children.length).filterMap
          (fun i => (child :: children)[i - q]?.join.map (packed sole i)) =
        (gather sole (q + 1) children).2 := by
      rw [hs]
      refine List.filterMap_congr fun i hi => ?_
      rw [getElem?_cons_sub (List.mem_range'_1.mp hi).1]
    have hHead : (child :: children)[q - q]?.join = child := by
      rw [Nat.sub_self]
      rfl
    rw [List.length_cons, List.range'_succ]
    cases child with
    | none =>
      have hGather : gather sole q (none :: children) = gather sole (q + 1) children := rfl
      refine ⟨?_, fun i => ?_⟩
      · rw [hGather, List.filterMap_cons_none (by rw [hHead]; rfl), hRest]
      · rw [hGather, hb i, isSome_cons_sub]
        simp only [Option.isSome_none, Bool.and_false, Bool.false_or]
    | some child =>
      have hGather : gather sole q (some child :: children) =
          ((gather sole (q + 1) children).1.insert q,
            packed sole q child :: (gather sole (q + 1) children).2) := rfl
      refine ⟨?_, fun i => ?_⟩
      · rw [hGather, List.filterMap_cons_some (by rw [hHead]; rfl), hRest]
      · rw [hGather, Bitmap.has_insert (by omega), hb i, isSome_cons_sub]
        simp only [Option.isSome_some, Bool.and_true]

omit [BEq κ] [HashCode κ] in
/-- A packed node holds what its children hold, at the same positions. -/
theorem pack_spec (now : Nat) (sole : Sharing) (left : Nat) (hl : children.length = width)
    (hc : children.countP Option.isSome ≤ mostSlots) :
    (pack now sole left children).1.Shaped ∧ ∀ q, q < width →
      (pack now sole left children).1.slotAt q =
        children[q]?.join.map (packed (sole (shiftOf left)) q) := by
  obtain ⟨hSlots, hBits⟩ := gather_spec (sole (shiftOf left)) children 0 (by omega)
  simp only [Nat.sub_zero, Nat.zero_le, decide_true, Bool.true_and, hl,
    ← List.range_eq_range'] at hSlots hBits
  have hPack : (pack now sole left children).1 =
      .bitmap now (gather (sole (shiftOf left)) 0 children).1
        ((List.range width).filterMap fun q =>
          children[q]?.join.map (packed (sole (shiftOf left)) q)) := by
    rw [← hSlots]
    rfl
  have hHas : ∀ q, q < width → (gather (sole (shiftOf left)) 0 children).1.has q =
      (children[q]?.join.map (packed (sole (shiftOf left)) q)).isSome := by
    intro q _
    rw [hBits q, Option.isSome_map]
  rw [hPack]
  refine ⟨⟨length_eq_count hHas, ?_⟩, fun q hq => slotAt_bitmap hq hHas⟩
  have hCount : ((List.range width).filterMap fun q =>
      children[q]?.join.map (packed (sole (shiftOf left)) q)).length =
        children.countP Option.isSome := by
    rw [List.length_filterMap_eq_countP]
    conv_rhs => rw [children_eq_map hl, List.countP_map]
    simp only [Option.isSome_map]
    rfl
  rw [hCount]
  exact hc

/-! ## Removal -/

section Lawful

variable [LawfulHashCode κ] {slot slot' : Slot κ ν} {child : Node κ ν} {taken : κ × ν}

theorem erase_collision {hash : UInt32} {es : List (κ × ν)} (hb : Bucket hash es) :
    Answers left (.collision stamp hash es) key
      (if hash = hashCode key then
        .ok ((takeSwap? key es).map fun (entry, es) => ⟨.collision now hash es, entry, []⟩)
      else .ok none) := by
  by_cases hh : hash = hashCode key
  · rw [if_pos hh]
    rcases lacks_or_split key es with hl | ⟨before, e, after, rfl, hl, he⟩
    · rw [takeSwap?_of_lacks hl]
      exact .absent (by simpa using hl)
    · obtain ⟨es', ht⟩ := exists_takeSwap? hl he after
      have hp := (takeSwap?_perm ht).2
      have hCut : Cut key (before ++ e :: after) e es' := by
        have hc : Cut key ([] ++ (before ++ e :: after) ++ []) e ([] ++ es' ++ []) :=
          Cut.intro ht (fun e' he' => (hb.hash e' he').trans hh) fun e' he' => by cases he'
        simpa using hc
      rw [ht]
      refine .taken ⟨wellFormed_collision.mpr ⟨fun e' he' => ?_, hCut.distinct hb.distinct⟩,
        fun hs => hs.elim, by simpa using hCut⟩
      exact hb.hash e' (hp.mem_iff.mpr (List.mem_cons_of_mem e he'))
  · rw [if_neg hh]
    refine .absent (lacks_of_hash_ne fun e he => ?_)
    rw [entries_collision] at he
    rw [hb.hash e he]
    exact hh

omit [LawfulHashCode κ] in
/-- Taking the last entry out of a place of a bitmap node. -/
theorem Branch.removes_slot
    (hb : (Node.bitmap stamp bits slots).Branch (Node.WellFormed left) (left + 1))
    (hp : position (hashCode key) (left + 1) = p) (hh : bits.has p = true)
    (hslot : (Node.bitmap stamp bits slots).slotAt p = some slot)
    (hcut : Cut key slot.entries taken []) (events : List Event) :
    Removes (left + 1) (.bitmap stamp bits slots) key
      ⟨.bitmap now (bits.toggle p) (slots.eraseIdx (bits.rank p)), taken, events⟩ := by
  have hs : (Node.bitmap now (bits.toggle p) (slots.eraseIdx (bits.rank p))).Shaped :=
    shaped_eraseIdx hb.shaped hh
  have hAt : (Node.bitmap now (bits.toggle p) (slots.eraseIdx (bits.rank p))).slotAt p = none := by
    rw [slotAt_eraseIdx stamp hh, if_pos rfl]
  obtain ⟨hWell, hCut⟩ := hb.cut hs hp
    (fun q _ hq => hb.alike_of_eq (by rw [slotAt_eraseIdx stamp hh, if_neg hq]))
    (by rw [hslot, hAt, placeEntries_some]; exact hcut)
    (fun slot' hslot' => by rw [hAt] at hslot'; cases hslot')
    fun node hnode => by rw [hAt] at hnode; cases hnode
  exact ⟨hWell, fun _ => hs, hCut⟩

omit [LawfulHashCode κ] in
/-- Taking an entry out of a place of a bitmap node that keeps others. -/
theorem Branch.removes_set
    (hb : (Node.bitmap stamp bits slots).Branch (Node.WellFormed left) (left + 1))
    (hp : position (hashCode key) (left + 1) = p) (hh : bits.has p = true)
    (hslot : (Node.bitmap stamp bits slots).slotAt p = some slot)
    (hcut : Cut key slot.entries taken slot'.entries) (hne : slot'.entries ≠ [])
    (hc : ∀ node, slot' = .inner node → node.WellFormed left) (events : List Event) :
    Removes (left + 1) (.bitmap stamp bits slots) key
      ⟨.bitmap now bits (slots.set (bits.rank p) slot'), taken, events⟩ := by
  have hs : (Node.bitmap now bits (slots.set (bits.rank p) slot')).Shaped :=
    shaped_set now hb.shaped _ _
  have hAt : (Node.bitmap now bits (slots.set (bits.rank p) slot')).slotAt p = some slot' := by
    rw [slotAt_set hb.shaped hh, if_pos rfl]
  obtain ⟨hWell, hCut⟩ := hb.cut hs hp
    (fun q _ hq => hb.alike_of_eq (by rw [slotAt_set hb.shaped hh, if_neg hq]))
    (by rw [hslot, hAt, placeEntries_some, placeEntries_some]; exact hcut)
    (fun slot'' h => by rw [hAt] at h; cases h; exact hne)
    fun node h => by rw [hAt] at h; cases h; exact hc node rfl
  exact ⟨hWell, fun _ => hs, hCut⟩

theorem erase_bitmap
    (ih : ∀ n : Node κ ν, n.WellFormed left →
      Answers left n key (erase now sole key (hashCode key) left n))
    (hb : (Node.bitmap stamp bits slots).Branch (Node.WellFormed left) (left + 1)) :
    Answers (left + 1) (.bitmap stamp bits slots) key
      (erase now sole key (hashCode key) (left + 1) (.bitmap stamp bits slots)) := by
  have hLacks := fun (h : Lacks key _) => hb.lacks h
  rw [erase]
  generalize hp : position (hashCode key) (left + 1) = p at hLacks
  by_cases hh : bits.has p = true
  · obtain ⟨slot, hr, hslot⟩ := exists_slot hb.shaped hh
    rw [hslot, placeEntries_some] at hLacks
    cases slot with
    | leaf e =>
      simp only [hh, if_true, hr]
      by_cases he : (e.1 == key) = true
      · simp only [he, if_true]
        exact .taken (hb.removes_slot hp hh hslot
          (cut_single he (LawfulHashCode.hashCode_eq he)) [])
      · simp only [he, Bool.false_eq_true, if_false]
        exact .absent (hLacks (lacks_cons.mpr ⟨Bool.eq_false_iff.mpr he, lacks_nil key⟩))
    | inner child =>
      have ha := ih child ((hb.sound p _ hslot).child child rfl)
      simp only [hh, if_true, hr]
      generalize erase now sole key (hashCode key) left child = answer at ha ⊢
      cases ha with
      | absent hl => exact .absent (hLacks hl)
      | @taken r hr =>
        have hCut := hr.cut
        simp only [Result.bind_ok, Result.pure_eq]
        by_cases hEmpty : r.node.isEmpty = true
        · rw [(isEmpty_iff hr.wellFormed).mp hEmpty] at hCut
          simp only [hEmpty, if_true]
          exact .taken (hb.removes_slot hp hh hslot hCut r.events)
        · have hne : r.node.entries ≠ [] := fun h => hEmpty ((isEmpty_iff hr.wellFormed).mpr h)
          simp only [hEmpty, Bool.false_eq_true, if_false]
          cases hSingle : r.node.single? with
          | some e =>
            have he := entries_of_single? hSingle
            exact .taken (hb.removes_set hp hh hslot (by rwa [he] at hCut) (by simp)
              (fun node hn => by cases hn) r.events)
          | none =>
            have hInner :
                Cut key (Slot.inner child).entries r.entry (Slot.inner r.node).entries := hCut
            exact .taken (hb.removes_set hp hh hslot hInner hne
              (fun node hn => by cases hn; exact hr.wellFormed) r.events)
  · have hAbsent : (Node.bitmap stamp bits slots).slotAt p = none := by rw [slotAt, if_neg hh]
    simp only [hh, Bool.false_eq_true, if_false]
    rw [hAbsent] at hLacks
    exact .absent (hLacks (lacks_nil key))

omit [LawfulHashCode κ] in
/-- Taking an entry out of a child of an array node that need not be packed. -/
theorem Branch.removes_setChild {place : Option (Node κ ν)} {count' : Nat}
    (hb : (Node.array stamp count children).Branch (Node.WellFormed left) (left + 1))
    (hp : position (hashCode key) (left + 1) = p) (hchild : children[p]? = some (some child))
    (hcount : count' + 1 = count + if place.isSome then 1 else 0) (hmin : fewestChildren < count')
    (hcut : Cut key child.entries taken (placeEntries (place.map Slot.inner)))
    (hplace : ∀ node, place = some node → node.entries ≠ [] ∧ node.WellFormed left)
    (events : List Event) :
    Removes (left + 1) (.array stamp count children) key
      ⟨.array now count' (children.set p place), taken, events⟩ := by
  obtain ⟨hlen, hsum, -⟩ := hb.shaped
  obtain ⟨hlt, hat⟩ := List.getElem?_eq_some_iff.mp hchild
  have hw : p < width := hp ▸ position_lt _ _
  have hs : (Node.array now count' (children.set p place)).Shaped := by
    refine ⟨by rw [List.length_set, hlen], ?_, hmin⟩
    rw [List.countP_set hlt, hat, hsum]
    cases place with
    | none => simp at hcount ⊢; omega
    | some node => simp at hcount ⊢; omega
  have hAt : (Node.array now count' (children.set p place)).slotAt p = place.map Slot.inner := by
    rw [slotAt_setChild hlen hw, if_pos rfl]
  have hOld : (Node.array stamp count children).slotAt p = some (.inner child) := by
    rw [slotAt, hchild]
    rfl
  obtain ⟨hWell, hCut⟩ := hb.cut hs hp
    (fun q _ hq => hb.alike_of_eq (by rw [slotAt_setChild hlen hw, if_neg hq]; rfl))
    (by rw [hOld, hAt]; simpa using hcut)
    (fun slot h => by
      rw [hAt, Option.map_eq_some_iff] at h
      obtain ⟨node, hn, rfl⟩ := h
      exact (hplace node hn).1)
    fun node h => by
      rw [hAt, Option.map_eq_some_iff] at h
      obtain ⟨node', hn, h⟩ := h
      cases h
      exact (hplace node hn).2
  exact ⟨hWell, fun _ => hs, hCut⟩

omit [LawfulHashCode κ] in
/-- Packing an array node after it has lost a child. Whichever children give their places to their
entries, the entries stay. -/
theorem Branch.removes_pack
    (hb : (Node.array stamp count children).Branch (Node.WellFormed left) (left + 1))
    (hp : position (hashCode key) (left + 1) = p) (hchild : children[p]? = some (some child))
    (hfew : count - 1 ≤ fewestChildren) (hcut : Cut key child.entries taken [])
    (events : List Event) :
    Removes (left + 1) (.array stamp count children) key
      ⟨(pack now sole (left + 1) (children.set p none)).1, taken, events⟩ := by
  obtain ⟨hlen, hsum, hmin⟩ := hb.shaped
  obtain ⟨hlt, hat⟩ := List.getElem?_eq_some_iff.mp hchild
  have hw : p < width := hp ▸ position_lt _ _
  have hCount : (children.set p none).countP Option.isSome ≤ mostSlots := by
    rw [List.countP_set hlt, hat, hsum]
    simp only [fewestChildren, mostSlots, Option.isSome_some, if_true, Option.isSome_none,
      Bool.false_eq_true, if_false] at hfew ⊢
    omega
  obtain ⟨hs, hAt⟩ := pack_spec now sole (left + 1) (by rw [List.length_set, hlen]) hCount
  have hNone : (pack now sole (left + 1) (children.set p none)).1.slotAt p = none := by
    rw [hAt p hw, List.getElem?_set_self hlt]
    rfl
  have hOld : (Node.array stamp count children).slotAt p = some (.inner child) := by
    rw [slotAt, hchild]
    rfl
  have hOthers : ∀ q, q < width → q ≠ p → Alike (Node.WellFormed left)
      ((Node.array stamp count children).slotAt q)
      ((pack now sole (left + 1) (children.set p none)).1.slotAt q) := by
    intro q hq hqp
    have ha := hb.alike q
    rw [hAt q hq, List.getElem?_set_ne (Ne.symm hqp)]
    rw [slotAt] at ha ⊢
    generalize children[q]?.join = place at ha ⊢
    cases place with
    | none => exact ha
    | some node =>
      refine ⟨by simp [entries_packed], fun slot hslot => ?_, fun node' hnode => ?_⟩
      · cases hslot
        rw [entries_packed]
        exact ha.filled _ rfl
      · rw [packed_eq_inner (Option.some.inj hnode)]
        exact ha.child node rfl
  obtain ⟨hWell, hCut⟩ := hb.cut hs hp hOthers
    (by rw [hOld, hNone]; simpa using hcut)
    (fun slot h => by rw [hNone] at h; cases h)
    fun node h => by rw [hNone] at h; cases h
  exact ⟨hWell, fun _ => hs, hCut⟩

theorem erase_array
    (ih : ∀ n : Node κ ν, n.WellFormed left →
      Answers left n key (erase now sole key (hashCode key) left n))
    (hb : (Node.array stamp count children).Branch (Node.WellFormed left) (left + 1)) :
    Answers (left + 1) (.array stamp count children) key
      (erase now sole key (hashCode key) (left + 1) (.array stamp count children)) := by
  have hLacks := fun (h : Lacks key _) => hb.lacks h
  obtain ⟨place, hr, hslot⟩ := exists_child hb.shaped (position_lt (hashCode key) (left + 1))
  rw [hslot] at hLacks
  rw [erase]
  cases place with
  | none =>
    simp only [hr]
    exact .absent (hLacks (lacks_nil key))
  | some child =>
    have ha := ih child ((hb.sound _ _ hslot).child child rfl)
    simp only [hr]
    generalize erase now sole key (hashCode key) left child = answer at ha ⊢
    cases ha with
    | absent hl => exact .absent (hLacks (by simpa using hl))
    | @taken r hErased =>
      have hCut := hErased.cut
      have hmin := hb.shaped.2.2
      simp only [Result.bind_ok, Result.pure_eq]
      by_cases hEmpty : r.node.isEmpty = true
      · have hz : ¬ count = 0 := by omega
        rw [(isEmpty_iff hErased.wellFormed).mp hEmpty] at hCut
        simp only [hEmpty, hz, Bool.not_true, Bool.false_eq_true, if_false]
        by_cases hfew : count - 1 ≤ fewestChildren
        · simp only [hfew, if_true]
          exact .taken (hb.removes_pack rfl hr hfew hCut _)
        · simp only [hfew, if_false]
          exact .taken (hb.removes_setChild rfl hr (by simp; omega) (by omega) hCut
            (fun node hn => by cases hn) _)
      · have hne : r.node.entries ≠ [] :=
          fun h => hEmpty ((isEmpty_iff hErased.wellFormed).mpr h)
        simp only [hEmpty, Bool.not_false, if_true]
        refine .taken (hb.removes_setChild rfl hr (by simp) hmin (by simpa using hCut) ?_ _)
        intro node hn
        cases hn
        exact ⟨hne, hErased.wellFormed⟩

/-- Erasing a key from a well-formed node succeeds: it takes out the entry of the key, or finds that
there is none. -/
theorem erase_answers (now : Nat) (sole : Sharing) (key : κ) (left : Nat) (n : Node κ ν)
    (h : n.WellFormed left) :
    Answers left n key (erase now sole key (hashCode key) left n) := by
  induction left generalizing n with
  | zero =>
    obtain ⟨stamp, hash, es, rfl, hb⟩ := wellFormed_zero h
    rw [erase]
    exact erase_collision hb
  | succ left ih =>
    cases n with
    | bitmap stamp bits slots => exact erase_bitmap ih h
    | array stamp count children => exact erase_array ih h
    | collision stamp hash es =>
      rw [erase]
      exact erase_collision (wellFormed_collision.mp h)

end Lawful

/-! ## A removal that finds nothing -/

omit [BEq κ] [HashCode κ] in
theorem child?_bitmap (h : (Node.bitmap now bits slots).child? p = some n) :
    bits.has p = true ∧ (Node.bitmap stamp bits slots).slotAt p = some (.inner n) := by
  rw [child?] at h
  split at h
  · next hh =>
    split at h
    · next hr =>
      cases h
      exact ⟨hh, by rw [slotAt, if_pos hh, hr]⟩
    · cases h
  · cases h

/-- A node with the same entries, written anew. -/
structure Renews (left : Nat) (n n' : Node κ ν) : Prop where
  wellFormed : n'.WellFormed left
  shaped : n.Shaped → n'.Shaped
  entries : n'.entries = n.entries

theorem Renews.alike {m n' : Node κ ν} (hb : m.Branch (Node.WellFormed left) (left + 1))
    (h : m.slotAt p = some (.inner n)) (hn : Renews left n n') :
    Alike (Node.WellFormed left) (m.slotAt p) (some (.inner n')) := by
  have hSound := hb.sound p _ h
  refine ⟨by rw [h]; simp [hn.entries], fun slot hs => ?_, fun node hs => ?_⟩
  · cases hs
    rw [Slot.entries_inner, hn.entries]
    exact hSound.filled
  · cases hs
    exact hn.wellFormed

theorem touch_bitmap {now : Nat} {hash : UInt32}
    (ih : ∀ n : Node κ ν, n.WellFormed left → Renews left n (touch now hash left n))
    (hb : (Node.bitmap stamp bits slots).Branch (Node.WellFormed left) (left + 1)) :
    Renews (left + 1) (.bitmap stamp bits slots)
      (touch now hash (left + 1) (.bitmap stamp bits slots)) := by
  rw [touch]
  cases hChild : (Node.bitmap now bits slots).child? (position hash (left + 1)) with
  | none =>
    have hRenew : (Node.bitmap now bits slots).Branch (Node.WellFormed left) (left + 1) ∧ _ :=
      hb.renew hb.shaped fun q _ => hb.alike q
    exact ⟨hRenew.1.wellFormed, fun hs => hs, hRenew.2⟩
  | some child =>
    obtain ⟨hh, hslot⟩ := child?_bitmap hChild
    have hTouch := ih child ((hb.sound _ _ hslot).child child rfl)
    have hs := shaped_set now hb.shaped (bits.rank (position hash (left + 1)))
      (.inner (touch now hash left child))
    obtain ⟨hb', he⟩ := hb.renew hs fun q hq => by
      rw [slotAt_set hb.shaped hh]
      split
      · next hqp =>
        rw [hqp]
        exact hTouch.alike hb hslot
      · exact hb.alike q
    exact ⟨hb'.wellFormed, fun _ => hs, he⟩

theorem touch_array {now count : Nat} {hash : UInt32}
    (ih : ∀ n : Node κ ν, n.WellFormed left → Renews left n (touch now hash left n))
    (hb : (Node.array stamp count children).Branch (Node.WellFormed left) (left + 1)) :
    Renews (left + 1) (.array stamp count children)
      (touch now hash (left + 1) (.array stamp count children)) := by
  have hw := position_lt hash (left + 1)
  obtain ⟨place, hr, hslot⟩ := exists_child hb.shaped hw
  rw [touch]
  simp only [hr]
  cases place with
  | none =>
    have hRenew : (Node.array now count children).Branch (Node.WellFormed left) (left + 1) ∧ _ :=
      hb.renew hb.shaped fun q _ => hb.alike q
    exact ⟨hRenew.1.wellFormed, fun hs => hs, hRenew.2⟩
  | some child =>
    have hTouch := ih child ((hb.sound _ _ hslot).child child rfl)
    obtain ⟨hlen, hsum, hmin⟩ := hb.shaped
    obtain ⟨hlt, hat⟩ := List.getElem?_eq_some_iff.mp hr
    have hs : (Node.array now count (children.set (position hash (left + 1))
        (some (touch now hash left child)))).Shaped := by
      refine ⟨by rw [List.length_set, hlen], ?_, hmin⟩
      rw [List.countP_set hlt, hat, hsum]
      simp
      omega
    obtain ⟨hb', he⟩ := hb.renew hs fun q hq => by
      rw [slotAt_setChild hlen hw]
      split
      · next hqp =>
        rw [hqp]
        exact hTouch.alike hb hslot
      · exact hb.alike q
    exact ⟨hb'.wellFormed, fun _ => hs, he⟩

/-- Writing the nodes on the way of a hash anew changes no entry. -/
theorem touch_renews (now : Nat) (hash : UInt32) (left : Nat) (n : Node κ ν)
    (h : n.WellFormed left) : Renews left n (touch now hash left n) := by
  induction left generalizing n with
  | zero =>
    obtain ⟨stamp, hash, es, rfl, hb⟩ := wellFormed_zero h
    exact ⟨hb, fun hs => hs.elim, by rw [touch, entries_collision, entries_collision]⟩
  | succ left ih =>
    cases n with
    | collision stamp hash es =>
      exact ⟨h, fun hs => hs.elim, by rw [touch, entries_collision, entries_collision]⟩
    | bitmap stamp bits slots => exact touch_bitmap ih h
    | array stamp count children => exact touch_array ih h

end PersistentCollections.HashTrieMap.Node
