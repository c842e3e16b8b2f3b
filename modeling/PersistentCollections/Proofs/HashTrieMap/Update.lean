import PersistentCollections.Proofs.HashTrieMap.WellFormed

/-!
# Changing one place of a node

What stands at each position after a slot of a bitmap node is overwritten (`slotAt_set`), added
(`slotAt_insertIdx`) or taken out (`slotAt_eraseIdx`), and after a child of an array node is
exchanged (`slotAt_setChild`): the new thing at the position of the change, and what was there at
every other one. `Branch.put` and `Branch.cut` turn that into statements about all entries of the
node and about the invariant.
-/

namespace PersistentCollections.HashTrieMap.Node

open Entries

variable {κ ν : Type} {now stamp count left p q : Nat} {bits : Bitmap} {slots : List (Slot κ ν)}
  {children : List (Option (Node κ ν))} {slot : Slot κ ν}

/-! ## Bitmap nodes -/

theorem shaped_set (now : Nat) (hs : (Node.bitmap stamp bits slots).Shaped) (i : Nat)
    (slot : Slot κ ν) :
    (Node.bitmap now bits (slots.set i slot)).Shaped := by
  rw [Shaped, List.length_set]
  exact hs

theorem slotAt_set (hs : (Node.bitmap stamp bits slots).Shaped) (hp : bits.has p = true) (q : Nat) :
    (Node.bitmap now bits (slots.set (bits.rank p) slot)).slotAt q =
      if q = p then some slot else (Node.bitmap stamp bits slots).slotAt q := by
  simp only [slotAt]
  by_cases hq : bits.has q = true
  · simp only [hq, if_true]
    by_cases h : q = p
    · subst h
      have hr : bits.rank q < slots.length := hs.1 ▸ Bitmap.rank_lt_count hp
      rw [if_pos rfl, List.getElem?_set_self hr]
    · rw [if_neg h, List.getElem?_set_ne (Bitmap.rank_ne_rank hp hq h).symm]
  · have h : ¬ q = p := fun h => hq (h ▸ hp)
    simp only [hq, Bool.false_eq_true, if_false, h]

theorem shaped_insertIdx (hs : (Node.bitmap stamp bits slots).Shaped) (hw : p < width)
    (hp : bits.has p = false) (hl : slots.length < mostSlots) (slot : Slot κ ν) :
    (Node.bitmap now (bits.insert p) (slots.insertIdx (bits.rank p) slot)).Shaped := by
  have hr : bits.rank p ≤ slots.length := hs.1 ▸ Bitmap.rank_mono bits (Nat.le_of_lt hw)
  rw [Shaped, List.length_insertIdx_of_le_length hr, Bitmap.count_insert hw hp, hs.1]
  exact ⟨rfl, hs.1 ▸ hl⟩

theorem slotAt_insertIdx (hs : (Node.bitmap stamp bits slots).Shaped) (hw : p < width)
    (hp : bits.has p = false) (q : Nat) :
    (Node.bitmap now (bits.insert p) (slots.insertIdx (bits.rank p) slot)).slotAt q =
      if q = p then some slot else (Node.bitmap stamp bits slots).slotAt q := by
  have hr : bits.rank p ≤ slots.length := hs.1 ▸ Bitmap.rank_mono bits (Nat.le_of_lt hw)
  simp only [slotAt, Bitmap.has_insert hw, Bitmap.rank_insert hw hp]
  by_cases h : q = p
  · subst h
    simp [List.getElem?_insertIdx_self, hr]
  · simp only [h, decide_false, Bool.false_or, if_false]
    by_cases hq : bits.has q = true
    · simp only [hq, if_true]
      by_cases hlt : p < q
      · have := Bitmap.rank_mono bits (Nat.le_of_lt hlt)
        rw [if_pos hlt, List.getElem?_insertIdx_of_gt (by omega), Nat.add_sub_cancel]
      · have := Bitmap.rank_lt_rank hq (show q < p by omega)
        rw [if_neg hlt, List.getElem?_insertIdx_of_lt (by omega), Nat.add_zero]
    · simp only [hq, Bool.false_eq_true, if_false]

theorem shaped_eraseIdx (hs : (Node.bitmap stamp bits slots).Shaped) (hp : bits.has p = true) :
    (Node.bitmap now (bits.toggle p) (slots.eraseIdx (bits.rank p))).Shaped := by
  have hr : bits.rank p < slots.length := hs.1 ▸ Bitmap.rank_lt_count hp
  have hc := Bitmap.count_toggle (Bitmap.lt_width_of_has hp) hp
  have hle := hs.2
  rw [Shaped, List.length_eraseIdx_of_lt hr]
  have := hs.1
  constructor <;> omega

theorem slotAt_eraseIdx (stamp : Nat) (hp : bits.has p = true) (q : Nat) :
    (Node.bitmap now (bits.toggle p) (slots.eraseIdx (bits.rank p))).slotAt q =
      if q = p then none else (Node.bitmap stamp bits slots).slotAt q := by
  have hw := Bitmap.lt_width_of_has hp
  have hr := Bitmap.rank_toggle hw hp q
  simp only [slotAt, Bitmap.has_toggle hw]
  by_cases h : q = p
  · subst h
    simp [hp]
  · simp only [h, if_false]
    by_cases hq : bits.has q = true
    · simp only [hq, if_true]
      by_cases hlt : p < q
      · have := Bitmap.rank_lt_rank hp hlt
        rw [if_pos hlt] at hr
        rw [List.getElem?_eraseIdx_of_ge (by omega), hr]
      · have := Bitmap.rank_lt_rank hq (show q < p by omega)
        rw [if_neg hlt, Nat.add_zero] at hr
        rw [hr, List.getElem?_eraseIdx_of_lt this]
    · simp only [hq, Bool.false_eq_true, if_false]

/-- A node with one place. -/
theorem shaped_single (now : Nat) (hw : p < width) (slot : Slot κ ν) :
    (Node.bitmap now (Bitmap.empty.insert p) [slot]).Shaped := by
  have hc : Bitmap.empty.count = 0 := Bitmap.rank_empty width
  rw [Shaped, Bitmap.count_insert hw (Bitmap.has_empty p), hc]
  exact ⟨rfl, show 1 ≤ 16 by decide⟩

theorem slotAt_single (now : Nat) (hw : p < width) (slot : Slot κ ν) (q : Nat) :
    (Node.bitmap now (Bitmap.empty.insert p) [slot]).slotAt q =
      if q = p then some slot else none := by
  simp only [slotAt, Bitmap.has_insert hw, Bitmap.has_empty, Bool.or_false, decide_eq_true_eq,
    Bitmap.rank_insert hw (Bitmap.has_empty p), Bitmap.rank_empty]
  by_cases h : q = p
  · subst h
    simp
  · simp [h]

/-! ## Array nodes -/

theorem slotAt_setChild (hl : children.length = width) (hw : p < width)
    (child : Option (Node κ ν)) (q : Nat) :
    (Node.array now count (children.set p child)).slotAt q =
      if q = p then child.map Slot.inner else children[q]?.join.map Slot.inner := by
  simp only [slotAt]
  by_cases h : q = p
  · subst h
    rw [if_pos rfl, List.getElem?_set_self (by omega)]
    rfl
  · rw [if_neg h, List.getElem?_set_ne (Ne.symm h)]

/-! ## Entries and the invariant -/

section Lawful

variable [BEq κ] [HashCode κ] [LawfulHashCode κ] {n n' : Node κ ν} {key : κ} {value : ν}
  {old : Option ν} {taken : κ × ν}

/-- An insertion at the place of its key is one into the node. -/
theorem Branch.put (hb : n.Branch (Node.WellFormed left) (left + 1)) (hs : n'.Shaped)
    (hp : position (hashCode key) (left + 1) = p) (hslot : n'.slotAt p = some slot)
    (h : ∀ q, q < width → q ≠ p → Alike (Node.WellFormed left) (n.slotAt q) (n'.slotAt q))
    (hput : Put key value (placeEntries (n.slotAt p)) old slot.entries)
    (hc : ∀ node, slot = .inner node → node.WellFormed left) :
    n'.WellFormed (left + 1) ∧ Put key value n.entries old n'.entries := by
  obtain ⟨hBranch, before, after, hn, hn', ho⟩ := hb.change hs hp h
  constructor
  · refine (hBranch fun slot' hslot' => ?_).wellFormed
    rw [hslot] at hslot'
    cases hslot'
    refine ⟨hput.ne_nil, fun e he => ?_, hc⟩
    rcases hput.key_mem he with hk | ⟨e', he', hk⟩
    · rw [hk, hp]
    · obtain ⟨slot', hq, he'⟩ := mem_placeEntries.mp he'
      rw [← hk, (hb.sound p slot' hq).routed e' he']
  · rw [hn, hn', hslot, placeEntries_some]
    refine hput.within ?_ ?_ fun e he => ho e (List.mem_append_right _ he)
    · exact lacks_of_hash_ne fun e he => ho e (List.mem_append_left _ he)
    · exact lacks_of_hash_ne fun e he => ho e (List.mem_append_right _ he)

omit [LawfulHashCode κ] in
/-- A removal from the place of its key is one from the node. -/
theorem Branch.cut (hb : n.Branch (Node.WellFormed left) (left + 1)) (hs : n'.Shaped)
    (hp : position (hashCode key) (left + 1) = p)
    (h : ∀ q, q < width → q ≠ p → Alike (Node.WellFormed left) (n.slotAt q) (n'.slotAt q))
    (hcut : Cut key (placeEntries (n.slotAt p)) taken (placeEntries (n'.slotAt p)))
    (hf : ∀ slot, n'.slotAt p = some slot → slot.entries ≠ [])
    (hc : ∀ node, n'.slotAt p = some (.inner node) → node.WellFormed left) :
    n'.WellFormed (left + 1) ∧ Cut key n.entries taken n'.entries := by
  obtain ⟨hBranch, before, after, hn, hn', ho⟩ := hb.change hs hp h
  constructor
  · refine (hBranch fun slot hslot => ?_).wellFormed
    refine ⟨hf slot hslot, fun e he => ?_, fun node hn => hc node (hn ▸ hslot)⟩
    have hm : e ∈ placeEntries (n'.slotAt p) := mem_placeEntries.mpr ⟨slot, hslot, he⟩
    have hm' := hcut.perm.mem_iff.mpr (List.mem_cons_of_mem taken hm)
    obtain ⟨slot', hq, he'⟩ := mem_placeEntries.mp hm'
    exact (hb.sound p slot' hq).routed e he'
  · rw [hn, hn']
    refine hcut.within (fun e he => ho e ?_) fun e he => ho e ?_
    · exact List.mem_append_left _ he
    · exact List.mem_append_right _ he

end Lawful

end PersistentCollections.HashTrieMap.Node
