import PersistentCollections.Proofs.HashTrieMap.Entries
import PersistentCollections.Proofs.HashTrieMap.Structure

/-!
# Well-formed tries

`Node.WellFormed left n` is the invariant of a node with `left` digits to go. A collision node has
entries of its hash only, with distinct keys. A bitmap or array node has its shape, and what stands
at a position is not empty, has that position as the next digit of all its hashes, and is
well-formed itself below (`Branch`).

Consequently an entry can only be in one place: the keys of a well-formed node are distinct
(`WellFormed.distinct`) and a lookup finds an entry if and only if it is there (`find?_eq`).
`Branch.change` is the frame rule for changes: a node that has other entries than a branch at one
position only has the same entries around that position, and none of these has the hash of a key
that leads to the position.
-/

namespace PersistentCollections.HashTrieMap

open Entries

variable {κ ν : Type} [HashCode κ] {left p : Nat} {n : Node κ ν} {key : κ}

/-! ## The invariant -/

/-- What stands at position `p` of a node with `left` digits to go, where `below` says what a child
has to be. -/
structure Slot.Sound (below : Node κ ν → Prop) (left p : Nat) (slot : Slot κ ν) : Prop where
  filled : slot.entries ≠ []
  routed : ∀ e ∈ slot.entries, position (hashCode e.1) left = p
  child : ∀ node, slot = .inner node → below node

/-- A bitmap or array node with `left` digits to go. -/
structure Node.Branch (below : Node κ ν → Prop) (left : Nat) (n : Node κ ν) : Prop where
  shaped : n.Shaped
  sound : ∀ p slot, n.slotAt p = some slot → slot.Sound below left p

section

variable [BEq κ]

/-- The entries of a collision node. -/
structure Bucket (h : UInt32) (es : List (κ × ν)) : Prop where
  hash : ∀ e ∈ es, hashCode e.1 = h
  distinct : Distinct es

/-- The invariant of a node with `left` digits to go. -/
def Node.WellFormed : (left : Nat) → Node κ ν → Prop
  | 0, .collision _ h es | _ + 1, .collision _ h es => Bucket h es
  | 0, .bitmap .. | 0, .array .. => False
  | left + 1, n => n.Branch (Node.WellFormed left) (left + 1)

namespace Node

theorem wellFormed_collision {now : Nat} {h : UInt32} {es : List (κ × ν)} :
    (Node.collision now h es).WellFormed left ↔ Bucket h es := by
  cases left with
  | zero => rfl
  | succ left => rfl

theorem wellFormed_succ (hs : n.Shaped) :
    n.WellFormed (left + 1) ↔ n.Branch (Node.WellFormed left) (left + 1) := by
  cases n with
  | bitmap => rfl
  | array => rfl
  | collision => exact hs.elim

theorem Branch.wellFormed (h : n.Branch (Node.WellFormed left) (left + 1)) :
    n.WellFormed (left + 1) := (wellFormed_succ h.shaped).mpr h

/-- A well-formed node is a collision node, or has a digit to go. -/
theorem WellFormed.cases (h : n.WellFormed left) :
    (∃ now hash es, n = .collision now hash es ∧ Bucket hash es) ∨
      ∃ l, left = l + 1 ∧ n.Branch (Node.WellFormed l) (l + 1) := by
  cases n with
  | collision now hash es => exact Or.inl ⟨now, hash, es, rfl, wellFormed_collision.mp h⟩
  | bitmap now bits slots =>
    cases left with
    | zero => exact h.elim
    | succ l => exact Or.inr ⟨l, rfl, h⟩
  | array now count children =>
    cases left with
    | zero => exact h.elim
    | succ l => exact Or.inr ⟨l, rfl, h⟩

theorem wellFormed_zero (h : n.WellFormed 0) :
    ∃ now hash es, n = .collision now hash es ∧ Bucket hash es := by
  rcases h.cases with hc | ⟨l, hl, -⟩
  · exact hc
  · cases hl

end Node

end

/-! ## The place of a hash in a branch -/

namespace Node

variable {below : Node κ ν → Prop}

theorem Branch.mem_entries (hb : n.Branch below left) {e : κ × ν} :
    e ∈ n.entries ↔ ∃ p slot, n.slotAt p = some slot ∧ e ∈ slot.entries := by
  rw [entries_eq_listing hb.shaped, mem_listing]
  constructor
  · rintro ⟨q, slot, -, hq, he⟩
    exact ⟨q, slot, hq, he⟩
  · rintro ⟨q, slot, hq, he⟩
    exact ⟨q, slot, lt_width_of_slotAt hb.shaped hq, hq, he⟩

/-- Two places with the same entries, the second of which may stand in a branch. -/
structure Alike (below : Node κ ν → Prop) (o o' : Option (Slot κ ν)) : Prop where
  entries : placeEntries o' = placeEntries o
  filled : ∀ slot, o' = some slot → slot.entries ≠ []
  child : ∀ node, o' = some (.inner node) → below node

theorem Branch.alike (hb : n.Branch below left) (q : Nat) :
    Alike below (n.slotAt q) (n.slotAt q) where
  entries := rfl
  filled slot h := (hb.sound q slot h).filled
  child node h := (hb.sound q _ h).child node rfl

theorem Branch.alike_of_eq (hb : n.Branch below left) {q : Nat} {o : Option (Slot κ ν)}
    (h : o = n.slotAt q) : Alike below (n.slotAt q) o := h ▸ hb.alike q

theorem Branch.sound_of_alike {q : Nat} {o : Option (Slot κ ν)} {slot : Slot κ ν}
    (hb : n.Branch below left) (h : Alike below (n.slotAt q) o) (ho : o = some slot) :
    slot.Sound below left q := by
  refine ⟨h.filled slot ho, fun e he => ?_, fun node hn => h.child node (hn ▸ ho)⟩
  have hm : e ∈ placeEntries (n.slotAt q) := by
    rw [← h.entries, ho, placeEntries_some]
    exact he
  obtain ⟨slot', hq', he'⟩ := mem_placeEntries.mp hm
  exact (hb.sound q slot' hq').routed e he'

/-- A node that has the same entries as a branch at every position but the next one of a hash. It
has the same entries around that position, none of them with the hash, and it is a branch if it has
the right thing there. -/
theorem Branch.change {n' : Node κ ν} {hash : UInt32} (hb : n.Branch below left)
    (hs : n'.Shaped) (hp : position hash left = p)
    (h : ∀ q, q < width → q ≠ p → Alike below (n.slotAt q) (n'.slotAt q)) :
    ((∀ slot, n'.slotAt p = some slot → slot.Sound below left p) → n'.Branch below left) ∧
      ∃ before after, n.entries = before ++ placeEntries (n.slotAt p) ++ after ∧
        n'.entries = before ++ placeEntries (n'.slotAt p) ++ after ∧
        ∀ e ∈ before ++ after, hashCode e.1 ≠ hash := by
  constructor
  · refine fun hAt => ⟨hs, fun q slot hq => ?_⟩
    by_cases hqp : q = p
    · subst hqp
      exact hAt slot hq
    · exact hb.sound_of_alike (h q (lt_width_of_slotAt hs hq) hqp) hq
  · obtain ⟨before, after, hn, hn', ho⟩ :=
      listing_update (hp ▸ position_lt hash left) fun q hq hqp => (h q hq hqp).entries
    refine ⟨before, after, ?_, ?_, ?_⟩
    · rw [entries_eq_listing hb.shaped, hn]
    · rw [entries_eq_listing hs, hn']
    · rintro e he rfl
      obtain ⟨q, slot, hq, hslot, hmem⟩ := ho e he
      exact hq (((hb.sound q slot hslot).routed e hmem).symm.trans hp)

/-- A node that has the same entries as a branch at every position. -/
theorem Branch.renew {n' : Node κ ν} (hb : n.Branch below left) (hs : n'.Shaped)
    (h : ∀ q, q < width → Alike below (n.slotAt q) (n'.slotAt q)) :
    n'.Branch below left ∧ n'.entries = n.entries := by
  refine ⟨⟨hs, fun q slot hq => ?_⟩, ?_⟩
  · exact (hb.sound_of_alike (h q (lt_width_of_slotAt hs hq)) hq)
  · rw [entries_eq_listing hs, entries_eq_listing hb.shaped, listing, listing]
    exact List.flatMap_congr fun q hq => (h q (List.mem_range.mp hq)).entries

end Node

/-! ## Keys -/

section Lawful

variable [BEq κ] [LawfulHashCode κ]

theorem key_ne_of_hash_ne {a b : κ} (h : hashCode a ≠ hashCode b) : (a == b) = false := by
  rw [Bool.eq_false_iff]
  exact fun he => h (LawfulHashCode.hashCode_eq he)

theorem lacks_of_hash_ne {es : List (κ × ν)} (h : ∀ e ∈ es, hashCode e.1 ≠ hashCode key) :
    Lacks key es := fun e he => key_ne_of_hash_ne (h e he)

namespace Node

/-- In a branch a key can only have an entry at the next position of its hash. -/
theorem Branch.find?_entries {below : Node κ ν → Prop} (hb : n.Branch below left) (key : κ) :
    Entries.find? key n.entries =
      Entries.find? key (placeEntries (n.slotAt (position (hashCode key) left))) := by
  obtain ⟨before, after, hn, -, ho⟩ := (hb.change hb.shaped rfl fun q _ _ => hb.alike q).2
  rw [hn, find?_within]
  · exact lacks_of_hash_ne fun e he => ho e (List.mem_append_left _ he)
  · exact lacks_of_hash_ne fun e he => ho e (List.mem_append_right _ he)

theorem Branch.lacks {below : Node κ ν → Prop} (hb : n.Branch below left)
    (h : Lacks key (placeEntries (n.slotAt (position (hashCode key) left)))) :
    Lacks key n.entries := by
  rw [← find?_eq_none_iff, hb.find?_entries, find?_eq_none_iff]
  exact h

/-! ## Distinct keys and lookups -/

theorem WellFormed.distinct (h : n.WellFormed left) : Distinct n.entries := by
  induction left generalizing n with
  | zero =>
    obtain ⟨now, hash, es, rfl, hb⟩ := wellFormed_zero h
    rw [entries_collision]
    exact hb.distinct
  | succ left ih =>
    rcases h.cases with ⟨now, hash, es, rfl, hb⟩ | ⟨l, hl, hb⟩
    · rw [entries_collision]
      exact hb.distinct
    · cases hl
      rw [entries_eq_listing hb.shaped, listing_eq_filterMap, Distinct, List.pairwise_flatMap]
      constructor
      · intro slot hslot
        obtain ⟨q, -, hq⟩ := List.mem_filterMap.mp hslot
        cases slot with
        | leaf e => exact List.pairwise_singleton _ _
        | inner child => exact ih ((hb.sound q _ hq).child child rfl)
      · -- Entries at different positions differ in the next digit of their hashes.
        rw [List.pairwise_filterMap]
        refine List.Pairwise.imp ?_ List.pairwise_lt_range
        intro q q' hlt slot hq slot' hq' e he e' he'
        refine key_ne_of_hash_ne fun hh => ?_
        have h₁ := (hb.sound q slot hq).routed e he
        have h₂ := (hb.sound q' slot' hq').routed e' he'
        rw [hh, h₂] at h₁
        omega

omit [HashCode κ] [LawfulHashCode κ] in
/-- A lookup in a bitmap or array node goes by what stands at the next position. -/
theorem find?_eq_of_shaped (hs : n.Shaped) (key : κ) (hash : UInt32) (left : Nat) :
    n.find? key hash (left + 1) =
      match n.slotAt (position hash (left + 1)) with
      | none => .ok none
      | some (.leaf e) => .ok (if e.1 == key then some e else none)
      | some (.inner child) => child.find? key hash left := by
  cases n with
  | bitmap now bits slots =>
    rw [find?]
    by_cases hp : bits.has (position hash (left + 1)) = true
    · obtain ⟨slot, hr, hq⟩ := exists_slot hs hp
      simp only [hp, if_true, hr, hq]
      cases slot with
      | leaf e => rfl
      | inner child => rfl
    · rw [slotAt]
      simp only [hp, if_false, Bool.false_eq_true]
  | array now count children =>
    obtain ⟨child, hr, hq⟩ := exists_child hs (position_lt hash (left + 1))
    rw [find?, hq]
    simp only [hr]
    cases child with
    | none => rfl
    | some child => rfl
  | collision => exact hs.elim

theorem find?_collision {now : Nat} {hash : UInt32} {es : List (κ × ν)} (hb : Bucket hash es)
    (key : κ) :
    (Node.collision now hash es).find? key (hashCode key) left = .ok (Entries.find? key es) := by
  have hf : (Node.collision now hash es).find? key (hashCode key) left =
      .ok (if hash = hashCode key then Entries.find? key es else none) := by
    cases left with
    | zero => rw [find?]
    | succ left => rw [find?]
  rw [hf]
  split
  · rfl
  · next hne =>
    rw [find?_of_lacks (lacks_of_hash_ne fun e he => ?_)]
    rw [hb.hash e he]
    exact hne

/-- A lookup in a well-formed node finds the entry of the key among its entries. -/
theorem find?_eq (h : n.WellFormed left) (key : κ) :
    n.find? key (hashCode key) left = .ok (Entries.find? key n.entries) := by
  induction left generalizing n with
  | zero =>
    obtain ⟨now, hash, es, rfl, hb⟩ := wellFormed_zero h
    rw [find?_collision hb, entries_collision]
  | succ left ih =>
    rcases h.cases with ⟨now, hash, es, rfl, hb⟩ | ⟨l, hl, hb⟩
    · rw [find?_collision hb, entries_collision]
    · cases hl
      rw [find?_eq_of_shaped hb.shaped, hb.find?_entries]
      cases hslot : n.slotAt (position (hashCode key) (left + 1)) with
      | none => rfl
      | some slot =>
        cases slot with
        | leaf e =>
          by_cases he : (e.1 == key) = true
          · simp [Entries.find?, he]
          · simp [Entries.find?, he]
        | inner child =>
          have hc := (hb.sound _ _ hslot).child child rfl
          simp only [ih hc, placeEntries_some, Slot.entries_inner]

end Node

end Lawful

end PersistentCollections.HashTrieMap
