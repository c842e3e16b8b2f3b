import Mathlib.Data.Nat.Digits.Defs
import PersistentCollections.Proofs.HashTrieMap.History
import PersistentCollections.Proofs.HashTrieMap.Order

/-!
# The representation of a hash map

What the invariant says about every single node of a trie, told by the positions that lead to the
node from the root. A path of `d` positions is a node at shift `5 * d`; read as a number to the base
32 it is what the low bits of all hashes below the node are (`Node.Lawful.lowBits`). Each of the
three kinds of node has laws of its own (`Node.KindLaws`): a place holds exactly the entries with
its digit.

A well-formed trie keeps these laws at every node (`Node.Reaches.lawful`), so each history of the
empty map leads to a map that keeps them (`run_represented`).
-/

namespace PersistentCollections.HashTrieMap

open Entries

variable {κ ν : Type} {left p : Nat} {bits : Bitmap} {n m : Node κ ν} {path : List Nat}
  {h : UInt32}

/-! ## Members of a bitmap -/

namespace Bitmap

/-- The members of a bitmap in ascending order. -/
def members (b : Bitmap) : List Nat := (List.range width).filter b.has

theorem members_eq_filterMap (b : Bitmap) :
    b.members = (List.range width).filterMap (Option.guard fun p => b.has p) := by
  rw [List.filterMap_eq_filter]
  rfl

theorem has_eq_isSome_guard (b : Bitmap) (p : Nat) :
    b.has p = (Option.guard (fun p => b.has p) p).isSome := by
  simp

theorem length_members (b : Bitmap) : b.members.length = b.count := by
  rw [members_eq_filterMap]
  exact length_filterMap_range fun q _ => b.has_eq_isSome_guard q

/-- The rank of a member is its index. -/
theorem getElem?_members_rank (hp : bits.has p = true) : bits.members[bits.rank p]? = some p := by
  rw [members_eq_filterMap, getElem?_rank_filterMap (fun q _ => bits.has_eq_isSome_guard q) hp]
  simp [hp]

theorem rank_eq_of_getElem?_members {j : Nat} (hj : bits.members[j]? = some p) :
    bits.has p = true ∧ bits.rank p = j := by
  have hp : bits.has p = true := (List.mem_filter.mp (List.mem_of_getElem? hj)).2
  have hn : bits.members.Nodup := List.nodup_range.filter _
  obtain ⟨hlt, -⟩ := List.getElem?_eq_some_iff.mp hj
  refine ⟨hp, ((List.getElem?_inj hlt hn).mp ?_).symm⟩
  rw [hj, getElem?_members_rank hp]

end Bitmap

/-! ## Nodes by their path -/

/-- The positions of a path lead from one node down to another. -/
inductive Node.Reaches : Node κ ν → List Nat → Node κ ν → Prop
  | here (n : Node κ ν) : Reaches n [] n
  | down {n child m : Node κ ν} {p : Nat} {path : List Nat} :
      n.slotAt p = some (.inner child) → Reaches child path m → Reaches n (p :: path) m

section Laws

variable [HashCode κ]

/-- The entries whose hash has the digit `p` from bit `shift` on. -/
def withDigit (shift p : Nat) (es : List (κ × ν)) : List (κ × ν) :=
  es.filter fun e => (hashCode e.1).toNat / Nat.pow 2 shift % 32 == p

/-- What holds of a node that a path leads to, by the kind of the node. The slots of a bitmap node
go with the members of the bitmap, in order. -/
def Node.KindLaws [BEq κ] (path : List Nat) : Node κ ν → Prop
  | .bitmap now bits slots =>
    slots.length = bits.members.length ∧ slots.length ≤ 16 ∧
      ∀ (j p : Nat) (slot : Slot κ ν), bits.members[j]? = some p → slots[j]? = some slot →
        slot.entries = withDigit (5 * path.length) p (Node.bitmap now bits slots).entries
  | .array now count children =>
    children.length = 32 ∧ count = children.countP Option.isSome ∧ 9 ≤ count ∧ count ≤ 32 ∧
      ∀ p child, children[p]? = some child →
        placeEntries (child.map Slot.inner) =
          withDigit (5 * path.length) p (Node.array now count children).entries
  | .collision _ hash es => path ≠ [] ∧ (∀ e ∈ es, hashCode e.1 = hash) ∧ Distinct es

/-- What holds of a node that a path leads to. -/
structure Node.Lawful [BEq κ] (path : List Nat) (n : Node κ ν) : Prop where
  lowBits : ∀ e ∈ n.entries,
    (hashCode e.1).toNat % Nat.pow 2 (5 * path.length) = Nat.ofDigits 32 path
  filled : path ≠ [] → n.entries ≠ []
  kind : n.KindLaws path

/-- What holds of a trie with a root and an entry of a nil key next to it. -/
structure TrieLawful [BEq κ] (root : Node κ ν) (nilEntry : Option (κ × ν)) (size : Nat) : Prop where
  node : ∀ path n, root.Reaches path n → n.Lawful path
  distinct : Distinct root.entries
  noNil : ∀ e ∈ root.entries, isNil e.1 = false
  nil : ∀ e ∈ nilEntry, isNil e.1 = true
  size : size = root.entries.length + if nilEntry.isSome then 1 else 0

/-- What holds of a map in its form. -/
def Represented [BEq κ] (m : HashTrieMap κ ν) : Prop :=
  match m.shape with
  | .flat es => m.size = es.length ∧ es.length ≤ 8 ∧ Distinct es
  | .trie root nilEntry => TrieLawful root nilEntry m.size

/-! ## Paths and hashes -/

theorem shiftOf_eq {d : Nat} (h : digits = left + d) : shiftOf left = 5 * d := by
  rw [shiftOf, h]
  omega

/-- A path that begins the way of a hash is the low bits of what is left of the hash. -/
theorem ofDigits_of_way {left' : Nat} (hl : left ≤ digits) (hw : way h left = path ++ way h left')
    (hd : left = left' + path.length) :
    h.toNat / Nat.pow 2 (shiftOf left) % Nat.pow 2 (5 * path.length) = Nat.ofDigits 32 path := by
  induction path generalizing left with
  | nil => simp [Nat.mod_one]
  | cons p path ih =>
    rw [List.length_cons] at hd
    obtain ⟨l, rfl⟩ : ∃ l, left = l + 1 := ⟨left' + path.length, hd⟩
    obtain ⟨hp, hw⟩ := List.cons.inj hw
    have hs : shiftOf l = shiftOf (l + 1) + 5 := by
      rw [shiftOf, shiftOf]
      omega
    have hRest := ih (by omega) hw (by omega)
    have h32 : (2 : Nat).pow 5 = 32 := rfl
    have hPow : (2 : Nat).pow (5 * (p :: path).length) = 32 * Nat.pow 2 (5 * path.length) := by
      rw [List.length_cons, Nat.mul_add, Nat.mul_one, Nat.add_comm, ← h32]
      exact Nat.pow_add 2 5 (5 * path.length)
    have hDiv : h.toNat / Nat.pow 2 (shiftOf l) =
        h.toNat / Nat.pow 2 (shiftOf (l + 1)) / 32 := by
      rw [hs, Nat.div_div_eq_div_mul, ← h32]
      exact congrArg _ (Nat.pow_add 2 _ 5)
    rw [hDiv] at hRest
    rw [hPow, Nat.mod_mul, hRest, Nat.ofDigits_cons]
    exact congrArg (· + _) hp

theorem withDigit_eq {d : Nat} (hd : digits = left + d) (es : List (κ × ν)) :
    withDigit (5 * d) p es = entriesAt left p es := by
  rw [← shiftOf_eq hd]
  rfl

/-! ## Well-formed tries -/

section

variable [BEq κ]

/-- A node that a path leads to is well-formed, and the path begins the ways of its entries. -/
theorem Node.Reaches.reached (hr : n.Reaches path m) (hn : n.WellFormed left) :
    ∃ left', left = left' + path.length ∧ m.WellFormed left' ∧ (path = [] ∨ m.entries ≠ []) ∧
      ∀ e ∈ m.entries, e ∈ n.entries ∧
        way (hashCode e.1) left = path ++ way (hashCode e.1) left' := by
  induction hr generalizing left with
  | here n => exact ⟨left, rfl, hn, Or.inl rfl, fun e he => ⟨he, rfl⟩⟩
  | @down n child m p path hslot hr ih =>
    rcases hn.cases with ⟨now, hash, es, rfl, -⟩ | ⟨l, rfl, hb⟩
    · cases hslot
    · have hs := hb.sound p _ hslot
      obtain ⟨left', hl, hm, hFilled, hWay⟩ := ih (hs.child child rfl)
      refine ⟨left', by rw [List.length_cons, hl]; rfl, hm, Or.inr ?_, ?_⟩
      · rcases hFilled with rfl | hFilled
        · cases hr
          exact hs.filled
        · exact hFilled
      · intro e he
        obtain ⟨hc, hw⟩ := hWay e he
        refine ⟨hb.mem_entries.mpr ⟨p, _, hslot, hc⟩, ?_⟩
        rw [way, hw, hs.routed e hc]
        rfl

theorem Node.WellFormed.kindLaws (hn : n.WellFormed left) (hd : digits = left + path.length)
    (hRoot : path = [] → n.Shaped) : n.KindLaws path := by
  rcases hn.cases with ⟨now, hash, es, rfl, hb⟩ | ⟨l, rfl, hb⟩
  · exact ⟨hRoot, hb.hash, hb.distinct⟩
  · cases n with
    | bitmap now bits slots =>
      obtain ⟨hlen, hmost⟩ := hb.shaped
      refine ⟨by rw [Bitmap.length_members, hlen], hmost, ?_⟩
      intro j p slot hj hslot
      obtain ⟨hp, rfl⟩ := Bitmap.rank_eq_of_getElem?_members hj
      have hAt : (Node.bitmap now bits slots).slotAt p = some slot := by
        rw [slotAt, if_pos hp, hslot]
      rw [withDigit_eq hd, hb.filter_entries (Bitmap.lt_width_of_has hp), hAt, placeEntries_some]
    | array now count children =>
      obtain ⟨hlen, hcount, hmin⟩ := hb.shaped
      refine ⟨hlen, hcount.symm, hmin, ?_, ?_⟩
      · rw [← hcount]
        exact Nat.le_trans List.countP_le_length (Nat.le_of_eq hlen)
      · intro p child hchild
        obtain ⟨hlt, -⟩ := List.getElem?_eq_some_iff.mp hchild
        have hAt : (Node.array now count children).slotAt p = child.map Slot.inner := by
          rw [slotAt, hchild]
          rfl
        rw [withDigit_eq hd, hb.filter_entries (hlen ▸ hlt), hAt]
    | collision => exact hb.shaped.elim

/-- Every node of a well-formed trie keeps the laws. -/
theorem Node.Reaches.lawful (hr : n.Reaches path m) (hn : n.WellFormed digits) (hs : n.Shaped) :
    m.Lawful path := by
  obtain ⟨left, hd, hm, hFilled, hWay⟩ := hr.reached hn
  refine ⟨?_, fun hp => hFilled.resolve_left hp, hm.kindLaws hd ?_⟩
  · intro e he
    have hLow := ofDigits_of_way (Nat.le_refl _) (hWay e he).2 hd
    rwa [shiftOf, Nat.sub_self, Nat.pow_eq, Nat.pow_zero, Nat.div_one] at hLow
  · rintro rfl
    cases hr
    exact hs

variable [LawfulHashCode κ]

theorem WellFormed.represented {m : HashTrieMap κ ν} (h : m.WellFormed) : Represented m := by
  obtain ⟨size, shape, cache, stamp⟩ := m
  have hsize := h.size
  cases shape with
  | flat es => exact ⟨hsize, h.shape.1, h.shape.2⟩
  | trie root nilEntry =>
    have ht : TrieWellFormed root nilEntry := h.shape
    refine ⟨fun path n hr => hr.lawful ht.wellFormed ht.shaped, ht.wellFormed.distinct, ht.others,
      ht.nil, ?_⟩
    cases nilEntry with
    | none => simpa [trieEntries] using hsize
    | some e => simpa [trieEntries] using hsize

/-- Every history of the empty map succeeds and leads to a map that keeps the laws of its form, at
each of its nodes. -/
theorem run_represented {s : Mode} (calls : Calls κ ν .frozen s) :
    Succeeds (calls.run HashTrieMap.empty) fun r => Represented r.2.content := by
  have hEmpty : Models (Held.content (s := .frozen) (HashTrieMap.empty : HashTrieMap κ ν)) ∅ :=
    models_empty
  obtain ⟨events, r, hy, -, hm⟩ := calls.run_models hEmpty
  exact ⟨events, r, hy, hm.wellFormed.represented⟩

end

end Laws

/-- A history that takes a map beyond its flat form, with a nil key and two removals. -/
def growAndTake : Calls (Option UInt8) Nat .frozen .frozen :=
  .cons (.insert none 0) (.cons .transient
    (.cons (.extend ((List.range 40).map fun i => (some i.toUInt8, i)))
      (.cons (.take (.writtenBy 1) (some 7)) (.cons .freeze (.cons (.erase (some 8)) .nil)))))

theorem run_represented_growAndTake : LawfulHashCode (Option UInt8) ∧
    Succeeds (growAndTake.run HashTrieMap.empty) fun r => Represented r.2.content :=
  ⟨inferInstance, run_represented growAndTake⟩

end PersistentCollections.HashTrieMap
