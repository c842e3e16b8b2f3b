import PersistentCollections.Proofs.HashTrieMap.Update
import PersistentCollections.Proofs.Outcome

/-!
# Insertion into a trie

`insert` gives a well-formed node back, and its entries are those there were with one `Put`
(`insert_accepts`). The induction is on the digits to go. Its hypothesis serves twice: for the child
on the way of the key, and for the node with one entry into which `pair` inserts the second one.

Neither `pair` nor `promote` nor an array node ever asks for a digit that the hash does not have.
Entries that meet after the last digit have the same hash, and a node for the last digit, which has
two bits, holds at most four places.
-/

namespace PersistentCollections.HashTrieMap.Node

open Entries

variable {κ ν : Type} [BEq κ] [HashCode κ] [LawfulHashCode κ] {now stamp left p q : Nat}
  {bits : Bitmap} {slots : List (Slot κ ν)} {children : List (Option (Node κ ν))}
  {n : Node κ ν} {key : κ} {value : ν}

/-- The outcome of an insertion into a node: a well-formed node of the same kind, with one `Put`. -/
structure Accepts (left : Nat) (n : Node κ ν) (key : κ) (value : ν) (r : Inserted κ ν) : Prop where
  wellFormed : r.node.WellFormed left
  shaped : n.Shaped → r.node.Shaped
  put : Put key value n.entries r.replaced r.node.entries

/-- An insertion into nodes with `left` digits to go. A node gets a key only if the key meets the
entries there, and a collision node only if it has some. -/
def Inserts (left : Nat) (insert : Node κ ν → κ × ν → UInt32 → Result (Inserted κ ν)) : Prop :=
  ∀ n key value, n.WellFormed left → (n.Shaped ∨ n.entries ≠ []) →
    (∀ e ∈ n.entries, Meets left (hashCode e.1) (hashCode key)) →
    ∃ r, insert n (key, value) (hashCode key) = .ok r ∧ Accepts left n key value r

/-! ## New nodes -/

omit [LawfulHashCode κ] in
/-- The node with one entry. -/
theorem singleton_spec (now left : Nat) (e : κ × ν) :
    ∃ n, singleton now (hashCode e.1) e (left + 1) = .ok n ∧ n.WellFormed (left + 1) ∧ n.Shaped ∧
      n.entries = [e] := by
  have hw := position_lt (hashCode e.1) (left + 1)
  have hs := shaped_single now hw (Slot.leaf e)
  refine ⟨_, rfl, Branch.wellFormed ⟨hs, fun q slot hq => ?_⟩, hs, ?_⟩
  · rw [slotAt_single now hw] at hq
    split at hq
    · next h =>
      cases hq
      refine ⟨by simp, fun e' he' => ?_, fun node hn => by cases hn⟩
      rw [Slot.entries_leaf, List.mem_singleton] at he'
      rw [he', h]
    · cases hq
  · rw [entries_bitmap]
    rfl

/-- The node for two entries that meet. -/
theorem pair_spec {insert : Node κ ν → κ × ν → UInt32 → Result (Inserted κ ν)}
    (hi : Inserts left insert) (now : Nat) (stored : κ × ν) (key : κ) (value : ν)
    (hne : (stored.1 == key) = false) (hm : Meets left (hashCode stored.1) (hashCode key)) :
    ∃ r, pair now insert left stored (hashCode stored.1) (key, value) (hashCode key) = .ok r ∧
      r.node.WellFormed left ∧ Put key value [stored] none r.node.entries := by
  have hl : Lacks key [stored] := lacks_cons.mpr ⟨hne, lacks_nil key⟩
  unfold pair
  by_cases hh : hashCode stored.1 = hashCode key
  · rw [if_pos hh]
    refine ⟨_, rfl, wellFormed_collision.mpr ⟨fun e he => ?_, ?_⟩, ?_⟩
    · simp only [List.mem_cons, List.not_mem_nil, or_false] at he
      rcases he with rfl | rfl
      · rfl
      · exact hh.symm
    · exact distinct_cons.mpr ⟨lacks_cons.mpr ⟨key_ne_symm hne, lacks_nil _⟩,
        List.pairwise_singleton _ _⟩
    · rw [entries_collision]
      exact put_last key value hl
  · -- Different hashes part before the last digit, so there is a digit to go.
    obtain ⟨l, rfl⟩ : ∃ l, left = l + 1 := by
      cases left with
      | zero => exact absurd (eq_of_meets_zero hm) hh
      | succ l => exact ⟨l, rfl⟩
    obtain ⟨n, hn, hw, hs, he⟩ := singleton_spec now l stored
    obtain ⟨r, hr, ha⟩ := hi n key value hw (Or.inl hs) (by
      rw [he]
      intro e he'
      rw [List.mem_singleton.mp he']
      exact hm)
    rw [if_neg hh, hn, Result.bind_ok]
    have hput := ha.put
    rw [he] at hput
    have hnone : r.replaced = none := by rw [hput.replaced, find?_of_lacks hl]; rfl
    exact ⟨r, hr, ha.wellFormed, hnone ▸ hput⟩

/-! ## The last digit -/

omit [BEq κ] [LawfulHashCode κ] in
/-- A branch for the last digit has nothing beyond the fourth position. -/
theorem Branch.lt_four {below : Node κ ν → Prop} {slot : Slot κ ν} (hb : n.Branch below 1)
    (h : n.slotAt q = some slot) : q < 4 := by
  obtain ⟨e, he⟩ := List.exists_mem_of_ne_nil _ (hb.sound q slot h).filled
  rw [← (hb.sound q slot h).routed e he]
  exact position_one_lt _

omit [BEq κ] [LawfulHashCode κ] in
theorem Branch.length_le_four {below : Node κ ν → Prop}
    (hb : (Node.bitmap now bits slots).Branch below 1) : slots.length ≤ 4 := by
  rw [hb.shaped.1]
  refine Bitmap.rank_le (fun q hq => ?_) width
  obtain ⟨slot, -, h⟩ := exists_slot hb.shaped hq
  exact hb.lt_four h

omit [BEq κ] [LawfulHashCode κ] in
/-- There is no array node for the last digit. -/
theorem Branch.ne_array {below : Node κ ν → Prop} {count : Nat} (hl : left = 0)
    (hb : (Node.array now count children).Branch below (left + 1)) : False := by
  subst hl
  obtain ⟨hlen, hcount, hmin⟩ := hb.shaped
  have hRest : (children.drop 4).countP Option.isSome = 0 := by
    rw [List.countP_eq_zero]
    intro child hchild hsome
    obtain ⟨i, hi⟩ := List.mem_iff_getElem?.mp hchild
    obtain ⟨node, rfl⟩ := Option.isSome_iff_exists.mp hsome
    rw [List.getElem?_drop] at hi
    have hslot : (Node.array now count children).slotAt (4 + i) = some (.inner node) := by
      rw [slotAt, hi]
      rfl
    have := hb.lt_four hslot
    omega
  have hFirst : (children.take 4).countP Option.isSome ≤ 4 :=
    Nat.le_trans List.countP_le_length (List.length_take_le 4 children)
  have hAll : (children.take 4).countP Option.isSome + (children.drop 4).countP Option.isSome =
      count := by
    rw [← List.countP_append, List.take_append_drop, hcount]
  simp only [fewestChildren] at hmin
  omega

/-! ## Array nodes from bitmap nodes -/

/-- Children for the `m` positions of a bitmap node from `q` on: one for each member of the bitmap,
with the entries of its slot. -/
structure Spreads (below : Node κ ν → Prop) (stamp : Nat) (bits : Bitmap) (slots : List (Slot κ ν))
    (q m : Nat) (children : List (Option (Node κ ν))) : Prop where
  length : children.length = m
  count : bits.rank q + children.countP Option.isSome = bits.rank (q + m)
  isSome : ∀ i, i < m → children[i]?.join.isSome = bits.has (q + i)
  alike : ∀ i, i < m → Alike below ((Node.bitmap stamp bits slots).slotAt (q + i))
    (children[i]?.join.map Slot.inner)

omit [BEq κ] [HashCode κ] [LawfulHashCode κ] in
theorem Spreads.cons {below : Node κ ν → Prop} {m : Nat} {child : Option (Node κ ν)}
    (h : Spreads below stamp bits slots (q + 1) m children) (hs : child.isSome = bits.has q)
    (ha : Alike below ((Node.bitmap stamp bits slots).slotAt q) (child.map Slot.inner)) :
    Spreads below stamp bits slots q (m + 1) (child :: children) := by
  have hq : ∀ i, q + (i + 1) = q + 1 + i := by intro i; omega
  refine ⟨by rw [List.length_cons, h.length], ?_, ?_, ?_⟩
  · rw [hq, ← h.count, List.countP_cons, Bitmap.rank, hs]
    cases bits.has q with
    | true => simp only [if_true, Bool.toNat_true]; omega
    | false => simp only [Bool.false_eq_true, if_false, Bool.toNat_false]; omega
  · intro i hi
    cases i with
    | zero => exact hs
    | succ i => rw [hq]; exact h.isSome i (by omega)
  · intro i hi
    cases i with
    | zero => exact ha
    | succ i => rw [hq]; exact h.alike i (by omega)

omit [LawfulHashCode κ] in
theorem spread_spec
    (hb : (Node.bitmap stamp bits slots).Branch (Node.WellFormed (left + 1)) (left + 2))
    (now m q : Nat) :
    ∃ children, spread now (left + 1) bits (List.range' q m) (slots.drop (bits.rank q)) =
        .ok children ∧
      Spreads (Node.WellFormed (left + 1)) stamp bits slots q m children := by
  induction m generalizing q with
  | zero => exact ⟨[], rfl, rfl, rfl, by simp, by simp⟩
  | succ m ih =>
    obtain ⟨children, hc, hRest⟩ := ih (q + 1)
    rw [List.range'_succ, spread.eq_def]
    by_cases hq : bits.has q = true
    · obtain ⟨slot, hslot, hdrop⟩ := drop_rank hb.shaped hq
      simp only [hq, if_true, hdrop]
      cases slot with
      | inner child =>
        refine ⟨some child :: children, by simp [hc], hRest.cons hq.symm ?_⟩
        have ha := hb.alike q
        rw [hslot] at ha ⊢
        exact ha
      | leaf e =>
        obtain ⟨child, hchild, hw, -, he⟩ := singleton_spec now left e
        refine ⟨some child :: children, by simp [hc, hchild], hRest.cons hq.symm ⟨?_, ?_, ?_⟩⟩
        · rw [hslot]
          simp [he]
        · intro slot hs
          cases hs
          simp [he]
        · intro node hs
          cases hs
          exact hw
    · have hrank : bits.rank (q + 1) = bits.rank q := by
        rw [Bitmap.rank, Bool.eq_false_iff.mpr hq]
        rfl
      have hslot : (Node.bitmap stamp bits slots).slotAt q = none := by rw [slotAt, if_neg hq]
      simp only [hq, Bool.false_eq_true, if_false]
      refine ⟨none :: children, by rw [← hrank, hc]; rfl,
        hRest.cons (Bool.eq_false_iff.mpr hq).symm ?_⟩
      have ha := hb.alike q
      rw [hslot] at ha ⊢
      exact ha

/-- A full bitmap node turns into an array node that also holds the entry. -/
theorem promote_spec
    (hb : (Node.bitmap stamp bits slots).Branch (Node.WellFormed (left + 1)) (left + 2))
    (hp : position (hashCode key) (left + 2) = p) (hn : bits.has p = false)
    (hfull : mostSlots ≤ slots.length) (now : Nat) (value : ν) :
    ∃ r, promote now (left + 1) bits slots (key, value) (hashCode key) = .ok r ∧
      r.replaced = none ∧ r.node.Shaped ∧ r.node.WellFormed (left + 2) ∧
      Put key value (Node.bitmap stamp bits slots).entries none r.node.entries := by
  have hw : p < width := hp ▸ position_lt _ _
  obtain ⟨children, hc, hl, hcount, hss, haa⟩ := spread_spec hb now width 0
  obtain ⟨child, hchild, hcw, -, he⟩ := singleton_spec now left (key, value)
  have hrange : List.range width = List.range' 0 width := List.range_eq_range'
  have hdrop : slots.drop (bits.rank 0) = slots := rfl
  simp only [Nat.zero_add] at hcount hss haa
  rw [hdrop, ← hrange] at hc
  have hAbsent : (Node.bitmap stamp bits slots).slotAt p = none := by
    rw [slotAt, hn]
    rfl
  have hlt : p < children.length := hl.symm ▸ hw
  have hset : children[p] = none := by
    have h := hss p hw
    rw [hn, List.getElem?_eq_getElem hlt] at h
    exact Option.not_isSome_iff_eq_none.mp (by simpa using h)
  have hShaped : (Node.array now (bits.count + 1) (children.set p (some child))).Shaped := by
    refine ⟨by rw [List.length_set, hl], ?_, ?_⟩
    · rw [List.countP_set hlt, hset]
      have : children.countP Option.isSome = bits.count := by
        rw [Bitmap.count, ← hcount]
        exact (Nat.zero_add _).symm
      simp [this]
    · have := hb.shaped.1
      simp only [mostSlots, fewestChildren] at hfull ⊢
      omega
  have hOthers : ∀ q, q < width → q ≠ p → Alike (Node.WellFormed (left + 1))
      ((Node.bitmap stamp bits slots).slotAt q)
      ((Node.array now (bits.count + 1) (children.set p (some child))).slotAt q) := by
    intro q hq hqp
    rw [slotAt_setChild hl hw, if_neg hqp]
    exact haa q hq
  have hPut : Put key value (placeEntries ((Node.bitmap stamp bits slots).slotAt p)) none
      (Slot.inner child).entries := by
    rw [hAbsent, Slot.entries_inner, he]
    exact put_last key value (lacks_nil key)
  obtain ⟨hWell, hAll⟩ := hb.put hShaped hp (by rw [slotAt_setChild hl hw, if_pos rfl]; rfl) hOthers
    hPut fun node hnode => by cases hnode; exact hcw
  refine ⟨⟨.array now (bits.count + 1) (children.set p (some child)), none,
    [.nodePromoted (shiftOf (left + 2))]⟩, ?_, rfl, hShaped, hWell, hAll⟩
  rw [promote, hc, Result.bind_ok, hchild, Result.bind_ok, Result.pure_eq, hp]

/-! ## Insertion -/

omit [BEq κ] [LawfulHashCode κ] in
/-- What stands at the next position of a key meets the key there. -/
theorem Branch.meets {below : Node κ ν → Prop} {slot : Slot κ ν} (hb : n.Branch below (left + 1))
    (hm : ∀ e ∈ n.entries, Meets (left + 1) (hashCode e.1) (hashCode key))
    (h : n.slotAt (position (hashCode key) (left + 1)) = some slot) :
    ∀ e ∈ slot.entries, Meets left (hashCode e.1) (hashCode key) := by
  intro e he
  exact (hm e (hb.mem_entries.mpr ⟨_, slot, h, he⟩)).step ((hb.sound _ slot h).routed e he)

/-- Overwriting the slot of a key. -/
theorem Branch.accepts_set {slot slot' : Slot κ ν} {old : Option ν}
    (hb : (Node.bitmap stamp bits slots).Branch (Node.WellFormed left) (left + 1))
    (hp : position (hashCode key) (left + 1) = p) (hh : bits.has p = true)
    (hslot : (Node.bitmap stamp bits slots).slotAt p = some slot)
    (hput : Put key value slot.entries old slot'.entries)
    (hc : ∀ node, slot' = .inner node → node.WellFormed left) (events : List Event) :
    Accepts (left + 1) (.bitmap stamp bits slots) key value
      ⟨.bitmap now bits (slots.set (bits.rank p) slot'), old, events⟩ := by
  have hs : (Node.bitmap now bits (slots.set (bits.rank p) slot')).Shaped :=
    shaped_set now hb.shaped _ _
  obtain ⟨hWell, hPut⟩ := hb.put hs hp
    (by rw [slotAt_set hb.shaped hh, if_pos rfl])
    (fun q _ hq => hb.alike_of_eq (by rw [slotAt_set hb.shaped hh, if_neg hq]))
    (by rw [hslot, placeEntries_some]; exact hput) hc
  exact ⟨hWell, fun _ => hs, hPut⟩

/-- The position of the key is taken. -/
theorem insertBitmap_taken {insert : Node κ ν → κ × ν → UInt32 → Result (Inserted κ ν)}
    (hi : Inserts left insert)
    (hb : (Node.bitmap stamp bits slots).Branch (Node.WellFormed left) (left + 1))
    (hm : ∀ e ∈ (Node.bitmap stamp bits slots).entries,
      Meets (left + 1) (hashCode e.1) (hashCode key))
    (hp : position (hashCode key) (left + 1) = p) (hh : bits.has p = true) (now : Nat)
    (value : ν) :
    ∃ r, insertBitmap now insert left bits slots (key, value) (hashCode key) = .ok r ∧
      Accepts (left + 1) (.bitmap stamp bits slots) key value r := by
  have hMeets := fun slot (h : (Node.bitmap stamp bits slots).slotAt _ = some slot) => hb.meets hm h
  rw [hp] at hMeets
  obtain ⟨slot, hr, hslot⟩ := exists_slot hb.shaped hh
  unfold insertBitmap
  simp only [hp, hh, if_true, hr]
  cases slot with
  | inner child =>
    have hc := (hb.sound p _ hslot).child child rfl
    obtain ⟨r, hr', ha⟩ := hi child key value hc (Or.inr (hb.sound p _ hslot).filled)
      (hMeets _ hslot)
    simp only [hr', Result.bind_ok, Result.pure_eq]
    exact ⟨_, rfl, hb.accepts_set hp hh hslot ha.put
      (fun node hn => by cases hn; exact ha.wellFormed) _⟩
  | leaf stored =>
    by_cases he : (stored.1 == key) = true
    · have hPut : Put key value [stored] (some stored.2) [(stored.1, value)] :=
        put_single value he
      simp only [he, if_true]
      exact ⟨_, rfl, hb.accepts_set hp hh hslot hPut (fun node hn => by cases hn) _⟩
    · obtain ⟨r, hr', hrw, hrp⟩ := pair_spec hi now stored key value
        (Bool.eq_false_iff.mpr he) (hMeets _ hslot stored (List.mem_singleton_self _))
      simp only [he, Bool.false_eq_true, if_false, hr', Result.bind_ok, Result.pure_eq]
      exact ⟨_, rfl, hb.accepts_set hp hh hslot hrp
        (fun node hn => by cases hn; exact hrw) _⟩

/-- The position of the key is free. -/
theorem insertBitmap_free (insert : Node κ ν → κ × ν → UInt32 → Result (Inserted κ ν))
    (hb : (Node.bitmap stamp bits slots).Branch (Node.WellFormed left) (left + 1))
    (hp : position (hashCode key) (left + 1) = p) (hn : bits.has p = false) (now : Nat)
    (value : ν) :
    ∃ r, insertBitmap now insert left bits slots (key, value) (hashCode key) = .ok r ∧
      Accepts (left + 1) (.bitmap stamp bits slots) key value r := by
  have hw : p < width := hp ▸ position_lt (hashCode key) (left + 1)
  have hAbsent : (Node.bitmap stamp bits slots).slotAt p = none := by
    rw [slotAt, hn]
    rfl
  unfold insertBitmap
  simp only [hp, hn, Bool.false_eq_true, if_false]
  by_cases hl : slots.length < mostSlots
  · have hr : bits.rank p ≤ slots.length :=
      hb.shaped.1 ▸ Bitmap.rank_mono bits (Nat.le_of_lt hw)
    have hs : (Node.bitmap now (bits.insert p)
        (slots.insertIdx (bits.rank p) (Slot.leaf (key, value)))).Shaped :=
      shaped_insertIdx hb.shaped hw hn hl _
    obtain ⟨hWell, hPut⟩ := hb.put hs hp
      (by rw [slotAt_insertIdx hb.shaped hw hn, if_pos rfl])
      (fun q _ hq => hb.alike_of_eq (by rw [slotAt_insertIdx hb.shaped hw hn, if_neg hq]))
      (by rw [hAbsent]; exact put_last key value (lacks_nil key)) fun node hn => by cases hn
    simp only [hl, if_true, hr]
    exact ⟨_, rfl, hWell, fun _ => hs, hPut⟩
  · -- A full node has more than four places, so this is not the last digit.
    obtain ⟨l, rfl⟩ : ∃ l, left = l + 1 := by
      cases left with
      | zero =>
        have := hb.length_le_four
        simp only [mostSlots] at hl
        omega
      | succ l => exact ⟨l, rfl⟩
    obtain ⟨r, hr, hnone, hs, hWell, hPut⟩ :=
      promote_spec hb hp hn (Nat.le_of_not_lt hl) now value
    simp only [hl, if_false]
    exact ⟨r, hr, hWell, fun _ => hs, hnone ▸ hPut⟩

theorem insertBitmap_accepts {insert : Node κ ν → κ × ν → UInt32 → Result (Inserted κ ν)}
    (hi : Inserts left insert)
    (hb : (Node.bitmap stamp bits slots).Branch (Node.WellFormed left) (left + 1))
    (hm : ∀ e ∈ (Node.bitmap stamp bits slots).entries,
      Meets (left + 1) (hashCode e.1) (hashCode key)) (now : Nat) (value : ν) :
    ∃ r, insertBitmap now insert left bits slots (key, value) (hashCode key) = .ok r ∧
      Accepts (left + 1) (.bitmap stamp bits slots) key value r := by
  by_cases hh : bits.has (position (hashCode key) (left + 1)) = true
  · exact insertBitmap_taken hi hb hm rfl hh now value
  · exact insertBitmap_free insert hb rfl (Bool.eq_false_iff.mpr hh) now value

/-- Giving an array node a child at the next position of a key. -/
theorem Branch.accepts_setChild {place : Option (Node κ ν)} {child : Node κ ν} {old : Option ν}
    {count count' : Nat}
    (hb : (Node.array stamp count children).Branch (Node.WellFormed left) (left + 1))
    (hp : position (hashCode key) (left + 1) = p) (hplace : children[p]? = some place)
    (hcount : count' = count + if place.isSome then 0 else 1)
    (hput : Put key value (placeEntries (place.map Slot.inner)) old child.entries)
    (hc : child.WellFormed left) (events : List Event) :
    Accepts (left + 1) (.array stamp count children) key value
      ⟨.array now count' (children.set p (some child)), old, events⟩ := by
  obtain ⟨hlen, hsum, hmin⟩ := hb.shaped
  have hw : p < width := hp ▸ position_lt _ _
  obtain ⟨hlt, hat⟩ := List.getElem?_eq_some_iff.mp hplace
  have hs : (Node.array now count' (children.set p (some child))).Shaped := by
    refine ⟨by rw [List.length_set, hlen], ?_, by omega⟩
    rw [List.countP_set hlt, hat, hsum, hcount]
    cases place with
    | none => simp
    | some _ => simp; omega
  have hslot : (Node.array stamp count children).slotAt p = place.map Slot.inner := by
    rw [slotAt, hplace]
    rfl
  obtain ⟨hWell, hPut⟩ := hb.put hs hp
    (by rw [slotAt_setChild hlen hw, if_pos rfl]; rfl)
    (fun q _ hq => hb.alike_of_eq (by rw [slotAt_setChild hlen hw, if_neg hq]; rfl))
    (by rw [hslot]; exact hput) fun node hn => by cases hn; exact hc
  exact ⟨hWell, fun _ => hs, hPut⟩

theorem insert_array {count : Nat} (hi : Inserts left (insert (κ := κ) (ν := ν) now left))
    (hb : (Node.array stamp count children).Branch (Node.WellFormed left) (left + 1))
    (hm : ∀ e ∈ (Node.array stamp count children).entries,
      Meets (left + 1) (hashCode e.1) (hashCode key)) :
    ∃ r, insert now (left + 1) (.array stamp count children) (key, value) (hashCode key) = .ok r ∧
      Accepts (left + 1) (.array stamp count children) key value r := by
  have hMeets := fun slot (h : (Node.array stamp count children).slotAt _ = some slot) =>
    hb.meets hm h
  obtain ⟨place, hr, hslot⟩ := exists_child hb.shaped (position_lt (hashCode key) (left + 1))
  rw [insert]
  simp only [hr]
  cases place with
  | some child =>
    have hSound := hb.sound _ _ hslot
    obtain ⟨r, hr', ha⟩ := hi child key value (hSound.child child rfl) (Or.inr hSound.filled)
      (hMeets _ hslot)
    simp only [hr', Result.bind_ok, Result.pure_eq]
    exact ⟨_, rfl, hb.accepts_setChild rfl hr rfl (by simpa using ha.put) ha.wellFormed _⟩
  | none =>
    obtain ⟨l, rfl⟩ : ∃ l, left = l + 1 := by
      cases left with
      | zero => exact (hb.ne_array rfl).elim
      | succ l => exact ⟨l, rfl⟩
    obtain ⟨child, hchild, hcw, -, he⟩ := singleton_spec now l (key, value)
    simp only [hchild, Result.bind_ok, Result.pure_eq]
    exact ⟨_, rfl, hb.accepts_setChild rfl hr rfl
      (by simpa [he] using put_last key value (lacks_nil key)) hcw _⟩

/-- A collision node takes a key of its hash. -/
theorem insert_collision {hash : UInt32} {es : List (κ × ν)}
    (hb : Bucket hash es) (hh : hash = hashCode key) :
    ∃ r, (match setValue? key value es with
        | some (old, es) => .ok ⟨.collision now hash es, some old, []⟩
        | none => .ok ⟨.collision now hash (es ++ [(key, value)]), none, []⟩ :
          Result (Inserted κ ν)) = .ok r ∧
      Accepts left (.collision stamp hash es) key value r := by
  have hAccepts : ∀ {old : Option ν} {es' : List (κ × ν)}, Put key value es old es' →
      Accepts left (.collision stamp hash es) key value ⟨.collision now hash es', old, []⟩ := by
    intro old es' hp
    refine ⟨wellFormed_collision.mpr ⟨fun e he => ?_, hp.distinct hb.distinct⟩,
      fun hs => hs.elim, by simpa using hp⟩
    rcases hp.key_mem he with hk | ⟨e', he', hk⟩
    · rw [hk, hh]
    · rw [← hk, hb.hash e' he']
  rcases lacks_or_split key es with hl | ⟨before, e, after, rfl, hl, he⟩
  · rw [setValue?_of_lacks hl]
    exact ⟨_, rfl, hAccepts (put_last key value hl)⟩
  · rw [setValue?_split hl he]
    exact ⟨_, rfl, hAccepts (Put.overwrite hl he)⟩

omit [LawfulHashCode κ] in
/-- A collision node below a bitmap node of its own. -/
theorem nest_spec {hash : UInt32} {es : List (κ × ν)} (hb : Bucket hash es) (hne : es ≠ [])
    (now left : Nat) :
    (Node.bitmap now (Bitmap.empty.insert (position hash (left + 1)))
        [.inner (.collision now hash es)]).Branch (Node.WellFormed left) (left + 1) ∧
      (Node.bitmap now (Bitmap.empty.insert (position hash (left + 1)))
        [.inner (.collision now hash es)]).entries = es := by
  have hw := position_lt hash (left + 1)
  refine ⟨⟨shaped_single now hw _, fun q slot hq => ?_⟩, by simp [entries_bitmap]⟩
  rw [slotAt_single now hw] at hq
  split at hq
  · next hqp =>
    cases hq
    refine ⟨by simpa using hne, fun e he => ?_, fun node hn => ?_⟩
    · rw [hb.hash e (by simpa using he), hqp]
    · cases hn
      exact wellFormed_collision.mpr hb
  · cases hq

/-- A collision node that another hash reaches goes below a node of its own, which then takes the
entry. -/
theorem insert_nested {hash : UInt32} {es : List (κ × ν)}
    (hi : Inserts left (insert (κ := κ) (ν := ν) now left)) (hb : Bucket hash es) (hne : es ≠ [])
    (hh : ¬ hash = hashCode key) (hm : ∀ e ∈ es, Meets (left + 1) (hashCode e.1) (hashCode key)) :
    ∃ r, insert now (left + 1) (.collision stamp hash es) (key, value) (hashCode key) = .ok r ∧
      Accepts (left + 1) (.collision stamp hash es) key value r := by
  obtain ⟨hNest, hEntries⟩ := nest_spec hb hne now left
  obtain ⟨r, hr, ha⟩ := insertBitmap_accepts hi hNest (by rw [hEntries]; exact hm) now value
  have hPut := ha.put
  rw [hEntries] at hPut
  rw [insert, if_neg hh]
  exact ⟨r, hr, ha.wellFormed, fun hs => hs.elim, by simpa using hPut⟩

/-- Inserting an entry into a well-formed node succeeds, and gives a well-formed node in which the
key has the value. -/
theorem insert_accepts (now : Nat) (left : Nat) :
    Inserts left (insert (κ := κ) (ν := ν) now left) := by
  induction left with
  | zero =>
    intro n key value h hf hm
    obtain ⟨stamp, hash, es, rfl, hb⟩ := wellFormed_zero h
    have hne : es ≠ [] := by simpa [Shaped] using hf
    obtain ⟨e, he⟩ := List.exists_mem_of_ne_nil es hne
    have hh : hash = hashCode key := by
      rw [← hb.hash e he]
      exact eq_of_meets_zero (hm e (by simpa using he))
    rw [insert, if_pos hh]
    exact insert_collision hb hh
  | succ left ih =>
    intro n key value h hf hm
    cases n with
    | bitmap stamp bits slots => exact insertBitmap_accepts ih h hm now value
    | array stamp count children => exact insert_array ih h hm
    | collision stamp hash es =>
      have hb : Bucket hash es := wellFormed_collision.mp h
      by_cases hh : hash = hashCode key
      · rw [insert, if_pos hh]
        exact insert_collision hb hh
      · exact insert_nested ih hb (by simpa [Shaped] using hf) hh (by simpa using hm)

end PersistentCollections.HashTrieMap.Node
