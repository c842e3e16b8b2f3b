import Mathlib.Data.List.Lex
import PersistentCollections.Proofs.HashTrieMap.WellFormed
import PersistentCollections.Proofs.Lists

/-!
# Order of the entries of a trie

`way h left` is the list of the last `left` digits of a hash, in the order in which a trie reads
them. The whole way determines the hash (`way_digits_inj`), and the entries of a well-formed node
stand in the lexicographic order of their ways (`WellFormed.ordered`). What a branch holds at a
position is the part of its entries that has this digit (`Branch.filter_entries`).

Where entries are in order there is one place for a new one, and the entries of a hash stand
together. So the entries after an insertion or a removal are a function of those before it
(`Put.eq_insertOrdered`, `Cut.eq_takeOrdered`), however they are spread over nodes.
-/

namespace PersistentCollections.HashTrieMap

variable {κ ν : Type} [HashCode κ] {left p : Nat} {n : Node κ ν} {h h' : UInt32}
  {es : List (κ × ν)}

/-! ## Ways -/

/-- The last `left` digits of a hash. -/
def way (h : UInt32) : (left : Nat) → List Nat
  | 0 => []
  | left + 1 => position h (left + 1) :: way h left

theorem position_eq_of_way (hw : way h left = way h' left) {l : Nat} (hl : 0 < l)
    (hl' : l ≤ left) : position h l = position h' l := by
  induction left with
  | zero => omega
  | succ left ih =>
    obtain ⟨hHead, hTail⟩ := List.cons.inj hw
    by_cases he : l = left + 1
    · rw [he]
      exact hHead
    · exact ih hTail (by omega)

/-- The whole way determines the hash. -/
theorem way_digits_inj (hw : way h digits = way h' digits) : h = h' := by
  apply eq_of_meets_zero
  intro l hl hl'
  exact position_eq_of_way hw hl hl'

/-! ## Entries by their next digit -/

/-- The entries whose next digit is `p` when `left` digits are to go. -/
def entriesAt (left p : Nat) (es : List (κ × ν)) : List (κ × ν) :=
  es.filter fun e => position (hashCode e.1) left == p

theorem mem_entriesAt {e : κ × ν} :
    e ∈ entriesAt left p es ↔ e ∈ es ∧ position (hashCode e.1) left = p := by
  rw [entriesAt, List.mem_filter, beq_iff_eq]

/-- What stands at a position has that position as its digit, and nothing else has. -/
theorem Node.Branch.filter_entries {below : Node κ ν → Prop} (hb : n.Branch below left)
    (hp : p < width) : entriesAt left p n.entries = placeEntries (n.slotAt p) := by
  obtain ⟨before, after, hn, -, ho⟩ := listing_update (f := n.slotAt) (g := n.slotAt) hp
    fun _ _ _ => rfl
  have hNone : ∀ es : List (κ × ν), (∀ e ∈ es, e ∈ before ++ after) →
      entriesAt left p es = [] := by
    intro es hes
    rw [entriesAt, List.filter_eq_nil_iff]
    intro e he
    obtain ⟨q, slot, hqp, hslot, hmem⟩ := ho e (hes e he)
    rw [(hb.sound q slot hslot).routed e hmem, beq_iff_eq]
    exact hqp
  have hAll : entriesAt left p (placeEntries (n.slotAt p)) = placeEntries (n.slotAt p) := by
    rw [entriesAt, List.filter_eq_self]
    intro e he
    obtain ⟨slot, hslot, he⟩ := mem_placeEntries.mp he
    rw [(hb.sound p slot hslot).routed e he, beq_self_eq_true]
  have hBefore := hNone before fun e he => List.mem_append_left _ he
  have hAfter := hNone after fun e he => List.mem_append_right _ he
  rw [entriesAt] at hBefore hAfter hAll ⊢
  rw [entries_eq_listing hb.shaped, hn, List.filter_append, List.filter_append, hBefore, hAfter,
    hAll, List.nil_append, List.append_nil]

/-! ## Order -/

/-- The ways of the entries ascend. -/
def Ordered (left : Nat) (es : List (κ × ν)) : Prop :=
  es.Pairwise fun a b => way (hashCode a.1) left ≤ way (hashCode b.1) left

/-- Entries of one hash are in order. -/
theorem ordered_of_hash (hh : ∀ e ∈ es, hashCode e.1 = h) : Ordered left es := by
  have hAny : es.Pairwise fun _ _ => True := List.pairwise_of_forall fun _ _ => trivial
  apply hAny.imp_of_mem
  intro a b ha hb _
  rw [hh a ha, hh b hb]

/-- Entries with one next digit are in order if they are by the digits after it. -/
theorem Ordered.cons (ho : Ordered left es)
    (hp : ∀ e ∈ es, position (hashCode e.1) (left + 1) = p) : Ordered (left + 1) es := by
  refine ho.imp_of_mem ?_
  intro a b ha hb hab
  rw [way, way, hp a ha, hp b hb]
  exact List.cons_le_cons p hab

theorem Node.WellFormed.ordered [BEq κ] (hn : n.WellFormed left) : Ordered left n.entries := by
  induction left generalizing n with
  | zero =>
    obtain ⟨now, hash, es, rfl, hb⟩ := wellFormed_zero hn
    rw [entries_collision]
    exact ordered_of_hash hb.hash
  | succ left ih =>
    rcases hn.cases with ⟨now, hash, es, rfl, hb⟩ | ⟨l, hl, hb⟩
    · rw [entries_collision]
      exact ordered_of_hash hb.hash
    · cases hl
      rw [entries_eq_listing hb.shaped, listing_eq_filterMap, Ordered, List.pairwise_flatMap]
      constructor
      · intro slot hslot
        obtain ⟨q, -, hq⟩ := List.mem_filterMap.mp hslot
        cases slot with
        | leaf e => exact List.pairwise_singleton _ _
        | inner child =>
          have hs := hb.sound q _ hq
          exact (ih (hs.child child rfl)).cons hs.routed
      · -- The positions ascend, and each is the first digit of its entries.
        rw [List.pairwise_filterMap]
        refine List.Pairwise.imp ?_ List.pairwise_lt_range
        intro q q' hlt slot hq slot' hq' e he e' he'
        rw [way, way, (hb.sound q slot hq).routed e he, (hb.sound q' slot' hq').routed e' he']
        exact le_of_lt (List.Lex.rel hlt)

/-! ## Insertion and removal in ordered lists -/

namespace Entries

variable [BEq κ] {key : κ} {value : ν} {old : Option ν} {taken : κ × ν} {es' : List (κ × ν)}

/-- Whether an entry goes before the entries of a key's hash. -/
def isBefore (key : κ) (e : κ × ν) : Bool :=
  decide (way (hashCode e.1) digits < way (hashCode key) digits)

/-- Whether an entry goes after the entries of a key's hash. -/
def isAfter (key : κ) (e : κ × ν) : Bool :=
  decide (way (hashCode key) digits < way (hashCode e.1) digits)

/-- Give a key a value in an ordered list, and tell the value it had. A new entry comes last among
those of its hash. -/
def insertOrdered (key : κ) (value : ν) (es : List (κ × ν)) : Option ν × List (κ × ν) :=
  match setValue? key value es with
  | some (old, es) => (some old, es)
  | none => (none, es.filter (fun e => !isAfter key e) ++ (key, value) :: es.filter (isAfter key))

/-- Take the entry of a key out of an ordered list, and move the last entry of its hash into its
place. -/
def takeOrdered? (key : κ) (es : List (κ × ν)) : Option ((κ × ν) × List (κ × ν)) :=
  (takeSwap? key (es.filter fun e => hashCode e.1 == hashCode key)).map fun (taken, group) =>
    (taken, es.filter (isBefore key) ++ group ++ es.filter (isAfter key))

omit [BEq κ] in
theorem isBefore_iff {e : κ × ν} :
    isBefore key e = true ↔ way (hashCode e.1) digits < way (hashCode key) digits :=
  decide_eq_true_iff

omit [BEq κ] in
theorem isAfter_iff {e : κ × ν} :
    isAfter key e = true ↔ way (hashCode key) digits < way (hashCode e.1) digits :=
  decide_eq_true_iff

/-- In order there is one place for a new entry. -/
theorem Put.eq_insertOrdered (h : Put key value es old es') (ho : Ordered digits es') :
    insertOrdered key value es = (old, es') := by
  cases h with
  | overwrite hb hs => rw [insertOrdered, setValue?_split hb hs]
  | @add before after hb ha hh =>
    rw [Ordered, List.pairwise_append, List.pairwise_cons] at ho
    obtain ⟨-, ⟨hAfter, -⟩, hBefore⟩ := ho
    have hNot : ∀ e ∈ before, ¬ isAfter key e = true := by
      intro e he
      rw [isAfter_iff]
      exact Std.not_lt.mpr (hBefore e he _ List.mem_cons_self)
    have hIs : ∀ e ∈ after, isAfter key e = true := by
      intro e he
      apply isAfter_iff.mpr
      exact Std.lt_of_le_of_ne (hAfter e he) fun hw => hh e he (way_digits_inj hw.symm)
    have hFirst : (before ++ after).filter (fun e => !isAfter key e) = before := by
      apply filter_append_left
      · intro e he
        simp [hNot e he]
      · intro e he
        simp [hIs e he]
    rw [insertOrdered, setValue?_of_lacks (lacks_append.mpr ⟨hb, ha⟩)]
    simp only [hFirst, filter_append_right hNot hIs]

/-- In order the entries of a hash stand between those with smaller and those with greater ways. -/
theorem Cut.eq_takeOrdered (h : Cut key es taken es') (ho : Ordered digits es) :
    takeOrdered? key es = some (taken, es') := by
  cases h with
  | @intro before group group' after _ ht hg hh =>
    obtain ⟨g, hgm⟩ : ∃ g, g ∈ group :=
      ⟨taken, (takeSwap?_perm ht).2.mem_iff.mpr List.mem_cons_self⟩
    rw [List.append_assoc, Ordered, List.pairwise_append, List.pairwise_append] at ho
    obtain ⟨-, ⟨-, -, hAfter⟩, hBefore⟩ := ho
    have hSmaller : ∀ e ∈ before, way (hashCode e.1) digits < way (hashCode key) digits := by
      intro e he
      have hle := hBefore e he g (List.mem_append_left _ hgm)
      rw [hg g hgm] at hle
      exact Std.lt_of_le_of_ne hle fun hw => hh e (List.mem_append_left _ he) (way_digits_inj hw)
    have hGreater : ∀ e ∈ after, way (hashCode key) digits < way (hashCode e.1) digits := by
      intro e he
      have hle := hAfter g hgm e he
      rw [hg g hgm] at hle
      exact Std.lt_of_le_of_ne hle fun hw =>
        hh e (List.mem_append_right _ he) (way_digits_inj hw).symm
    have hFirst : (before ++ group ++ after).filter (isBefore key) = before := by
      rw [List.append_assoc]
      refine filter_append_left (fun e he => isBefore_iff.mpr (hSmaller e he)) fun e he hlt => ?_
      rcases List.mem_append.mp he with hm | hm
      · rw [isBefore_iff, hg e hm] at hlt
        exact List.lt_irrefl _ hlt
      · exact List.lt_irrefl _ (List.lt_trans (isBefore_iff.mp hlt) (hGreater e hm))
    have hLast : (before ++ group ++ after).filter (isAfter key) = after := by
      refine filter_append_right (fun e he hlt => ?_) fun e he => isAfter_iff.mpr (hGreater e he)
      rcases List.mem_append.mp he with hm | hm
      · exact List.lt_irrefl _ (List.lt_trans (isAfter_iff.mp hlt) (hSmaller e hm))
      · rw [isAfter_iff, hg e hm] at hlt
        exact List.lt_irrefl _ hlt
    have hMiddle : (before ++ group ++ after).filter (fun e => hashCode e.1 == hashCode key) =
        group := by
      rw [List.append_assoc, List.filter_append, List.filter_eq_nil_iff.mpr, List.nil_append]
      · refine filter_append_left (fun e he => beq_iff_eq.mpr (hg e he)) fun e he hk => ?_
        exact hh e (List.mem_append_right _ he) (eq_of_beq hk)
      · intro e he hk
        exact hh e (List.mem_append_left _ he) (eq_of_beq hk)
    rw [takeOrdered?, hMiddle, ht, Option.map_some, hFirst, hLast]

theorem takeOrdered?_of_lacks (h : Lacks key es) : takeOrdered? key es = none := by
  rw [takeOrdered?, takeSwap?_of_lacks]
  · rfl
  · intro e he
    exact h e (List.mem_of_mem_filter he)

end Entries

end PersistentCollections.HashTrieMap
