import PersistentCollections.Proofs.Reduce
import PersistentCollections.Proofs.SortedMap.Order
import PersistentCollections.SortedMap.Basic

/-!
# Walks through a search tree

A stack of frames leads to a list of entries (`ahead`). To descend into a tree puts the entries of
the tree before those, in the direction of travel (`ahead_descend`), and a step of a walk takes off
the first of them (`Iter.next_spec`). So a walk through a whole tree gives the entries of the tree,
in order or backwards. The ends of the tree are the ends of that list, and with ascending keys a
search finds the entry in it that is equivalent to a key (`Tree.find?_eq_some_iff`).
-/

namespace PersistentCollections.SortedMap

variable {κ ν : Type}

/-! ## Stacks -/

/-- The entries of a tree in the direction of travel. -/
def Tree.along (ascending : Bool) (t : Tree κ ν) : List (κ × ν) :=
  if ascending then t.entries else t.entries.reverse

/-- The entries that a stack leads to. -/
def ahead (ascending : Bool) (stack : List (Frame κ ν)) : List (κ × ν) :=
  stack.flatMap fun frame => frame.entry :: frame.onward.along ascending

@[simp] theorem Tree.along_true (t : Tree κ ν) : t.along true = t.entries := rfl

@[simp] theorem Tree.along_false (t : Tree κ ν) : t.along false = t.entries.reverse := rfl

@[simp] theorem ahead_nil (ascending : Bool) : ahead ascending ([] : List (Frame κ ν)) = [] := rfl

@[simp] theorem ahead_cons (ascending : Bool) (frame : Frame κ ν) (stack : List (Frame κ ν)) :
    ahead ascending (frame :: stack) =
      frame.entry :: (frame.onward.along ascending ++ ahead ascending stack) := by
  simp [ahead]

theorem ahead_descend (ascending : Bool) (t : Tree κ ν) (stack : List (Frame κ ν)) :
    ahead ascending (descend ascending t stack) = t.along ascending ++ ahead ascending stack := by
  induction t generalizing stack with
  | nil => cases ascending <;> rfl
  | node c l x r ihl ihr =>
    unfold descend
    cases ascending with
    | true =>
      rw [if_pos rfl, ihl]
      simp [Tree.entries]
    | false =>
      rw [if_neg Bool.false_ne_true, ihr]
      simp [Tree.entries]

/-! ## Walks -/

/-- The entries that are left. -/
def Iter.rest (it : Iter κ ν) : List (κ × ν) := ahead it.ascending it.stack

/-- A step gives the first of the entries that are left. -/
theorem Iter.next_spec (it : Iter κ ν) :
    (it.next = none ∧ it.rest = []) ∨
      ∃ e it', it.next = some (e, it') ∧ it.rest = e :: it'.rest ∧
        it'.remaining = it.remaining.map (· - 1) := by
  unfold next
  cases hStack : it.stack with
  | nil =>
    refine Or.inl ⟨rfl, ?_⟩
    rw [rest, hStack, ahead_nil]
  | cons frame stack =>
    refine Or.inr ⟨_, _, rfl, ?_, rfl⟩
    rw [rest, hStack, ahead_cons, rest, ahead_descend]

theorem Iter.toList_collect (it : Iter κ ν) (es : Array (κ × ν)) :
    (it.collect es).toList = es.toList ++ it.rest := by
  fun_induction Iter.collect it es with
  | case1 it es hNext =>
    rcases it.next_spec with ⟨-, hRest⟩ | ⟨e, it', hSome, -⟩
    · rw [hRest, List.append_nil]
    · cases hNext.symm.trans hSome
  | case2 it es e it' hNext ih =>
    rcases it.next_spec with ⟨hNone, -⟩ | ⟨e', it'', hSome, hRest, -⟩
    · cases hNext.symm.trans hNone
    · cases hNext.symm.trans hSome
      rw [ih, hRest]
      simp

theorem Iter.toList_eq_rest (it : Iter κ ν) : it.toList = it.rest := it.toList_collect #[]

theorem Iter.rest_whole (root : Tree κ ν) (ascending : Bool) (size : Nat) :
    (Iter.whole root ascending size).rest = root.along ascending := by
  rw [rest, whole, ahead_descend]
  simp

/-- The list of a map is the list of the entries of its tree. -/
theorem toList_eq_entries (m : SortedMap κ ν) : m.toList = m.root.entries := by
  rw [toList, Iter.toList_eq_rest]
  exact Iter.rest_whole m.root true m.size

section

variable {m : Type → Type} [Monad m] {β : Type}

/-- A fold over a walk is the fold over the entries that are left. -/
theorem Iter.visit_eq (f : β → κ × ν → m (ForInStep β)) (it : Iter κ ν) (b : β) :
    it.visit f b = visitList f it.rest b := by
  refine eq_visitList Iter.next Iter.rest ?_ ?_ ?_ it b
  · intro it
    rcases it.next_spec with hEnd | ⟨e, it', hNext, hCons, -⟩
    · exact Or.inl hEnd
    · exact Or.inr ⟨e, it', hNext, hCons⟩
  · intro it hNone
    funext b
    unfold visit
    split
    · rfl
    · next e it' hSome => cases hNone.symm.trans hSome
  · intro it e it' hSome
    funext b
    unfold visit
    split
    · next hNone => cases hSome.symm.trans hNone
    · next e' it'' hSome' =>
      cases hSome.symm.trans hSome'
      rfl

end

/-! ## Ends and searches -/

namespace Tree

theorem first?_eq (t : Tree κ ν) : t.first? = t.entries.head? := by
  fun_induction first? t with
  | case1 => rfl
  | case2 c x r => rfl
  | case3 c l x r hl ih =>
    have hSome : l.entries.head?.isSome = true := by
      cases l with
      | nil => exact (hl rfl).elim
      | node => simp [entries]
    have hHead : (l.entries ++ x :: r.entries).head? = _ := List.head?_append
    rw [Option.or_of_isSome hSome, ← ih] at hHead
    exact hHead.symm

theorem last?_eq (t : Tree κ ν) : t.last? = t.entries.getLast? := by
  fun_induction last? t with
  | case1 => rfl
  | case2 c l x => simp [entries]
  | case3 c l x r hr ih =>
    have hSome : r.entries.getLast?.isSome = true := by
      cases r with
      | nil => exact (hr rfl).elim
      | node => simp [entries]
    have hLast : (l.entries ++ [x] ++ r.entries).getLast? = _ := List.getLast?_append
    rw [Option.or_of_isSome hSome, ← ih, List.append_assoc] at hLast
    exact hLast.symm

variable {cmp : κ → κ → Ordering} [Std.TransCmp cmp] {t : Tree κ ν} {key : κ} {e : κ × ν}

/-- With ascending keys a search finds the entry that is equivalent to a key. -/
theorem find?_eq_some_iff (hs : Ascending cmp t.entries) :
    t.find? cmp key = some e ↔ e ∈ t.entries ∧ cmp key e.1 = .eq := by
  induction t with
  | nil => simp [find?, entries]
  | node c l x r ihl ihr =>
    obtain ⟨hl, hr, hx⟩ := ascending_append_cons.mp hs
    have hMem : e ∈ l.entries ++ x :: r.entries ↔ e ∈ l.entries ∨ e = x ∨ e ∈ r.entries := by
      rw [List.mem_append, List.mem_cons]
    rw [find?, entries, hMem]
    cases hk : cmp key x.1 with
    | eq =>
      have hOthers := (hx.congr hk).not_equivalent e
      constructor
      · rintro ⟨⟩
        exact ⟨Or.inr (Or.inl rfl), hk⟩
      · rintro ⟨hm | rfl | hm, he⟩
        · exact (hOthers (List.mem_append_left _ hm) he).elim
        · rfl
        · exact (hOthers (List.mem_append_right _ hm) he).elim
    | lt =>
      have hNot := hx.not_equivalent_of_lt hk e
      rw [ihl hl]
      constructor
      · rintro ⟨hm, he⟩
        exact ⟨Or.inl hm, he⟩
      · rintro ⟨hm | hm, he⟩
        · exact ⟨hm, he⟩
        · exact (hNot (List.mem_cons.mpr hm) he).elim
    | gt =>
      have hNot := hx.not_equivalent_of_gt hk e
      rw [ihr hr]
      constructor
      · rintro ⟨hm, he⟩
        exact ⟨Or.inr (Or.inr hm), he⟩
      · rintro ⟨hm | hm | hm, he⟩
        · exact (hNot (by simp [hm]) he).elim
        · exact (hNot (by simp [hm]) he).elim
        · exact ⟨hm, he⟩

end Tree

end PersistentCollections.SortedMap
