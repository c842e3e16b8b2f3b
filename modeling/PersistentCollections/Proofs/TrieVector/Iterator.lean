import PersistentCollections.Proofs.Reduce
import PersistentCollections.Proofs.TrieVector.Layout
import PersistentCollections.TrieVector.Iterator

/-!
# What an iterator gives

`Iter.Gives it l` follows an iterator to its end: it gives the elements of `l` in order and then
nothing, and at each step it says how many are left. `Holds.range_gives` finds this for a range of
a vector, and `Holds.iter_gives` for all of it.

An iterator on its way has a rest of a leaf and a position from which it reads on. The invariant is
that the rest, and the elements of the range from that position on, are what is still to come.

A fold over a range reads it leaf by leaf with a loop of its own. It is the fold over the list of
the elements, stopped where that is stopped (`Holds.foldRange_eq`).
-/

namespace PersistentCollections.TrieVector

variable {α : Type} {v : TrieVector α} {l : List α}

/-- The iterator gives these elements, ends after them, and counts them right all the time. -/
inductive Iter.Gives : Iter α → List α → Prop
  | done {it : Iter α} (hRemaining : it.remaining = 0) (hNext : it.next = .ok none) :
    Iter.Gives it []
  | step {it it' : Iter α} {x : α} {l : List α} (hRemaining : it.remaining = l.length + 1)
    (hNext : it.next = .ok (some (x, it'))) (hRest : Iter.Gives it' l) : Iter.Gives it (x :: l)

theorem Iter.Gives.fold_eq {β : Type} {it : Iter α} (h : it.Gives l) (f : β → α → β) (b : β) :
    it.fold f b = .ok (l.foldl f b) := by
  induction h generalizing b with
  | done _ hNext =>
    unfold fold
    split
    · next e hError => cases hNext.symm.trans hError
    · rfl
    · next x it' hSome => cases hNext.symm.trans hSome
  | step _ hNext _ ih =>
    unfold fold
    split
    · next e hError => cases hNext.symm.trans hError
    · next hNone => cases hNext.symm.trans hNone
    · next y it'' hSome =>
      cases hNext.symm.trans hSome
      exact ih _

theorem Iter.Gives.toList_eq {it : Iter α} (h : it.Gives l) : it.toList = .ok l := by
  rw [toList, h.fold_eq, Result.bind_ok]
  simp

/-- What a leaf has of a range from a position on: the elements up to the end of the leaf, or of the
range if that comes first. -/
theorem span_block {leaf : Array α} {pos stop : Nat} (hPos : pos < stop) (hStop : stop ≤ l.length)
    (hBlock : leaf.toList = block width (pos / width) l) :
    span leaf pos stop = .ok (((l.take stop).drop pos).take (width - pos % width)) := by
  have hDiv := Nat.div_add_mod pos width
  have hMod := Nat.mod_lt pos (show 0 < width by decide)
  have hLength := length_block width (pos / width) l
  rw [← hBlock, Array.length_toList] at hLength
  rw [span, if_pos (by omega)]
  refine congrArg Except.ok (List.ext_getElem? fun j => ?_)
  rw [Array.toList_extract, hBlock, List.extract_eq_take_drop, List.getElem?_take,
    List.getElem?_take, List.getElem?_drop, getElem?_block, List.getElem?_drop, List.getElem?_take]
  by_cases hInLeaf : j < width - pos % width
  · have hIndex : width * (pos / width) + (pos % width + j) = pos + j := by omega
    rw [if_pos hInLeaf, if_pos (show pos % width + j < width by omega), hIndex]
    by_cases hInRange : pos + j < stop
    · rw [if_pos (by omega), if_pos hInRange]
    · rw [if_neg (by omega), if_neg hInRange]
  · rw [if_neg (by omega), if_neg hInLeaf]

/-- From a position of a range, a vector reads a leaf, and from it at least one element of the
range, in order. -/
theorem Holds.span_eq (h : Holds v l) {pos stop : Nat} (hPos : pos < stop)
    (hStop : stop ≤ l.length) :
    ∃ leaf x xs, v.leafFor pos = .ok leaf ∧ span leaf pos stop = .ok (x :: xs) ∧
      x :: (xs ++ (l.take stop).drop (pos + (xs.length + 1))) = (l.take stop).drop pos := by
  obtain ⟨leaf, hLeaf, hBlock⟩ := h.leafFor_eq (Nat.lt_of_lt_of_le hPos hStop)
  have hSpan := span_block hPos hStop hBlock
  obtain ⟨x, xs, hxs⟩ : ∃ x xs, ((l.take stop).drop pos).take (width - pos % width) = x :: xs := by
    have hMod := Nat.mod_lt pos (show 0 < width by decide)
    apply List.exists_cons_of_length_pos
    rw [List.length_take, List.length_drop, List.length_take]
    omega
  refine ⟨leaf, x, xs, hLeaf, hxs ▸ hSpan, ?_⟩
  have hPrefix : x :: xs <+: (l.take stop).drop pos := hxs ▸ List.take_prefix _ _
  rw [← List.cons_append, ← List.drop_drop]
  exact List.prefix_iff_eq_append.mp hPrefix

/-- An iterator on its way through a range of a vector. -/
theorem Holds.gives (h : Holds v l) {stop : Nat} (hStop : stop ≤ l.length) (rest : List α) :
    ∀ (chunk : List α) (pos : Nat), pos ≤ stop → chunk ++ (l.take stop).drop pos = rest →
      Iter.Gives ⟨v, chunk, pos, stop⟩ rest := by
  induction rest with
  | nil =>
    intro chunk pos hPos hRest
    obtain ⟨rfl, hDrop⟩ := List.append_eq_nil_iff.mp hRest
    have hEnd := congrArg List.length hDrop
    rw [List.length_drop, List.length_take, List.length_nil] at hEnd
    refine .done ?_ ?_
    · show 0 + (stop - pos) = 0
      omega
    · show (if stop ≤ pos then _ else _) = _
      rw [if_pos (by omega)]
  | cons y rest ih =>
    intro chunk pos hPos hRest
    have hRemaining : chunk.length + (stop - pos) = rest.length + 1 := by
      have hLength := congrArg List.length hRest
      rw [List.length_append, List.length_drop, List.length_take, List.length_cons] at hLength
      omega
    cases chunk with
    | cons x chunk =>
      obtain ⟨rfl, hTail⟩ := List.cons.inj hRest
      exact .step hRemaining rfl (ih chunk pos hPos hTail)
    | nil =>
      have hLess : pos < stop := by
        rw [List.length_nil] at hRemaining
        omega
      obtain ⟨leaf, x, xs, hLeaf, hSpan, hRead⟩ := h.span_eq hLess hStop
      rw [List.nil_append, ← hRead] at hRest
      obtain ⟨rfl, hTail⟩ := List.cons.inj hRest
      have hNext : (⟨v, [], pos, stop⟩ : Iter α).next =
          .ok (some (x, ⟨v, xs, pos + (xs.length + 1), stop⟩)) := by
        show (if stop ≤ pos then _ else _) = _
        rw [if_neg (Nat.not_le_of_lt hLess)]
        show (v.leafFor pos >>= fun leaf => span leaf pos stop >>= _) = _
        rw [hLeaf, Result.bind_ok, hSpan]
        rfl
      have hEnd : pos + (xs.length + 1) ≤ stop := by
        have hLength := Iter.length_span_le hSpan
        rw [List.length_cons] at hLength
        omega
      exact .step hRemaining hNext (ih xs _ hEnd hTail)

/-- The iterator over a range gives the elements of the range. -/
theorem Holds.range_gives (h : Holds v l) {start stop : Nat} (hStart : start ≤ stop)
    (hStop : stop ≤ l.length) : (Iter.range v start stop).Gives ((l.take stop).drop start) :=
  h.gives hStop _ [] start hStart (List.nil_append _)

theorem Holds.iter_gives (h : Holds v l) : v.iter.Gives l := by
  have hGives := h.range_gives (Nat.zero_le _) (Nat.le_refl l.length)
  rwa [List.take_length, List.drop_zero, ← h.size_eq] at hGives

theorem Holds.toList_eq (h : Holds v l) : v.toList = .ok l := h.iter_gives.toList_eq

/-! ## Folds over a range -/

section Fold

variable {m : Type → Type} [Monad m] [LawfulMonad m] {β : Type}

/-- A fold over a range of a vector, leaf by leaf, is that over the list of its elements. -/
theorem Holds.foldRange_eq (h : Holds v l) {pos stop : Nat} (hStop : stop ≤ l.length)
    (f : β → α → m (ForInStep β)) (b : β) :
    v.foldRange f pos stop b =
      ExceptT.lift (finalValue <$> visitList f ((l.take stop).drop pos) b) := by
  induction hLeft : stop - pos using Nat.strongRecOn generalizing pos b with
  | ind left ih =>
    rw [foldRange]
    split
    · next hPos =>
      obtain ⟨leaf, x, xs, hLeaf, hSpan, hRead⟩ := h.span_eq hPos hStop
      rw [hLeaf, liftResult_bind, hSpan, liftResult_bind, ← hRead, ← List.cons_append,
        visitList_append, finalValue_proceed, ExceptT.lift_bind]
      apply bind_congr
      intro outcome
      cases outcome with
      | done b => exact (ExceptT.lift_pure b).symm
      | yield b => exact ih _ (by omega) b rfl
    · next hEnd =>
      have hNil : (l.take stop).drop pos = [] := by
        rw [List.drop_eq_nil_iff, List.length_take]
        omega
      rw [hNil, visitList, map_pure]
      exact (ExceptT.lift_pure b).symm

end Fold

end PersistentCollections.TrieVector
