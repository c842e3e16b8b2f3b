import PersistentCollections.Proofs.Versions
import PersistentCollections.TrieVector.Cursor

/-!
# What cursors over vectors show

A cursor over a vector or a window stands at an index of the vector, or of the backing vector, and
keeps the leaf of that index (`Position`). A step within a leaf keeps the leaf, and a step or a
chunk that ends a leaf reads the one that comes next, so the leaf is always that of the index.

Whichever step was made, a cursor has come to some index, or there is none because the range ends
before it (`Cursor.Arrives`). What it shows are the elements of the backing vector from there to the
end of the range, never one behind it: one by one, leaf by leaf, and in a fold. Backward cursors are
treated in the same way (`BackCursor.Arrives`).
-/

namespace PersistentCollections.TrieVector

variable {α : Type} {v : TrieVector α} {b l : List α} {start stop index : Nat}

/-! ## Positions -/

/-- An index in a range of a vector that has the elements of `b`, and the leaf of that index. -/
structure Position (v : TrieVector α) (leaf : Array α) (index : Nat) (b : List α)
    (start stop : Nat) : Prop where
  holds : Holds v b
  within : stop ≤ b.length
  inside : start ≤ index ∧ index < stop
  leafFor_eq : v.leafFor index = .ok leaf

theorem Holds.position (h : Holds v b) (hWithin : stop ≤ b.length)
    (hInside : start ≤ index ∧ index < stop) :
    ∃ leaf, v.leafFor index = .ok leaf ∧ Position v leaf index b start stop := by
  obtain ⟨leaf, hLeaf, -⟩ := h.leafFor_eq (Nat.lt_of_lt_of_le hInside.2 hWithin)
  exact ⟨leaf, hLeaf, h, hWithin, hInside, hLeaf⟩

namespace Position

variable {leaf : Array α} (h : Position v leaf index b start stop)

include h

theorem lt_length : index < b.length := Nat.lt_of_lt_of_le h.inside.2 h.within

theorem toList_leaf : leaf.toList = block width (index / width) b := by
  obtain ⟨leaf', hLeaf, hBlock⟩ := h.holds.leafFor_eq h.lt_length
  cases h.leafFor_eq.symm.trans hLeaf
  exact hBlock

theorem itemOf_eq : itemOf leaf index = .ok (b.get ⟨index, h.lt_length⟩) := by
  have hItem := h.holds.item_eq h.lt_length
  rwa [item, h.leafFor_eq, Result.bind_ok] at hItem

/-- Indices of one leaf have one leaf. -/
theorem move {index' : Nat} (hInside : start ≤ index' ∧ index' < stop)
    (hSame : index' / width = index / width) : Position v leaf index' b start stop := by
  refine ⟨h.holds, h.within, hInside, ?_⟩
  obtain ⟨leaf', hLeaf, hBlock⟩ :=
    h.holds.leafFor_eq (Nat.lt_of_lt_of_le hInside.2 h.within)
  rw [hSame, ← h.toList_leaf] at hBlock
  rw [hLeaf, Array.ext' hBlock]

/-- The elements from an index on begin with that of the index. -/
theorem extract_eq :
    b.extract index stop = b.get ⟨index, h.lt_length⟩ :: b.extract (index + 1) stop := by
  have hTake : index < (b.take stop).length := by
    rw [List.length_take]
    exact Nat.lt_min.mpr ⟨h.inside.2, h.lt_length⟩
  rw [List.extract_eq_drop_take', List.extract_eq_drop_take', List.drop_eq_getElem_cons hTake,
    List.getElem_take, List.get_eq_getElem]

end Position

theorem drop_extract (b : List α) (start stop n : Nat) :
    (b.extract start stop).drop n = b.extract (start + n) stop := by
  rw [List.extract_eq_drop_take', List.extract_eq_drop_take', List.drop_drop]

theorem extract_of_le (b : List α) (h : stop ≤ start) : b.extract start stop = [] := by
  rw [List.extract_eq_drop_take', List.drop_eq_nil_iff, List.length_take]
  exact Nat.le_trans (Nat.min_le_left _ _) h

/-! ## Walks -/

/-- The cursor stands on the first of these elements, tells how many are left, and moves along the
others without failing; no cursor is left after the last. -/
inductive WalksSafely {σ : Type} (first : σ → Result α) (count : σ → Nat)
    (next : σ → Result (Option σ)) : Option σ → List α → Prop
  | done : WalksSafely first count next none []
  | step {c : σ} {o : Option σ} {x : α} {l : List α} (hFirst : first c = .ok x)
    (hCount : count c = l.length + 1) (hNext : next c = .ok o)
    (hRest : WalksSafely first count next o l) : WalksSafely first count next (some c) (x :: l)

theorem WalksSafely.eq_none_iff {σ : Type} {first : σ → Result α} {count : σ → Nat}
    {next : σ → Result (Option σ)} {o : Option σ} (h : WalksSafely first count next o l) :
    o = none ↔ l = [] := by
  cases h with
  | done => exact iff_of_true rfl rfl
  | step => exact iff_of_false (Option.some_ne_none _) (List.cons_ne_nil _ _)

theorem WalksSafely.unique {σ : Type} {first : σ → Result α} {count : σ → Nat}
    {next : σ → Result (Option σ)} {o : Option σ} {l' : List α}
    (h : WalksSafely first count next o l) (h' : WalksSafely first count next o l') : l = l' := by
  induction h generalizing l' with
  | done => exact (h'.eq_none_iff.mp rfl).symm
  | step hFirst _ hNext _ ih =>
    cases h' with
    | step hFirst' _ hNext' hRest' =>
      cases hFirst.symm.trans hFirst'
      cases hNext.symm.trans hNext'
      rw [ih hRest']

namespace Cursor

variable {c : Cursor α} {o : Option (Cursor α)}

def Walks (o : Option (Cursor α)) (l : List α) : Prop := WalksSafely first count next o l

/-- A cursor at some index of a range of a vector that has the elements of `b`. -/
def Stands (c : Cursor α) (b : List α) (start stop : Nat) : Prop :=
  Position c.vector c.leaf c.index b start stop ∧ c.stop = stop

/-- At an index of the range there is a cursor, and behind the range there is none. -/
def Arrives (b : List α) (start stop index : Nat) (o : Option (Cursor α)) : Prop :=
  (stop ≤ index ∧ o = none) ∨ ∃ c, o = some c ∧ c.Stands b start stop ∧ c.index = index

theorem arrives_standAt (h : Holds v b) (hWithin : stop ≤ b.length)
    (hInside : start ≤ index ∧ index < stop) :
    ∃ o, some <$> standAt v index stop = .ok o ∧ Arrives b start stop index o := by
  obtain ⟨leaf, hLeaf, hPosition⟩ := h.position hWithin hInside
  refine ⟨some ⟨v, leaf, index, stop⟩, ?_, .inr ⟨_, rfl, ⟨hPosition, rfl⟩, rfl⟩⟩
  rw [standAt, hLeaf]
  rfl

namespace Stands

variable (h : c.Stands b start stop)

include h

/-- A step comes to the next index. -/
theorem next : ∃ o, c.next = .ok o ∧ Arrives b start stop (c.index + 1) o := by
  obtain ⟨hPosition, rfl⟩ := h
  have hInside := hPosition.inside
  unfold Cursor.next
  by_cases hEnd : c.stop ≤ c.index + 1
  · rw [if_pos hEnd]
    exact ⟨none, rfl, .inl ⟨hEnd, rfl⟩⟩
  · rw [if_neg hEnd]
    by_cases hLeaf : (c.index + 1) % width = 0
    · rw [if_pos hLeaf]
      exact arrives_standAt hPosition.holds hPosition.within (by omega)
    · have hSame : (c.index + 1) / width = c.index / width := by
        simp only [width] at *
        omega
      have hNext : start ≤ c.index + 1 ∧ c.index + 1 < c.stop := by omega
      rw [if_neg hLeaf]
      exact ⟨_, rfl, .inr ⟨_, rfl, ⟨hPosition.move hNext hSame, rfl⟩, rfl⟩⟩

theorem chunkFirst_eq :
    c.chunkFirst = .ok ((b.extract c.index stop).take (width - c.index % width)) := by
  obtain ⟨hPosition, rfl⟩ := h
  rw [chunkFirst, List.extract_eq_drop_take',
    span_block hPosition.inside.2 hPosition.within hPosition.toList_leaf]

theorem length_extract_eq : (b.extract c.index stop).length = stop - c.index :=
  length_extract _ h.1.within

theorem length_chunk : ((b.extract c.index stop).take (width - c.index % width)).length =
    min (width - c.index % width) (stop - c.index) := by
  rw [List.length_take, h.length_extract_eq]

/-- A step over a chunk comes to the index after it. -/
theorem chunkNext : ∃ o, c.chunkNext = .ok o ∧
    Arrives b start stop (c.index + min (width - c.index % width) (stop - c.index)) o := by
  have hChunk := h.chunkFirst_eq
  have hCount := h.length_chunk
  obtain ⟨hPosition, rfl⟩ := h
  have hInside := hPosition.inside
  have hMod := Nat.mod_lt c.index (show 0 < width by decide)
  unfold Cursor.chunkNext
  rw [hChunk, Result.bind_ok, hCount]
  by_cases hEnd : c.stop ≤ c.index + min (width - c.index % width) (c.stop - c.index)
  · rw [if_pos hEnd]
    exact ⟨none, rfl, .inl ⟨hEnd, rfl⟩⟩
  · rw [if_neg hEnd]
    exact arrives_standAt hPosition.holds hPosition.within (by omega)

end Stands

theorem Arrives.walks (h : Arrives b start stop index o) : Walks o (b.extract index stop) := by
  induction hLeft : stop - index using Nat.strongRecOn generalizing index o with
  | ind left ih =>
    rcases h with ⟨hEnd, rfl⟩ | ⟨c, rfl, hStands, rfl⟩
    · rw [extract_of_le b hEnd]
      exact .done
    · have hInside := hStands.1.inside
      have hCount := hStands.length_extract_eq
      obtain ⟨o, hNext, hArrives⟩ := hStands.next
      rw [hStands.1.extract_eq] at hCount ⊢
      refine .step hStands.1.itemOf_eq ?_ hNext (ih _ (by omega) hArrives rfl)
      rw [count, hStands.2, ← hCount, List.length_cons]

/-! ### Chunks -/

/-- The chunks of a cursor, one after the other. -/
inductive Chunks : Option (Cursor α) → List (List α) → Prop
  | done : Chunks none []
  | step {c : Cursor α} {o : Option (Cursor α)} {chunk : List α} {chunks : List (List α)}
    (hFirst : c.chunkFirst = .ok chunk) (hNext : c.chunkNext = .ok o) (hRest : Chunks o chunks) :
    Chunks (some c) (chunk :: chunks)

/-- The chunks are those of the elements to the end of the range, and so are their lengths. -/
theorem Stands.chunks (h : c.Stands b start stop) :
    ∃ chunks, Chunks (some c) chunks ∧ chunks.flatten = b.extract c.index stop ∧
      c.chunkLengths = .ok (chunks.map List.length) := by
  induction hLeft : stop - c.index using Nat.strongRecOn generalizing c with
  | ind left ih =>
    obtain ⟨o, hNext, hArrives⟩ := h.chunkNext
    have hChunk := h.chunkFirst_eq
    have hLength := h.length_extract_eq
    have hCount := h.length_chunk
    have hInside := h.1.inside
    have hMod := Nat.mod_lt c.index (show 0 < width by decide)
    rw [chunkLengths, hChunk, Result.bind_ok, hCount, h.2]
    rcases hArrives with ⟨hEnd, rfl⟩ | ⟨c', rfl, hStands, hIndex⟩
    · rw [if_pos hEnd]
      refine ⟨_, .step hChunk hNext .done, ?_, ?_⟩
      · rw [List.flatten_singleton, List.take_of_length_le (by omega)]
      · rw [List.map_singleton, hCount]
        rfl
    · have hMore := hStands.1.inside
      rw [hIndex] at hMore
      obtain ⟨chunks, hChunks, hFlatten, hLengths⟩ := ih _ (by omega) hStands rfl
      refine ⟨_, .step hChunk hNext hChunks, ?_, ?_⟩
      · rw [List.flatten_cons, hFlatten, hIndex, ← hCount, ← drop_extract]
        exact List.prefix_iff_eq_append.mp (List.take_prefix _ _)
      · unfold Cursor.chunkNext at hNext
        rw [hChunk, Result.bind_ok, hCount, h.2, if_neg (by omega)] at hNext
        obtain ⟨c'', hAt, hSame⟩ := Result.bind_eq_ok.mp hNext
        rw [if_neg (by omega), if_neg (by omega), hAt, Result.bind_ok]
        cases hSame
        rw [List.map_cons, hCount, ← hIndex, ← hStands.2]
        show (c'.chunkLengths >>= _) = _
        rw [hLengths]
        rfl

/-! ### All that a cursor shows -/

/-- A step over an element or over a chunk. -/
def Moves (c c' : Cursor α) : Prop := c.next = .ok (some c') ∨ c.chunkNext = .ok (some c')

/-- Any mix of steps. -/
def Leads : Cursor α → Cursor α → Prop := Relation.ReflTransGen Moves

/-- What is asked of a cursor is answered from the elements from it to the end of its range, which
is the place `stop` of a vector with the elements of `b`. -/
structure Shows (c : Cursor α) (b : List α) (stop : Nat) (r : List α) : Prop where
  index : b.extract c.index stop = r ∧ c.index + r.length = stop
  first : ∃ x, r.head? = some x ∧ c.first = .ok x
  count : c.count = r.length
  walks : Walks (some c) r
  reduceM : ∀ {m : Type → Type} [Monad m] [LawfulMonad m] {β : Type}
    (f : β → α → m (ForInStep β)) (b : β),
    c.reduceM f b = ExceptT.lift (finalValue <$> visitList f r b)
  /-- The first chunk ends where the next leaf begins or the range ends. -/
  chunk : ∃ chunk o, c.chunkFirst = .ok chunk ∧ chunk ≠ [] ∧ chunk <+: r ∧ chunk.length ≤ width ∧
    c.index + chunk.length = min (width * (c.index / width + 1)) stop ∧
    c.chunkNext = .ok o ∧ (o = none ↔ r.drop chunk.length = []) ∧ Walks o (r.drop chunk.length) ∧
    ∀ c', o = some c' → c'.index = c.index + chunk.length
  chunks : ∃ chunks, Chunks (some c) chunks ∧ chunks.flatten = r ∧
    c.chunkLengths = .ok (chunks.map List.length)
  leaf : c.vector.leafFor c.index = .ok c.leaf ∧ c.leaf.toList = block width (c.index / width) b

theorem Arrives.stands {c : Cursor α} (h : Arrives b start stop index (some c)) :
    c.Stands b start stop ∧ c.index = index := by
  rcases h with ⟨-, hNone⟩ | ⟨c', hSame, hStands, hIndex⟩
  · cases hNone
  · cases hSame
    exact ⟨hStands, hIndex⟩

theorem Arrives.eq_none_iff (h : Arrives b start stop index o) : o = none ↔ stop ≤ index := by
  rcases h with ⟨hEnd, rfl⟩ | ⟨c, rfl, hStands, rfl⟩
  · exact iff_of_true rfl hEnd
  · exact iff_of_false (Option.some_ne_none c) (Nat.not_le_of_lt hStands.1.inside.2)

theorem Stands.moves {c' : Cursor α} (h : c.Stands b start stop) (hMoves : c.Moves c') :
    c'.Stands b start stop := by
  rcases hMoves with hNext | hNext
  · obtain ⟨o, hSame, hArrives⟩ := h.next
    cases hNext.symm.trans hSame
    exact hArrives.stands.1
  · obtain ⟨o, hSame, hArrives⟩ := h.chunkNext
    cases hNext.symm.trans hSame
    exact hArrives.stands.1

theorem Stands.leads {c' : Cursor α} (h : c.Stands b start stop) (hLeads : c.Leads c') :
    c'.Stands b start stop := by
  induction hLeads with
  | refl => exact h
  | tail _ hMoves ih => exact ih.moves hMoves

theorem Stands.chunk (h : c.Stands b start stop) : ∃ chunk o, c.chunkFirst = .ok chunk ∧
    chunk ≠ [] ∧ chunk <+: b.extract c.index stop ∧ chunk.length ≤ width ∧
    c.index + chunk.length = min (width * (c.index / width + 1)) stop ∧ c.chunkNext = .ok o ∧
    Arrives b start stop (c.index + chunk.length) o := by
  obtain ⟨o, hNext, hArrives⟩ := h.chunkNext
  have hInside := h.1.inside
  have hMod := Nat.mod_lt c.index (show 0 < width by decide)
  have hDiv := Nat.div_add_mod c.index width
  have hCount := h.length_chunk
  rw [← hCount] at hArrives
  refine ⟨_, o, h.chunkFirst_eq, ?_, List.take_prefix _ _, ?_, ?_, hNext, hArrives⟩
  · apply List.ne_nil_of_length_pos
    omega
  · omega
  · rw [hCount, Nat.mul_succ]
    omega

theorem Stands.shows (h : c.Stands b start stop) : c.Shows b stop (b.extract c.index stop) where
  index := by
    have hInside := h.1.inside
    rw [h.length_extract_eq]
    exact ⟨rfl, by omega⟩
  first := by
    rw [h.1.extract_eq]
    exact ⟨_, rfl, h.1.itemOf_eq⟩
  count := by rw [h.length_extract_eq, count, h.2]
  walks := Arrives.walks (.inr ⟨c, rfl, h, rfl⟩)
  reduceM f b := by
    rw [reduceM, h.2, h.1.holds.foldRange_eq h.1.within, List.extract_eq_drop_take']
  chunk := by
    obtain ⟨chunk, o, hFirst, hNonempty, hPrefix, hLength, hEnd, hNext, hArrives⟩ := h.chunk
    have hWalks := hArrives.walks
    refine ⟨chunk, o, hFirst, hNonempty, hPrefix, hLength, hEnd, hNext, ?_, ?_, ?_⟩
    · rw [hArrives.eq_none_iff, List.drop_eq_nil_iff, h.length_extract_eq]
      omega
    · rwa [drop_extract]
    · rintro c' rfl
      exact hArrives.stands.2
  chunks := h.chunks
  leaf := ⟨h.1.leafFor_eq, h.1.toList_leaf⟩

end Cursor

/-! ## Backward -/

namespace BackCursor

variable {c : BackCursor α} {o : Option (BackCursor α)}

def Walks (o : Option (BackCursor α)) (l : List α) : Prop := WalksSafely first count next o l

/-- A cursor at some index of a range of a vector that has the elements of `b`. -/
def Stands (c : BackCursor α) (b : List α) (start stop : Nat) : Prop :=
  Position c.vector c.leaf c.index b start stop ∧ c.start = start

/-- Below a place of the range there is a cursor, and below its first place there is none. -/
def Arrives (b : List α) (start stop place : Nat) (o : Option (BackCursor α)) : Prop :=
  (place ≤ start ∧ o = none) ∨ ∃ c, o = some c ∧ c.Stands b start stop ∧ c.index + 1 = place

theorem arrives_standAt (h : Holds v b) (hWithin : stop ≤ b.length)
    (hInside : start ≤ index ∧ index < stop) :
    ∃ o, some <$> standAt v start index = .ok o ∧ Arrives b start stop (index + 1) o := by
  obtain ⟨leaf, hLeaf, hPosition⟩ := h.position hWithin hInside
  refine ⟨some ⟨v, leaf, index, start⟩, ?_, .inr ⟨_, rfl, ⟨hPosition, rfl⟩, rfl⟩⟩
  rw [standAt, hLeaf]
  rfl

theorem Arrives.stands {place : Nat} (h : Arrives b start stop place (some c)) :
    c.Stands b start stop ∧ c.index + 1 = place := by
  rcases h with ⟨-, hNone⟩ | ⟨c', hSame, hStands, hIndex⟩
  · cases hNone
  · cases hSame
    exact ⟨hStands, hIndex⟩

/-- A step comes to the index before. -/
theorem Stands.next (h : c.Stands b start stop) :
    ∃ o, c.next = .ok o ∧ Arrives b start stop c.index o := by
  obtain ⟨hPosition, rfl⟩ := h
  have hInside := hPosition.inside
  unfold BackCursor.next
  by_cases hFirst : c.index ≤ c.start
  · rw [if_pos hFirst]
    exact ⟨none, rfl, .inl ⟨hFirst, rfl⟩⟩
  · rw [if_neg hFirst]
    obtain ⟨before, hBefore⟩ : ∃ before, c.index = before + 1 := ⟨c.index - 1, by omega⟩
    have hNext : c.start ≤ before ∧ before < stop := by omega
    rw [hBefore, Nat.add_sub_cancel]
    by_cases hLeaf : (before + 1) % width = 0
    · rw [if_pos hLeaf]
      exact arrives_standAt hPosition.holds hPosition.within hNext
    · have hSame : before / width = c.index / width := by
        simp only [width] at *
        omega
      rw [if_neg hLeaf]
      exact ⟨_, rfl, .inr ⟨_, rfl, ⟨hPosition.move hNext hSame, rfl⟩, rfl⟩⟩

theorem Arrives.walks {place : Nat} (h : Arrives b start stop place o) :
    Walks o (b.extract start place).reverse := by
  induction place generalizing o with
  | zero =>
    rcases h with ⟨hEnd, rfl⟩ | ⟨c, rfl, -, hPlace⟩
    · rw [extract_of_le b hEnd]
      exact .done
    · cases hPlace
  | succ place ih =>
    rcases h with ⟨hEnd, rfl⟩ | ⟨c, rfl, hStands, hPlace⟩
    · rw [extract_of_le b hEnd]
      exact .done
    · cases hPlace
      have hInside := hStands.1.inside
      have hLess := hStands.1.lt_length
      obtain ⟨o, hNext, hArrives⟩ := hStands.next
      rw [extract_succ hInside.1 (Nat.le_of_lt hLess) (List.take_append_getElem hLess).symm,
        List.reverse_concat]
      refine .step hStands.1.itemOf_eq ?_ hNext (ih hArrives)
      rw [count, hStands.2, List.length_reverse, length_extract _ (Nat.le_of_lt hLess)]

/-- Any number of steps. -/
def Leads : BackCursor α → BackCursor α → Prop :=
  Relation.ReflTransGen fun c c' => c.next = .ok (some c')

theorem Stands.leads {c' : BackCursor α} (h : c.Stands b start stop) (hLeads : c.Leads c') :
    c'.Stands b start stop := by
  induction hLeads with
  | refl => exact h
  | tail _ hNext ih =>
    obtain ⟨o, hSame, hArrives⟩ := ih.next
    cases hNext.symm.trans hSame
    exact hArrives.stands.1

end BackCursor

/-! ## All cursors over a range -/

/-- The cursors over a range of a vector with the elements of `b`. The forward one walks along the
elements of the range, and each cursor that it leads to shows those that are left. The backward one
walks along them from the last to the first. The leaf of a cursor is always that of its index. -/
structure Cursors (b : List α) (start stop : Nat) (cursor : Result (Option (Cursor α)))
    (backCursor : Result (Option (BackCursor α))) : Prop where
  cursor : ∃ o, cursor = .ok o ∧ Cursor.Walks o (b.extract start stop) ∧
    ∀ c, o = some c → c.index = start ∧ ∀ c', c.Leads c' → start ≤ c'.index ∧
      c'.Shows b stop ((b.extract start stop).drop (c'.index - start))
  backCursor : ∃ o, backCursor = .ok o ∧ BackCursor.Walks o (b.extract start stop).reverse ∧
    ∀ c, o = some c → c.index + 1 = stop ∧ ∀ c', c.Leads c' → start ≤ c'.index ∧
      BackCursor.Walks (some c') (b.extract start (c'.index + 1)).reverse ∧
      c'.vector.leafFor c'.index = .ok c'.leaf ∧
      c'.leaf.toList = block width (c'.index / width) b

theorem Cursor.Arrives.cursors {o : Option (Cursor α)} {o' : Option (BackCursor α)}
    (h : Cursor.Arrives b start stop start o) (h' : BackCursor.Arrives b start stop stop o') :
    Cursors b start stop (.ok o) (.ok o') where
  cursor := by
    refine ⟨o, rfl, h.walks, ?_⟩
    rintro c rfl
    refine ⟨h.stands.2, ?_⟩
    intro c' hLeads
    have hStands := h.stands.1.leads hLeads
    have hShows := hStands.shows
    have hInside := hStands.1.inside
    rw [drop_extract, Nat.add_sub_cancel' hInside.1]
    exact ⟨hInside.1, hShows⟩
  backCursor := by
    refine ⟨o', rfl, h'.walks, ?_⟩
    rintro c rfl
    refine ⟨h'.stands.2, ?_⟩
    intro c' hLeads
    have hStands := h'.stands.1.leads hLeads
    exact ⟨hStands.1.inside.1, BackCursor.Arrives.walks (.inr ⟨c', rfl, hStands, rfl⟩),
      hStands.1.leafFor_eq, hStands.1.toList_leaf⟩

/-- If a range goes on behind the leaf that it begins in, there is a cursor at the next leaf. -/
theorem Cursors.exists_at_next_leaf {cursor : Result (Option (Cursor α))}
    {backCursor : Result (Option (BackCursor α))} (h : Cursors b start stop cursor backCursor)
    (hMore : width * (start / width + 1) < stop) (hStop : stop ≤ b.length) :
    ∃ c c', cursor = .ok (some c) ∧ c.chunkNext = .ok (some c') ∧
      c'.index = width * (start / width + 1) ∧ c'.Shows b stop (b.extract c'.index stop) := by
  obtain ⟨o, hCursor, hWalks, hCursors⟩ := h.cursor
  have hDiv := Nat.div_add_mod start width
  have hMod := Nat.mod_lt start (show 0 < width by decide)
  rw [Nat.mul_succ] at hMore ⊢
  have hLength := length_extract start hStop
  cases o with
  | none =>
    rw [hWalks.eq_none_iff.mp rfl, List.length_nil] at hLength
    omega
  | some c =>
    obtain ⟨rfl, hLeads⟩ := hCursors c rfl
    obtain ⟨chunk, o, -, -, -, -, hEnd, hNext, hNone, -, hPlace⟩ := (hLeads c .refl).2.chunk
    rw [Nat.mul_succ, Nat.min_eq_left (Nat.le_of_lt hMore)] at hEnd
    cases o with
    | none =>
      have hNil := hNone.mp rfl
      rw [Nat.sub_self, List.drop_zero, List.drop_eq_nil_iff] at hNil
      omega
    | some c' =>
      have hShows := (hLeads c' (.single (.inr hNext))).2
      rw [← hShows.index.1] at hShows
      exact ⟨c, c', hCursor, hNext, (hPlace c' rfl).trans hEnd, hShows⟩

/-- No cursor stands in an empty range. -/
theorem cursors_empty (hEmpty : stop ≤ start) : Cursors b start stop (.ok none) (.ok none) :=
  Cursor.Arrives.cursors (.inl ⟨hEmpty, rfl⟩) (.inl ⟨hEmpty, rfl⟩)

theorem Holds.cursors_of_lt (h : Holds v b) (hLess : start < stop) (hWithin : stop ≤ b.length) :
    Cursors b start stop (some <$> Cursor.standAt v start stop)
      (some <$> BackCursor.standAt v start (stop - 1)) := by
  have hFirst : start ≤ start ∧ start < stop := ⟨Nat.le_refl start, hLess⟩
  have hLast : start ≤ stop - 1 ∧ stop - 1 < stop := by omega
  obtain ⟨o, hCursor, hArrives⟩ := Cursor.arrives_standAt h hWithin hFirst
  obtain ⟨o', hBackCursor, hArrives'⟩ := BackCursor.arrives_standAt h hWithin hLast
  rw [Nat.sub_add_cancel (Nat.zero_lt_of_lt hLess)] at hArrives'
  rw [hCursor, hBackCursor]
  exact hArrives.cursors hArrives'

theorem Holds.cursors (h : Holds v l) : Cursors l 0 l.length v.cursor v.backCursor := by
  rw [cursor, backCursor, h.size_eq]
  by_cases hEmpty : l.length = 0
  · rw [if_pos hEmpty, if_pos hEmpty]
    exact cursors_empty (Nat.le_of_eq hEmpty)
  · rw [if_neg hEmpty, if_neg hEmpty]
    exact h.cursors_of_lt (Nat.pos_of_ne_zero hEmpty) (Nat.le_refl l.length)

theorem Window.Denotes.cursors {w : Window α} (h : w.Denotes l) :
    ∃ b, w.backing.toList = .ok b ∧ b.extract w.start w.stop = l ∧
      Cursors b w.start w.stop w.cursor w.backCursor := by
  obtain ⟨hStart, b, hHolds, hStop, hList⟩ := h
  refine ⟨b, hHolds.toList_eq, hList, ?_⟩
  rw [Window.cursor, Window.backCursor, isEmpty]
  by_cases hEmpty : w.start = w.stop
  · rw [if_pos (beq_iff_eq.mpr hEmpty), if_pos (beq_iff_eq.mpr hEmpty)]
    exact cursors_empty (Nat.le_of_eq hEmpty.symm)
  · rw [if_neg (beq_iff_eq.not.mpr hEmpty), if_neg (beq_iff_eq.not.mpr hEmpty)]
    exact hHolds.cursors_of_lt (Nat.lt_of_le_of_ne hStart hEmpty) hStop

/-- Every vector that arises has the cursors of its list, and every window those of the part of its
backing vector that it is a view of. -/
theorem cursors_of_arises (κ ν : Type) [BEq κ] [HashCode κ] [HashCode ν] :
    (∀ v : TrieVector κ, Arises (.vector (s := .frozen) v : Version κ ν) →
      ∃ l, v.toList = .ok l ∧ Cursors l 0 l.length v.cursor v.backCursor) ∧
    ∀ w : Window κ, Arises (.window w : Version κ ν) →
      ∃ b l, w.backing.toList = .ok b ∧ w.toList = .ok l ∧ b.extract w.start w.stop = l ∧
        Cursors b w.start w.stop w.cursor w.backCursor := by
  constructor
  · intro v h
    obtain ⟨⟨l, hHolds⟩, -⟩ := h.sequential
    have hHolds : Holds v l := hHolds
    exact ⟨l, hHolds.toList_eq, hHolds.cursors⟩
  · intro w h
    obtain ⟨⟨l, hDenotes⟩, -⟩ := h.sequential
    obtain ⟨b, hBacking, hList, hCursors⟩ := hDenotes.cursors
    exact ⟨b, l, hBacking, hDenotes.toList_eq, hList, hCursors⟩

/-- The first seventy numbers. -/
def seventy : List Int64 := (List.range 70).map fun n => n.toInt64

/-- A window that begins and ends inside of a leaf and of which the last element was removed: that
element stays in the backing vector, and the second chunk ends before it. -/
theorem cursors_of_arises_removedElement : ∃ (v : TrieVector Int64) (w : Window Int64),
    Arises (.vector (s := .frozen) v : Version Int64 Int64) ∧
    Arises (.window w : Version Int64 Int64) ∧ w.backing = v ∧ w.start = 5 ∧ w.stop = 40 ∧
    Cursors seventy 0 70 v.cursor v.backCursor ∧ Cursors seventy 5 40 w.cursor w.backCursor ∧
    ∃ c c', w.cursor = .ok (some c) ∧ c.chunkNext = .ok (some c') ∧ c'.index = 32 ∧
      c'.chunkFirst = .ok (seventy.extract 32 40) := by
  have hLength : seventy.length = 70 := rfl
  obtain ⟨v, hArises, hHolds⟩ := exists_vector Int64 seventy
  have hVector := hArises
  obtain ⟨store, hReached, hv⟩ := hArises
  have hWide : v.window 5 41 = .ok ⟨v, 5, 41, none⟩ := by
    rw [TrieVector.window, if_pos ⟨by decide, by rw [hHolds.size_eq, hLength]; decide⟩]
  obtain ⟨store', hReached', hWindow⟩ := (Makes.window 5 41 hv hWide).arises hReached
  have hPop : Yields (Window.Call.pop.run ⟨v, 5, 41, none⟩) [] (none, ⟨v, 5, 40, none⟩) :=
    (yields_lift rfl).attempt _
  have hw := (Makes.windowCall .pop hWindow hPop).arises hReached'
  obtain ⟨hVectors, hWindows⟩ := cursors_of_arises Int64 Int64
  obtain ⟨l, hList, hCursors⟩ := hVectors v hVector
  obtain ⟨b, l', hBacking, -, -, hCursors'⟩ := hWindows _ hw
  cases hList.symm.trans hHolds.toList_eq
  cases hBacking.symm.trans hHolds.toList_eq
  have hRange : Cursors seventy 5 40 _ _ := hCursors'
  refine ⟨v, _, hVector, hw, rfl, rfl, rfl, hCursors, hRange, ?_⟩
  obtain ⟨c, c', hCursor, hNext, hIndex, hShows⟩ :=
    hRange.exists_at_next_leaf (by decide) (show 40 ≤ seventy.length by decide)
  obtain ⟨chunk, -, hFirst, -, hPrefix, -, hEnd, -⟩ := hShows.chunk
  have hIndex : c'.index = 32 := hIndex.trans (by decide)
  have hChunk : chunk.length = 8 := by
    rw [hIndex] at hEnd
    change 32 + chunk.length = min (32 * (32 / 32 + 1)) 40 at hEnd
    omega
  rw [hIndex] at hPrefix
  rw [hPrefix.eq_of_length hChunk] at hFirst
  exact ⟨c, c', hCursor, hNext, hIndex, hFirst⟩

end PersistentCollections.TrieVector
