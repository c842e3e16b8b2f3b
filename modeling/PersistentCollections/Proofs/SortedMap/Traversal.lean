import PersistentCollections.Proofs.SortedMap.Equality
import PersistentCollections.Proofs.SortedMap.Range
import PersistentCollections.Proofs.Traversal
import PersistentCollections.SortedMap.Cursor

/-!
# Traversals of sorted maps and sets

An iterator gives the entries that its stack of frames leads to, and a cursor walks along those, if
the number that they were given at the start is right. A cursor that was given none counts by
walking to the end (`countFrom_eq`).

`Traversed` collects this for one map: from both ends, from any key in both directions, and between
any two bounds. A range is asked again and again, also after it has come to an end.
-/

namespace PersistentCollections

namespace SortedMap

variable {κ ν : Type} {m : SortedMap κ ν} {es : List (κ × ν)}

/-! ## Iterators -/

/-- The iterator gives these entries, and its hint of the size is exact all the time. -/
def Iter.Gives (it : Iter κ ν) (es : List (κ × ν)) : Prop :=
  GivesList (fun it n => it.sizeHint = (n, some n)) Iter.next it es

/-- An iterator that is right about their number gives the entries that are left. -/
theorem Iter.gives_rest {it : Iter κ ν} (hRest : it.rest = es)
    (hRemaining : it.remaining = some es.length) : it.Gives es := by
  apply givesList_rest _ hRest
  · rw [sizeHint, hRemaining]
  · intro it
    rcases it.next_spec with hEnd | ⟨e, it', hNext, hCons, hLess⟩
    · exact Or.inl hEnd
    · refine Or.inr ⟨e, it', hNext, hCons, ?_⟩
      intro n hn
      have hNumber : it.remaining = some (n + 1) := by
        unfold sizeHint at hn
        cases hKnown : it.remaining with
        | none =>
          rw [hKnown] at hn
          cases congrArg Prod.snd hn
        | some k =>
          rw [hKnown] at hn
          cases hn
          rfl
      rw [sizeHint, hLess, hNumber]
      rfl

/-! ## Cursors -/

namespace Cursor

/-- The cursor walks along these entries. -/
def Walks (c : Option (Cursor κ ν)) (es : List (κ × ν)) : Prop :=
  WalksAlong (fun c e => c.first = e) count next c es

/-- The entries after the one that the cursor stands on. -/
def onward (c : Cursor κ ν) : List (κ × ν) :=
  ahead c.ascending (descend c.ascending c.top.onward c.stack)

theorem countFrom_eq (c : Cursor κ ν) (n : Nat) : c.countFrom n = n + c.onward.length := by
  fun_induction countFrom c n with
  | case1 c n hNext =>
    have hNil : descend c.ascending c.top.onward c.stack = [] := by
      cases hStack : descend c.ascending c.top.onward c.stack with
      | nil => rfl
      | cons top stack =>
        rw [next, hStack] at hNext
        cases hNext
    rw [onward, hNil]
    rfl
  | case2 c n c' hNext ih =>
    cases hStack : descend c.ascending c.top.onward c.stack with
    | nil =>
      rw [next, hStack] at hNext
      cases hNext
    | cons top stack =>
      rw [next, hStack] at hNext
      cases hNext
      have hOnward : c.onward.length =
          (onward ⟨top, stack, c.ascending, c.length.map (· - 1)⟩).length + 1 := by
        rw [onward, hStack, ahead_cons, onward, ahead_descend, List.length_cons]
      rw [ih, hOnward]
      omega

/-- The cursor on a stack walks along the entries that the stack leads to, if it was given their
number or none. -/
theorem walks_ofStack? {ascending : Bool} {length : Option Nat} {stack : List (Frame κ ν)}
    (hStack : ahead ascending stack = es) (hLength : ∀ n, length = some n → n = es.length) :
    Walks (ofStack? ascending length stack) es := by
  induction es generalizing length stack with
  | nil =>
    cases stack with
    | nil => trivial
    | cons top stack =>
      rw [ahead_cons] at hStack
      cases hStack
  | cons e es ih =>
    cases stack with
    | nil => cases hStack
    | cons top stack =>
      rw [ahead_cons] at hStack
      obtain ⟨rfl, hRest⟩ := List.cons.inj hStack
      rw [← ahead_descend] at hRest
      refine ⟨rfl, ?_, ih hRest ?_⟩
      · cases length with
        | some n => exact hLength n rfl
        | none =>
          show countFrom _ 1 = _
          rw [countFrom_eq, onward, hRest, Nat.add_comm]
      · intro n hn
        obtain ⟨k, hk, rfl⟩ := Option.map_eq_some_iff.mp hn
        rw [hLength k hk]
        rfl

end Cursor

/-! ## Ranges -/

namespace Range

/-- The range after it has been asked for some entries. -/
def after : Nat → Range κ ν → Range κ ν
  | 0, r => r
  | n + 1, r => after n r.next.2

theorem compare_next (r : Range κ ν) : r.next.2.compare = r.compare := by
  unfold next
  split
  · rfl
  · split <;> rfl

/-- What is left is given in order, and then nothing any more. -/
theorem next_after (r : Range κ ν) (h : Std.OrientedCmp r.compare) (n : Nat) :
    (r.after n).next.1 = r.left[n]? := by
  induction n generalizing r with
  | zero =>
    rcases r.next_spec with ⟨hNone, hLeft, -⟩ | ⟨e, r', hSome, hLeft, -⟩
    · rw [hLeft]
      exact hNone
    · rw [hLeft, after, hSome]
      rfl
  | succ n ih =>
    rw [after, ih r.next.2 (r.compare_next ▸ h)]
    rcases r.next_spec with ⟨-, hLeft, hAfter⟩ | ⟨e, r', hSome, hLeft, -⟩
    · rw [hLeft, hAfter, List.getElem?_nil, List.getElem?_nil]
    · rw [hLeft, hSome, List.getElem?_cons_succ]

end Range

/-- With the keys in the opposite order, above a bound is below it. -/
theorem Bound.allowsAbove_flip {cmp : κ → κ → Ordering} [Std.OrientedCmp cmp] (bound : Bound κ)
    (key : κ) : bound.allowsAbove (toward cmp false) key = bound.allowsBelow cmp key := by
  have hSwap (b : κ) : cmp b key = (cmp key b).swap := Std.OrientedCmp.eq_swap
  cases bound with
  | unbounded => rfl
  | included b =>
    show (cmp b key != .lt) = (cmp key b != .gt)
    rw [hSwap b]
    cases cmp key b <;> rfl
  | excluded b =>
    show (cmp b key == .gt) = (cmp key b == .lt)
    rw [hSwap b]
    cases cmp key b <;> rfl

theorem Bound.allowsBelow_flip {cmp : κ → κ → Ordering} [Std.OrientedCmp cmp] (bound : Bound κ)
    (key : κ) : bound.allowsBelow (toward cmp false) key = bound.allowsAbove cmp key := by
  have hSwap (b : κ) : cmp b key = (cmp key b).swap := Std.OrientedCmp.eq_swap
  cases bound with
  | unbounded => rfl
  | included b =>
    show (cmp b key != .gt) = (cmp key b != .lt)
    rw [hSwap b]
    cases cmp key b <;> rfl
  | excluded b =>
    show (cmp b key == .lt) = (cmp key b == .gt)
    rw [hSwap b]
    cases cmp key b <;> rfl

/-- Whether a key lies within two bounds. -/
def within (cmp : κ → κ → Ordering) (low high : Bound κ) (key : κ) : Bool :=
  low.allowsAbove cmp key && high.allowsBelow cmp key

theorem WellFormed.left_range (h : m.WellFormed) (hc : m.comparator.Total) (low high : Bound κ) :
    (m.range low high).left =
      m.root.entries.filter fun e => within m.comparator.compare low high e.1 :=
  h.left_between hc low high true

theorem WellFormed.left_backRange (h : m.WellFormed) (hc : m.comparator.Total)
    (low high : Bound κ) : (m.backRange low high).left =
      (m.root.entries.filter fun e => within m.comparator.compare low high e.1).reverse := by
  have := hc.transCmp
  have hKeys : m.root.entries.filter (fun e =>
        high.allowsAbove (toward m.comparator.compare false) e.1 &&
          low.allowsBelow (toward m.comparator.compare false) e.1) =
      m.root.entries.filter fun e => within m.comparator.compare low high e.1 := by
    apply List.filter_congr
    intro e _
    rw [Bound.allowsAbove_flip, Bound.allowsBelow_flip, Bool.and_comm]
    rfl
  rw [backRange, h.left_between hc, Tree.along_false, List.filter_reverse, hKeys]

/-! ## All traversals of a map -/

/-- The traversals of a map with these entries, in ascending order. -/
structure Traversed (m : SortedMap κ ν) (es : List (κ × ν)) : Prop where
  ascending : Ascending m.comparator.compare es
  iter : m.iter.Gives es
  toList : m.toList = es
  cursor : Cursor.Walks (m.cursor true) es
  backCursor : Cursor.Walks (m.cursor false) es.reverse
  /-- From any key up, be it in the map or not. -/
  cursorAt : ∀ key, Cursor.Walks (m.cursorAt key true)
    (es.filter fun e => m.comparator.compare e.1 key != .lt)
  /-- From any key down. -/
  backCursorAt : ∀ key, Cursor.Walks (m.cursorAt key false)
    (es.filter fun e => m.comparator.compare e.1 key != .gt).reverse
  range : ∀ low high n, ((m.range low high).after n).next.1 =
    (es.filter fun e => within m.comparator.compare low high e.1)[n]?
  backRange : ∀ low high n, ((m.backRange low high).after n).next.1 =
    (es.filter fun e => within m.comparator.compare low high e.1).reverse[n]?

/-- The cursor at an end of the map walks along all entries. -/
theorem WellFormed.walks_cursor (h : m.WellFormed) (ascending : Bool) :
    Cursor.Walks (m.cursor ascending) (m.root.along ascending) := by
  apply Cursor.walks_ofStack?
  · rw [ahead_descend, ahead_nil, List.append_nil]
  · rintro _ ⟨⟩
    rw [h.size]
    cases ascending with
    | true => rfl
    | false => exact List.length_reverse.symm

/-- The cursor at a key walks along the entries that are not before it. -/
theorem WellFormed.walks_cursorAt (h : m.WellFormed) (hc : m.comparator.Total) (key : κ)
    (ascending : Bool) : Cursor.Walks (m.cursorAt key ascending)
      ((m.root.along ascending).filter
        fun e => toward m.comparator.compare ascending e.1 key != .lt) := by
  have := hc.transCmp
  apply Cursor.walks_ofStack?
  · rw [ahead_descendTo (Tree.ascending_along h.ascending ascending), ahead_nil, List.append_nil]
  · rintro _ ⟨⟩

theorem WellFormed.iter_gives (h : m.WellFormed) : m.iter.Gives m.root.entries :=
  Iter.gives_rest (Iter.rest_whole m.root true m.size) (by rw [← h.size]; rfl)

theorem WellFormed.traversed (h : m.WellFormed) (hc : m.comparator.Total) :
    Traversed m m.root.entries := by
  have := hc.transCmp
  have hOriented : Std.OrientedCmp m.comparator.compare := inferInstance
  refine ⟨h.ascending, h.iter_gives, toList_eq_entries m, h.walks_cursor true,
    h.walks_cursor false, fun key => h.walks_cursorAt hc key true, ?_, ?_, ?_⟩
  · intro key
    have hBack := h.walks_cursorAt hc key false
    rw [Tree.along_false, List.filter_reverse] at hBack
    have hKeys : m.root.entries.filter (fun e => toward m.comparator.compare false e.1 key != .lt) =
        m.root.entries.filter fun e => m.comparator.compare e.1 key != .gt :=
      List.filter_congr fun e _ => (Bound.included key).allowsAbove_flip e.1
    rwa [hKeys] at hBack
  · intro low high n
    rw [Range.next_after _ hOriented, h.left_range hc]
  · intro low high n
    rw [Range.next_after _ hOriented, h.left_backRange hc]

end SortedMap

/-! ## All traversals of a set -/

namespace SortedSet

open SortedMap (Bound within)

variable {α : Type} {s : SortedSet α}

def Iter.Gives (it : Iter α) (xs : List α) : Prop :=
  GivesList (fun it n => it.sizeHint = (n, some n)) Iter.next it xs

/-- The iterator of a set gives the keys of that of the map. -/
theorem Iter.gives_of_entries {entries : SortedMap.Iter α Unit} {es : List (α × Unit)}
    (h : entries.Gives es) : Iter.Gives ⟨entries⟩ (es.map (·.1)) :=
  GivesList.map (fun _ _ hLeft => hLeft) (fun _ => rfl) h

def Cursor.Walks (c : Option (Cursor α)) (xs : List α) : Prop :=
  WalksAlong (fun c x => c.first = x) Cursor.count Cursor.next c xs

/-- The cursor of a set walks along the keys of that of the map. -/
theorem Cursor.walks_of_entries {c : Option (SortedMap.Cursor α Unit)} {es : List (α × Unit)}
    (h : SortedMap.Cursor.Walks c es) : Walks (c.map Cursor.mk) (es.map (·.1)) :=
  WalksAlong.map (fun _ _ hFirst => congrArg Prod.fst hFirst) (fun _ => rfl) (fun _ => rfl) h

/-- The traversals of a set with these elements, in ascending order. -/
structure Traversed (s : SortedSet α) (xs : List α) : Prop where
  ascending : xs.Pairwise fun a b => s.comparator.compare a b = .lt
  iter : s.iter.Gives xs
  toList : s.toList = xs
  cursor : Cursor.Walks (s.cursor true) xs
  backCursor : Cursor.Walks (s.cursor false) xs.reverse
  cursorAt : ∀ x, Cursor.Walks (s.cursorAt x true)
    (xs.filter fun y => s.comparator.compare y x != .lt)
  backCursorAt : ∀ x, Cursor.Walks (s.cursorAt x false)
    (xs.filter fun y => s.comparator.compare y x != .gt).reverse
  range : ∀ low high, s.range low high = xs.filter (within s.comparator.compare low high)
  backRange : ∀ low high,
    s.backRange low high = (xs.filter (within s.comparator.compare low high)).reverse
  /-- The steps behind a range, also after its end. -/
  rangeSteps : ∀ low high n, ((s.map.range low high).after n).next.1.map (·.1) =
    (xs.filter (within s.comparator.compare low high))[n]?
  backRangeSteps : ∀ low high n, ((s.map.backRange low high).after n).next.1.map (·.1) =
    (xs.filter (within s.comparator.compare low high)).reverse[n]?

theorem traversed (h : s.map.WellFormed) (hc : s.comparator.Total) : Traversed s s.elements := by
  have hTraversed := h.traversed hc
  have : Std.TransCmp s.map.comparator.compare := hc.transCmp
  have hOriented : Std.OrientedCmp s.map.comparator.compare := inferInstance
  have hFilter (p : α → Bool) : (s.map.root.entries.filter fun e => p e.1).map (·.1) =
      s.elements.filter p := by
    rw [elements, List.filter_map]
    rfl
  refine ⟨SortedMap.ascending_iff_keys.mp h.ascending, Iter.gives_of_entries hTraversed.iter,
    (lists_elements h hc).toList, Cursor.walks_of_entries hTraversed.cursor,
    ?_, ?_, ?_, ?_, ?_, ?_, ?_⟩
  · have hBack := Cursor.walks_of_entries hTraversed.backCursor
    rwa [List.map_reverse] at hBack
  · intro x
    have hFrom := Cursor.walks_of_entries (hTraversed.cursorAt x)
    rwa [hFilter fun y => s.map.comparator.compare y x != .lt] at hFrom
  · intro x
    have hFrom := Cursor.walks_of_entries (hTraversed.backCursorAt x)
    rwa [List.map_reverse, hFilter fun y => s.map.comparator.compare y x != .gt] at hFrom
  · intro low high
    rw [range, SortedMap.Range.toList_eq_left _ hOriented, h.left_range hc]
    exact hFilter _
  · intro low high
    rw [backRange, SortedMap.Range.toList_eq_left _ hOriented, h.left_backRange hc,
      List.map_reverse]
    exact congrArg List.reverse (hFilter _)
  · intro low high n
    rw [hTraversed.range, ← List.getElem?_map]
    exact congrArg (·[n]?) (hFilter _)
  · intro low high n
    rw [hTraversed.backRange, ← List.getElem?_map, List.map_reverse]
    exact congrArg (fun xs : List α => xs.reverse[n]?) (hFilter _)

end SortedSet

/-- Every history of the empty sorted map, and every one of the empty sorted set, leads to a
collection all of whose traversals are those of the list that the same changes make of the empty
list. If hashes were asked for on the way too, the traversals are those of the collection's own
list. -/
theorem histories_traversed {κ ν : Type} {c : Comparator κ} (hc : c.Total) :
    (∀ calls : List (SortedMap.Call κ ν), ∃ m, SortedMap.run calls (.empty c) = .ok m ∧
      m.comparator = c ∧ m.Traversed (SortedMap.reference c calls)) ∧
    (∀ calls : List (SortedSet.Call κ), ∃ s, SortedSet.run calls (.empty c) = .ok s ∧
      s.comparator = c ∧ s.Traversed (SortedSet.reference c calls)) ∧
    ∀ [HashCode κ] [HashCode ν],
      (∀ m : SortedMap κ ν, SortedMap.Reachable c m → m.comparator = c ∧ m.Traversed m.toList) ∧
      ∀ s : SortedSet κ, SortedSet.Reachable c s → s.comparator = c ∧ s.Traversed s.toList := by
  refine ⟨?_, ?_, ?_⟩
  · intro calls
    obtain ⟨m, hm, rfl, hw, he⟩ :=
      SortedMap.run_entries calls (SortedMap.wellFormed_empty c) hc
    have hTraversed := hw.traversed hc
    rw [he] at hTraversed
    exact ⟨m, hm, rfl, hTraversed⟩
  · intro calls
    obtain ⟨s, hs, rfl, hw, he⟩ :=
      SortedSet.run_elements (s := .empty c) calls (SortedMap.wellFormed_empty c) hc
    have hTraversed := SortedSet.traversed hw hc
    rw [he] at hTraversed
    exact ⟨s, hs, rfl, hTraversed⟩
  · intro _ _
    constructor
    · intro m h
      obtain ⟨rfl, hw, -⟩ := h.spec hc
      have hTraversed := hw.traversed hc
      rw [← SortedMap.toList_eq_entries] at hTraversed
      exact ⟨rfl, hTraversed⟩
    · intro s h
      obtain ⟨rfl, hw, -⟩ := h.spec hc
      have hTraversed := SortedSet.traversed hw hc
      rw [← (SortedSet.lists_elements hw hc).toList] at hTraversed
      exact ⟨rfl, hTraversed⟩

/-- Numbers by magnitude: from a key that is there with another sign, from one that is not there,
and between bounds that are not in order; and a set whose hash was asked for. -/
theorem histories_traversed_byMagnitude : SortedMap.byMagnitude.Total ∧
    (∃ m : SortedMap Int Char, SortedMap.run
        [.insert (-3) 'a', .insert 1 'c', .insert 7 'd', .insert 3 'b', .erase 2]
        (.empty SortedMap.byMagnitude) = .ok m ∧
      m.Traversed [(1, 'c'), (-3, 'b'), (7, 'd')] ∧
      SortedMap.Cursor.Walks (m.cursorAt 3 true) [(-3, 'b'), (7, 'd')] ∧
      SortedMap.Cursor.Walks (m.cursorAt (-5) false) [(-3, 'b'), (1, 'c')] ∧
      ((m.range (.excluded 7) (.included 1)).after 2).next.1 = none) ∧
    longsByMagnitude.Total ∧ ∃ s : SortedSet Int64,
      s = ((SortedSet.empty longsByMagnitude).insert 5).hashed ∧ s.Traversed s.toList := by
  obtain ⟨hMaps, -⟩ := histories_traversed (ν := Char) SortedMap.byMagnitude_total
  obtain ⟨m, hRun, hComparator, hTraversed⟩ :=
    hMaps [.insert (-3) 'a', .insert 1 'c', .insert 7 'd', .insert 3 'b', .erase 2]
  have hFrom := hTraversed.cursorAt 3
  have hBack := hTraversed.backCursorAt (-5)
  have hRange := hTraversed.range (.excluded 7) (.included 1) 2
  rw [hComparator] at hFrom hBack hRange
  obtain ⟨-, -, hReachable⟩ := histories_traversed (ν := Unit) longsByMagnitude_total
  have hSet := hReachable.2 _ (SortedSet.Reachable.empty.insert 5).hashed
  exact ⟨SortedMap.byMagnitude_total, ⟨m, hRun, hTraversed, hFrom, hBack, hRange⟩,
    longsByMagnitude_total, _, rfl, hSet.2⟩

end PersistentCollections
