import PersistentCollections.Proofs.Lists
import PersistentCollections.Proofs.SortedMap.History
import PersistentCollections.Proofs.SortedMap.Walk
import PersistentCollections.SortedMap.Range

/-!
# Ranges as parts of a sorted list

A walk meets the keys of a tree in the order `toward`, which is that of the comparator or the
opposite. In that order the two directions are one: the walk from a key gives the entries that are
not before it (`ahead_descendTo`), and a range stops at the first entry past its other bound, behind
which there are only such entries. So a range gives the entries within its bounds, whatever they are
and however they lie to each other (`WellFormed.toList_between`).
-/

namespace PersistentCollections.SortedMap

variable {κ ν : Type} {cmp : κ → κ → Ordering} {ascending : Bool} {t : Tree κ ν} {key : κ}
  {es : List (κ × ν)} {m : SortedMap κ ν}

/-! ## The direction of travel -/

/-- The order in which a walk meets the keys. -/
def toward (cmp : κ → κ → Ordering) (ascending : Bool) (a b : κ) : Ordering :=
  if ascending then cmp a b else cmp b a

instance [Std.TransCmp cmp] : Std.TransCmp (toward cmp ascending) := by
  cases ascending with
  | true => exact inferInstanceAs (Std.TransCmp cmp)
  | false => exact inferInstanceAs (Std.TransCmp fun a b => cmp b a)

theorem toward_eq_iff [Std.OrientedCmp cmp] {a b : κ} :
    toward cmp ascending a b = .eq ↔ cmp a b = .eq := by
  cases ascending with
  | true => rfl
  | false => exact (Std.OrientedCmp.eq_comm : cmp b a = .eq ↔ cmp a b = .eq)

theorem Tree.ascending_along (h : Ascending cmp t.entries) (ascending : Bool) :
    Ascending (toward cmp ascending) (t.along ascending) := by
  cases ascending with
  | true => exact h
  | false => exact List.pairwise_reverse.mpr h

theorem Tree.along_node (ascending : Bool) (c : Color) (l : Tree κ ν) (x : κ × ν) (r : Tree κ ν) :
    (node c l x r).along ascending = (if ascending then l else r).along ascending ++
      x :: (if ascending then r else l).along ascending := by
  cases ascending with
  | true => rfl
  | false => simp [entries]

theorem descendTo_node [Std.OrientedCmp cmp] (key : κ) (ascending : Bool) (c : Color)
    (l : Tree κ ν) (x : κ × ν) (r : Tree κ ν) (stack : List (Frame κ ν)) :
    descendTo cmp key ascending (.node c l x r) stack =
      match toward cmp ascending key x.1 with
      | .eq => ⟨x, if ascending then r else l⟩ :: stack
      | .lt => descendTo cmp key ascending (if ascending then l else r)
          (⟨x, if ascending then r else l⟩ :: stack)
      | .gt => descendTo cmp key ascending (if ascending then r else l) stack := by
  cases ascending with
  | true => rfl
  | false =>
    have hSwap : cmp x.1 key = (cmp key x.1).swap := Std.OrientedCmp.eq_swap
    show _ = match cmp x.1 key with | .eq => _ | .lt => _ | .gt => _
    rw [descendTo, hSwap]
    cases cmp key x.1 with
    | eq => rfl
    | lt => rfl
    | gt => rfl

/-! ## Where a walk begins -/

/-- The walk from a key comes to the entries that are not before it. -/
theorem ahead_descendTo [Std.TransCmp cmp]
    (h : Ascending (toward cmp ascending) (t.along ascending)) (stack : List (Frame κ ν)) :
    ahead ascending (descendTo cmp key ascending t stack) =
      (t.along ascending).filter (fun e => toward cmp ascending e.1 key != .lt) ++
        ahead ascending stack := by
  induction t generalizing stack with
  | nil =>
    cases ascending with
    | true => rfl
    | false => rfl
  | node c l x r ihl ihr =>
    rw [Tree.along_node] at h ⊢
    obtain ⟨hNear, hFar, hx⟩ := ascending_append_cons.mp h
    have ihNear (stack : List (Frame κ ν)) :
        ahead ascending (descendTo cmp key ascending (if ascending then l else r) stack) =
          ((if ascending then l else r).along ascending).filter
            (fun e => toward cmp ascending e.1 key != .lt) ++ ahead ascending stack := by
      cases ascending with
      | true => exact ihl hNear stack
      | false => exact ihr hNear stack
    have ihFar (stack : List (Frame κ ν)) :
        ahead ascending (descendTo cmp key ascending (if ascending then r else l) stack) =
          ((if ascending then r else l).along ascending).filter
            (fun e => toward cmp ascending e.1 key != .lt) ++ ahead ascending stack := by
      cases ascending with
      | true => exact ihr hFar stack
      | false => exact ihl hFar stack
    rw [descendTo_node]
    cases hk : toward cmp ascending key x.1 with
    | eq =>
      have hKey := hx.congr hk
      rw [filter_append_right]
      · exact ahead_cons ascending _ stack
      · intro a ha
        simp [hKey.below a ha]
      · intro a ha
        rcases List.mem_cons.mp ha with rfl | ha
        · simp [Std.OrientedCmp.eq_symm hk]
        · simp [Std.OrientedCmp.gt_of_lt (hKey.above a ha)]
    | lt =>
      have hAbove := hx.above_of_lt hk
      have hAll : (x :: (if ascending then r else l).along ascending).filter
          (fun e => toward cmp ascending e.1 key != .lt) = _ :=
        List.filter_eq_self.mpr fun a ha => by simp [Std.OrientedCmp.gt_of_lt (hAbove a ha)]
      rw [List.filter_append, hAll, List.append_assoc]
      exact (ihNear _).trans (congrArg _ (ahead_cons ascending _ stack))
    | gt =>
      have hBelow := hx.below_of_gt hk
      have hNone : ((if ascending then l else r).along ascending ++ [x]).filter
          (fun e => toward cmp ascending e.1 key != .lt) = [] :=
        List.filter_eq_nil_iff.mpr fun a ha => by simp [hBelow a ha]
      rw [List.append_cons, List.filter_append, hNone, List.nil_append]
      exact ihFar stack

/-! ## Bounds -/

/-- Whether a key lies above a bound, or at it if the bound is included. -/
def Bound.allowsAbove (cmp : κ → κ → Ordering) : Bound κ → κ → Bool
  | .included bound, key => cmp key bound != .lt
  | .excluded bound, key => cmp key bound == .gt
  | .unbounded, _ => true

/-- Whether a key lies below a bound, or at it if the bound is included. -/
def Bound.allowsBelow (cmp : κ → κ → Ordering) : Bound κ → κ → Bool
  | .included bound, key => cmp key bound != .gt
  | .excluded bound, key => cmp key bound == .lt
  | .unbounded, _ => true

/-- The keys below a bound go on to the left. -/
theorem Bound.allowsBelow_of_lt [Std.TransCmp cmp] {stop : Bound κ} {a b : κ}
    (hab : cmp a b = .lt) (hb : stop.allowsBelow cmp b = true) : stop.allowsBelow cmp a = true := by
  cases stop with
  | included bound =>
    have hb : (cmp b bound).isLE = true := by
      simpa [allowsBelow, Ordering.isLE_iff_ne_gt] using hb
    have ha : cmp a bound = .lt := Std.TransCmp.lt_of_lt_of_isLE hab hb
    simp [allowsBelow, ha]
  | excluded bound =>
    have hb : cmp b bound = .lt := by simpa [allowsBelow] using hb
    simp [allowsBelow, Std.TransCmp.lt_trans hab hb]
  | unbounded => rfl

/-- If an ascending list begins with a key that is not below a bound, then only that key can be at
the bound. -/
theorem filter_excluded [Std.TransCmp cmp] {e : κ × ν} (h : Ascending cmp (e :: es))
    (he : cmp e.1 key ≠ .lt) :
    (e :: es).filter (fun e => cmp e.1 key == .gt) = if cmp e.1 key = .eq then es else e :: es := by
  obtain ⟨hFirst, -⟩ := List.pairwise_cons.mp h
  have hRest : ∀ a ∈ es, cmp a.1 key = .gt := by
    intro a ha
    have hLE : (cmp key e.1).isLE = true :=
      Std.OrientedCmp.isGE_iff_isLE.mp (Ordering.isGE_iff_ne_lt.mpr he)
    exact Std.OrientedCmp.gt_of_lt (Std.TransCmp.lt_of_isLE_of_lt hLE (hFirst a ha))
  have hAll : es.filter (fun e => cmp e.1 key == .gt) = es :=
    List.filter_eq_self.mpr fun a ha => by simp [hRest a ha]
  rw [List.filter_cons, hAll]
  cases hk : cmp e.1 key with
  | lt => exact (he hk).elim
  | eq => rfl
  | gt => rfl

/-! ## Ranges -/

theorem Iter.next_ascending {it it' : Iter κ ν} {e : κ × ν} (h : it.next = some (e, it')) :
    it'.ascending = it.ascending := by
  unfold next at h
  split at h
  · cases h
  · cases h
    rfl

namespace Range

/-- What is left of a range: the entries that the walk comes to before the other bound. -/
def left (r : Range κ ν) : List (κ × ν) :=
  r.iter.rest.takeWhile fun e => r.stop.allowsBelow (toward r.compare r.iter.ascending) e.1

theorem isPast_eq {r : Range κ ν} [Std.OrientedCmp r.compare] (key : κ) :
    r.isPast key = !r.stop.allowsBelow (toward r.compare r.iter.ascending) key := by
  have hSwap (bound : κ) : r.compare bound key = (r.compare key bound).swap :=
    Std.OrientedCmp.eq_swap
  unfold isPast Bound.allowsBelow toward
  cases r.stop with
  | unbounded => rfl
  | included bound =>
    simp only [hSwap bound]
    cases r.iter.ascending <;> cases r.compare key bound <;> rfl
  | excluded bound =>
    simp only [hSwap bound]
    cases r.iter.ascending <;> cases r.compare key bound <;> rfl

/-- A step gives the first of the entries that are left, or none is left, and then none is left
after it either. -/
theorem next_spec (r : Range κ ν) [Std.OrientedCmp r.compare] :
    (r.next.1 = none ∧ r.left = [] ∧ r.next.2.left = []) ∨
      ∃ e r', r.next = (some e, r') ∧ r.left = e :: r'.left ∧ r'.compare = r.compare := by
  unfold next
  rcases r.iter.next_spec with ⟨hNone, hRest⟩ | ⟨e, it, hSome, hRest, -⟩
  · have hLeft : r.left = [] := by rw [left, hRest, List.takeWhile_nil]
    rw [hNone]
    exact Or.inl ⟨rfl, hLeft, hLeft⟩
  · have hLeft : r.left = (e :: it.rest).takeWhile
        fun e => r.stop.allowsBelow (toward r.compare r.iter.ascending) e.1 := by
      rw [left, hRest]
    have hOn : left { r with iter := it } = it.rest.takeWhile
        fun e => r.stop.allowsBelow (toward r.compare r.iter.ascending) e.1 := by
      rw [left, Iter.next_ascending hSome]
    simp only [hSome, isPast_eq]
    by_cases hAllows : r.stop.allowsBelow (toward r.compare r.iter.ascending) e.1 = true
    · rw [List.takeWhile_cons, if_pos hAllows, ← hOn] at hLeft
      rw [if_neg (by simp [hAllows])]
      exact Or.inr ⟨e, _, rfl, hLeft, rfl⟩
    · rw [List.takeWhile_cons, if_neg hAllows] at hLeft
      rw [if_pos (by simp [hAllows])]
      exact Or.inl ⟨rfl, hLeft, rfl⟩

theorem toList_eq_left (r : Range κ ν) (h : Std.OrientedCmp r.compare) : r.toList = r.left := by
  fun_induction toList r with
  | case1 r r' hNext =>
    rcases r.next_spec with ⟨-, hLeft, -⟩ | ⟨e, r'', hSome, -⟩
    · exact hLeft.symm
    · cases hNext.symm.trans hSome
  | case2 r e r' hNext ih =>
    rcases r.next_spec with ⟨hNone, -⟩ | ⟨e', r'', hSome, hLeft, hCompare⟩
    · rw [hNext] at hNone
      cases hNone
    · cases hNext.symm.trans hSome
      rw [hLeft, ih (hCompare ▸ h)]

theorem ascending_between (m : SortedMap κ ν) (start stop : Bound κ) (ascending : Bool) :
    (between m start stop ascending).iter.ascending = ascending := by
  cases start with
  | included bound => rfl
  | unbounded => rfl
  | excluded bound =>
    simp only [between]
    split
    · next e rest hNext =>
      split
      · exact Iter.next_ascending hNext
      · rfl
    · rfl

/-- A range begins at the first entry that its first bound allows. -/
theorem rest_between [Std.TransCmp m.comparator.compare]
    (h : Ascending m.comparator.compare m.root.entries) (start stop : Bound κ) (ascending : Bool) :
    (between m start stop ascending).iter.rest = (m.root.along ascending).filter
      fun e => start.allowsAbove (toward m.comparator.compare ascending) e.1 := by
  have hAlong := Tree.ascending_along h ascending
  have hFrom (key : κ) : (Iter.startingAt m.comparator.compare m.root key ascending).rest =
      (m.root.along ascending).filter
        fun e => toward m.comparator.compare ascending e.1 key != .lt := by
    show ahead ascending (descendTo m.comparator.compare key ascending m.root []) = _
    rw [ahead_descendTo hAlong, ahead_nil, List.append_nil]
  cases start with
  | unbounded =>
    exact (Iter.rest_whole m.root ascending m.size).trans
      (List.filter_eq_self.mpr fun _ _ => rfl).symm
  | included bound => exact hFrom bound
  | excluded bound =>
    -- Of the entries that are not before the bound only the first can be at it.
    have hBehind : (m.root.along ascending).filter
          (fun e => toward m.comparator.compare ascending e.1 bound == .gt) =
        (Iter.startingAt m.comparator.compare m.root bound ascending).rest.filter
          fun e => toward m.comparator.compare ascending e.1 bound == .gt := by
      rw [hFrom, List.filter_filter]
      apply List.filter_congr
      intro e _
      cases toward m.comparator.compare ascending e.1 bound <;> rfl
    refine Eq.trans ?_ hBehind.symm
    rcases (Iter.startingAt m.comparator.compare m.root bound ascending).next_spec with
      ⟨hNone, hRest⟩ | ⟨e, it, hSome, hRest, -⟩
    · simp only [between, hNone, hRest, List.filter_nil]
    · have hFirst := hFrom bound
      rw [hRest] at hFirst
      have hSorted : Ascending (toward m.comparator.compare ascending) (e :: it.rest) := by
        rw [hFirst]
        exact hAlong.sublist List.filter_sublist
      have he : toward m.comparator.compare ascending e.1 bound ≠ .lt := by
        have hMem : e ∈ e :: it.rest := List.mem_cons_self
        rw [hFirst, List.mem_filter] at hMem
        simpa using hMem.2
      rw [hRest, filter_excluded hSorted he]
      simp only [between, hSome, toward_eq_iff]
      split
      · rfl
      · exact hRest

end Range

/-- What is left of a range at first are the entries within its bounds, in the direction of
travel. -/
theorem WellFormed.left_between (h : m.WellFormed) (hc : m.comparator.Total)
    (start stop : Bound κ) (ascending : Bool) :
    (Range.between m start stop ascending).left = (m.root.along ascending).filter fun e =>
      start.allowsAbove (toward m.comparator.compare ascending) e.1 &&
        stop.allowsBelow (toward m.comparator.compare ascending) e.1 := by
  have := hc.transCmp
  have hRest := Range.rest_between h.ascending start stop ascending
  have hSorted : Ascending (toward m.comparator.compare ascending)
      (Range.between m start stop ascending).iter.rest := by
    rw [hRest]
    exact (Tree.ascending_along h.ascending ascending).sublist List.filter_sublist
  rw [Range.left, Range.ascending_between]
  show List.takeWhile
    (fun e : κ × ν => stop.allowsBelow (toward m.comparator.compare ascending) e.1) _ = _
  rw [takeWhile_eq_filter (hSorted.imp fun hab => Bound.allowsBelow_of_lt hab), hRest,
    List.filter_filter]
  simp only [Bool.and_comm]

/-- A range gives the entries within its bounds, in the direction of travel. -/
theorem WellFormed.toList_between (h : m.WellFormed) (hc : m.comparator.Total)
    (start stop : Bound κ) (ascending : Bool) :
    (Range.between m start stop ascending).toList = (m.root.along ascending).filter fun e =>
      start.allowsAbove (toward m.comparator.compare ascending) e.1 &&
        stop.allowsBelow (toward m.comparator.compare ascending) e.1 := by
  have := hc.transCmp
  rw [Range.toList_eq_left _ (inferInstanceAs (Std.OrientedCmp m.comparator.compare)),
    h.left_between hc]

end PersistentCollections.SortedMap
