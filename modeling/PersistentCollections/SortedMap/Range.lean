import PersistentCollections.SortedMap.Basic

/-!
# Ranges of sorted maps

A walk through the entries between two bounds. It begins at the bound it comes to first and stops
for good at the first entry past the other one. The bounds need not be in order.
-/

namespace PersistentCollections.SortedMap

variable {κ ν : Type}

/-- One end of a range. -/
inductive Bound (κ : Type) where
  | included (key : κ)
  | excluded (key : κ)
  | unbounded

/-- A walk with the bound at which it stops. -/
structure Range (κ ν : Type) where
  compare : κ → κ → Ordering
  iter : Iter κ ν
  stop : Bound κ

namespace Range

/-- The walk from the bound `start` up to the bound `stop`, in the direction of travel. -/
def between (m : SortedMap κ ν) (start stop : Bound κ) (ascending : Bool) : Range κ ν :=
  let cmp := m.comparator.compare
  let iter : Iter κ ν :=
    match start with
    | .unbounded => .whole m.root ascending m.size
    | .included key => .startingAt cmp m.root key ascending
    | .excluded key =>
      let iter := Iter.startingAt cmp m.root key ascending
      match iter.next with
      | some (entry, rest) => if cmp entry.1 key = .eq then rest else iter
      | none => iter
  ⟨cmp, iter, stop⟩

/-- Whether a key lies past the bound at which the walk stops. -/
def isPast (r : Range κ ν) (key : κ) : Bool :=
  match r.stop with
  | .unbounded => false
  | .included stop => r.compare key stop == if r.iter.ascending then .gt else .lt
  | .excluded stop => r.compare key stop != if r.iter.ascending then .lt else .gt

/-- The next entry if there is one, and the walk after it. -/
def next (r : Range κ ν) : Option (κ × ν) × Range κ ν :=
  match r.iter.next with
  | none => (none, r)
  | some (entry, iter) =>
    if r.isPast entry.1 then (none, { r with iter := { iter with stack := [] } })
    else (some entry, { r with iter })

theorem weight_lt_of_next {r r' : Range κ ν} {entry : κ × ν} (h : r.next = (some entry, r')) :
    weight r'.iter.stack < weight r.iter.stack := by
  unfold next at h
  split at h
  · cases h
  · next e iter hn =>
    split at h
    · cases h
    · cases h
      exact Iter.weight_lt_of_next hn

/-- All entries that are left. -/
def toList (r : Range κ ν) : List (κ × ν) :=
  match _h : r.next with
  | (none, _) => []
  | (some entry, r') => entry :: r'.toList
termination_by weight r.iter.stack
decreasing_by exact weight_lt_of_next _h

end Range

/-- The entries between two bounds, in ascending order. -/
def range (m : SortedMap κ ν) (low high : Bound κ) : Range κ ν := .between m low high true

/-- The entries between two bounds, in descending order. -/
def backRange (m : SortedMap κ ν) (low high : Bound κ) : Range κ ν := .between m high low false

end PersistentCollections.SortedMap
