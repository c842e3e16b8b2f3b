import PersistentCollections.Proofs.SortedMap.Refinement

/-!
# Sorted sets as sorted lists

A sorted set is a sorted map to nothing, and its reference is the list of the elements. An insertion
puts a new element between the smaller and the greater ones, a removal leaves out the equivalent
one, and neither does anything else: an element that is there stays as it is stored, and where none
is there nothing is removed. `histories_list` is about maps and sets together.
-/

namespace PersistentCollections

namespace SortedSet

open SortedMap (Between)

variable {α : Type} {c : Comparator α} {s : SortedSet α} {x y : α} {xs : List α}
  {es : List (α × Unit)}

/-! ## Histories and their reference -/

/-- The changes of a sorted set. -/
inductive Call (α : Type) where
  | insert (x : α)
  | erase (x : α)

def Call.run (s : SortedSet α) : Call α → Result (SortedSet α)
  | .insert x => .ok (s.insert x)
  | .erase x => s.erase x

/-- Make changes in order. -/
def run (calls : List (Call α)) (s : SortedSet α) : Result (SortedSet α) :=
  calls.foldlM Call.run s

def insertSorted (c : Comparator α) (x : α) (xs : List α) : List α :=
  if xs.any fun y => c.compare x y == .eq then xs
  else (xs.filter fun y => c.compare y x == .lt) ++ x :: xs.filter fun y => c.compare x y == .lt

def eraseSorted (c : Comparator α) (x : α) (xs : List α) : List α :=
  xs.filter fun y => c.compare x y != .eq

def Call.reference (c : Comparator α) (xs : List α) : Call α → List α
  | .insert x => insertSorted c x xs
  | .erase x => eraseSorted c x xs

/-- The list that the same changes make of the empty list. -/
def reference (c : Comparator α) (calls : List (Call α)) : List α :=
  calls.foldl (Call.reference c) []

/-- Everything that can be asked of a set is answered from a list of elements. -/
structure Lists (s : SortedSet α) (xs : List α) : Prop where
  toList : s.toList = xs
  ascending : xs.Pairwise fun a b => s.comparator.compare a b = .lt
  size : s.size = xs.length
  isEmpty : s.isEmpty = true ↔ xs = []
  contains : ∀ x, s.contains x = true ↔ ∃ y ∈ xs, s.comparator.compare x y = .eq
  get? : ∀ x y, s.get? x = some y ↔ y ∈ xs ∧ s.comparator.compare x y = .eq
  first? : s.first? = xs.head?
  last? : s.last? = xs.getLast?
  insertPresent : ∀ x, (∃ y ∈ xs, s.comparator.compare x y = .eq) → s.insert x = s
  eraseAbsent : ∀ x, (∀ y ∈ xs, s.comparator.compare x y ≠ .eq) → s.erase x = .ok s

/-! ## Sets and maps -/

/-- The elements of a set, from left to right in its tree. -/
def elements (s : SortedSet α) : List α := s.map.root.entries.map (·.1)

theorem map_insertSorted (c : Comparator α) (x : α) (es : List (α × Unit)) :
    (SortedMap.insertSorted c x () es).map (·.1) = insertSorted c x (es.map (·.1)) := by
  unfold SortedMap.insertSorted insertSorted
  rw [List.any_map, List.filter_map, List.filter_map]
  simp only [Function.comp_def]
  split
  · exact SortedMap.keys_map_overwrite c x () es
  · rw [List.map_append, List.map_cons]

theorem map_eraseSorted (c : Comparator α) (x : α) (es : List (α × Unit)) :
    (SortedMap.eraseSorted c x es).map (·.1) = eraseSorted c x (es.map (·.1)) := by
  unfold SortedMap.eraseSorted eraseSorted
  rw [List.filter_map]
  rfl

theorem contains_iff (h : s.map.WellFormed) (hc : s.comparator.Total) :
    s.contains x = true ↔ ∃ y ∈ s.elements, s.comparator.compare x y = .eq := by
  rw [contains, (h.lists hc).contains, elements]
  constructor
  · rintro ⟨e, he, hk⟩
    exact ⟨e.1, List.mem_map_of_mem he, hk⟩
  · rintro ⟨y, hy, hk⟩
    obtain ⟨e, he, rfl⟩ := List.mem_map.mp hy
    exact ⟨e, he, hk⟩

theorem insert_present (h : s.map.WellFormed) (hc : s.comparator.Total)
    (hx : ∃ y ∈ s.elements, s.comparator.compare x y = .eq) : s.insert x = s := by
  rw [insert, if_pos ((contains_iff h hc).mpr hx)]

theorem erase_absent (h : s.map.WellFormed) (hc : s.comparator.Total)
    (hx : ∀ y ∈ s.elements, s.comparator.compare x y ≠ .eq) : s.erase x = .ok s := by
  rw [erase, if_neg]
  intro hContains
  obtain ⟨y, hy, hk⟩ := (contains_iff h hc).mp hContains
  exact hx y hy hk

/-- A set whose map is well-formed is answered from its elements. -/
theorem lists_elements (h : s.map.WellFormed) (hc : s.comparator.Total) :
    Lists s s.elements where
  toList := by
    rw [toList, SortedMap.keys, SortedMap.toList_eq_entries]
    rfl
  ascending := SortedMap.ascending_iff_keys.mp h.ascending
  size := by
    rw [size, h.size, elements, List.length_map]
  isEmpty := by
    rw [isEmpty, (h.lists hc).isEmpty, elements, List.map_eq_nil_iff]
  contains x := contains_iff h hc
  get? x y := by
    simp only [get?, Option.map_eq_some_iff, (h.lists hc).entryAt?, elements, List.mem_map]
    constructor
    · rintro ⟨e, ⟨he, hk⟩, rfl⟩
      exact ⟨⟨e, he, rfl⟩, hk⟩
    · rintro ⟨⟨e, he, rfl⟩, hk⟩
      exact ⟨e, ⟨he, hk⟩, rfl⟩
  first? := by
    rw [first?, (h.lists hc).first?, elements, List.head?_map]
  last? := by
    rw [last?, (h.lists hc).last?, elements, List.getLast?_map]
  insertPresent x := insert_present h hc
  eraseAbsent x := erase_absent h hc

/-! ## Changes -/

theorem insert_elements (h : s.map.WellFormed) (hc : s.comparator.Total) (x : α) :
    (s.insert x).comparator = s.comparator ∧ (s.insert x).map.WellFormed ∧
      (s.insert x).elements = insertSorted s.comparator x s.elements := by
  by_cases hx : s.contains x = true
  · have hAny : (s.elements.any fun y => s.comparator.compare x y == .eq) = true := by
      simp only [List.any_eq_true, beq_iff_eq]
      exact (contains_iff h hc).mp hx
    rw [insert, if_pos hx, insertSorted, if_pos hAny]
    exact ⟨rfl, h, rfl⟩
  · obtain ⟨hComparator, hw⟩ := h.insert hc x ()
    rw [insert, if_neg hx]
    refine ⟨hComparator, hw, ?_⟩
    rw [elements, ofMap, h.entries_insert hc, map_insertSorted]
    rfl

theorem erase_elements (h : s.map.WellFormed) (hc : s.comparator.Total) (x : α) :
    ∃ s', s.erase x = .ok s' ∧ s'.comparator = s.comparator ∧ s'.map.WellFormed ∧
      s'.elements = eraseSorted s.comparator x s.elements := by
  by_cases hx : s.contains x = true
  · obtain ⟨m', hm', hComparator, hw⟩ := h.erase hc x
    rw [erase, if_pos hx, hm']
    refine ⟨ofMap m', rfl, hComparator, hw, ?_⟩
    rw [elements, ofMap, h.entries_erase hc hm', map_eraseSorted]
    rfl
  · have hKept : eraseSorted s.comparator x s.elements = s.elements := by
      rw [eraseSorted, List.filter_eq_self]
      intro y hy
      simp only [bne_iff_ne]
      intro hk
      exact hx ((contains_iff h hc).mpr ⟨y, hy, hk⟩)
    rw [erase, if_neg hx]
    exact ⟨s, rfl, rfl, h, hKept.symm⟩

theorem Call.run_elements (call : Call α) (h : s.map.WellFormed) (hc : s.comparator.Total) :
    ∃ s', call.run s = .ok s' ∧ s'.comparator = s.comparator ∧ s'.map.WellFormed ∧
      s'.elements = call.reference s.comparator s.elements := by
  cases call with
  | insert x => exact ⟨_, rfl, insert_elements h hc x⟩
  | erase x => exact erase_elements h hc x

theorem run_elements (calls : List (Call α)) (h : s.map.WellFormed) (hc : s.comparator.Total) :
    ∃ s', run calls s = .ok s' ∧ s'.comparator = s.comparator ∧ s'.map.WellFormed ∧
      s'.elements = calls.foldl (Call.reference s.comparator) s.elements := by
  induction calls generalizing s with
  | nil => exact ⟨s, rfl, rfl, h, rfl⟩
  | cons call calls ih =>
    obtain ⟨s₁, h₁, hc₁, hw₁, he₁⟩ := call.run_elements h hc
    obtain ⟨s₂, h₂, hc₂, hw₂, he₂⟩ := ih hw₁ (hc₁ ▸ hc)
    refine ⟨s₂, ?_, hc₂.trans hc₁, hw₂, ?_⟩
    · rw [run, List.foldlM_cons, h₁, Result.bind_ok]
      exact h₂
    · rw [he₂, he₁, hc₁, List.foldl_cons]

end SortedSet

/-- Every history of the empty sorted map, and every one of the empty sorted set, succeeds, and is
answered from the list that the same changes make of the empty list. -/
theorem histories_list {κ ν : Type} {c : Comparator κ} (hc : c.Total) :
    (∀ calls : List (SortedMap.Call κ ν), ∃ m, SortedMap.run calls (.empty c) = .ok m ∧
      m.comparator = c ∧ m.Lists (SortedMap.reference c calls)) ∧
    ∀ calls : List (SortedSet.Call κ), ∃ s, SortedSet.run calls (.empty c) = .ok s ∧
      s.comparator = c ∧ s.Lists (SortedSet.reference c calls) := by
  constructor
  · intro calls
    obtain ⟨m, hm, rfl, hw, he⟩ :=
      SortedMap.run_entries calls (SortedMap.wellFormed_empty c) hc
    have hLists := hw.lists hc
    rw [he] at hLists
    exact ⟨m, hm, rfl, hLists⟩
  · intro calls
    obtain ⟨s, hs, rfl, hw, he⟩ :=
      SortedSet.run_elements (s := .empty c) calls (SortedMap.wellFormed_empty c) hc
    have hLists := SortedSet.lists_elements hw hc
    rw [he] at hLists
    exact ⟨s, hs, rfl, hLists⟩

/-- Opposite numbers are one key by magnitude. -/
theorem histories_list_byMagnitude : SortedMap.byMagnitude.Total ∧
    (∃ m : SortedMap Int Char, SortedMap.run
        [.insert (-3) 'a', .insert 3 'b', .insert 1 'c', .erase 2, .insert 4 'd', .erase (-4)]
        (.empty SortedMap.byMagnitude) = .ok m ∧ m.comparator = SortedMap.byMagnitude ∧
      m.Lists [(1, 'c'), (-3, 'b')]) ∧
    ∃ s : SortedSet Int, SortedSet.run
        [.insert (-3), .insert 3, .insert 1, .erase 2, .insert 4, .erase (-4)]
        (.empty SortedMap.byMagnitude) = .ok s ∧ s.comparator = SortedMap.byMagnitude ∧
      s.Lists [1, -3] := by
  obtain ⟨hMaps, hSets⟩ := histories_list (ν := Char) SortedMap.byMagnitude_total
  exact ⟨SortedMap.byMagnitude_total, hMaps _, hSets _⟩

end PersistentCollections
