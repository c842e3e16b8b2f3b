import PersistentCollections.Proofs.SortedMap.Order
import PersistentCollections.SortedMap.Basic

/-!
# Histories of a sorted map

`SortedMap.WellFormed` is the invariant of a sorted map: a red-black tree with a black root,
strictly ascending keys and the right size. With a total comparator the empty map has it, an
insertion keeps it, and a removal succeeds and keeps it, so it holds after every history
(`run_wellFormed`).
`Sound` says what it means for the paths and the keys of the tree (`WellFormed.sound`).
-/

namespace PersistentCollections.SortedMap

variable {κ ν : Type} {c : Comparator κ} {m : SortedMap κ ν}

/-! ## Invariants -/

/-- The invariant of a sorted map. -/
structure WellFormed (m : SortedMap κ ν) : Prop where
  balanced : ∃ n, m.root.RedBlack n .black
  ascending : Ascending m.comparator.compare m.root.entries
  size : m.size = m.root.entries.length

/-- The laws of a red-black search tree, path by path and key by key. -/
structure Sound (m : SortedMap κ ν) : Prop where
  rootBlack : m.root.isRed = false
  noRedRed : m.root.NoRedRed
  sameBlacks : m.root.SameBlacks
  ascending : (m.root.entries.map (·.1)).Pairwise fun a b => m.comparator.compare a b = .lt
  size : m.root.size = m.size

theorem WellFormed.sound (h : m.WellFormed) : m.Sound := by
  obtain ⟨n, hn⟩ := h.balanced
  refine ⟨hn.isRed_eq, hn.noRedRed, ⟨n, hn.count_black⟩, ?_, ?_⟩
  · exact ascending_iff_keys.mp h.ascending
  · rw [Tree.size_eq_length, h.size]

theorem WellFormed.height_le (h : m.WellFormed) :
    ∀ p ∈ m.root.paths, p.length ≤ 2 * Nat.log 2 (m.size + 1) := by
  obtain ⟨n, hn⟩ := h.balanced
  rw [h.size, ← Tree.size_eq_length]
  exact hn.height_le

theorem wellFormed_empty (c : Comparator κ) : (SortedMap.empty c : SortedMap κ ν).WellFormed :=
  ⟨⟨0, .nil⟩, List.Pairwise.nil, rfl⟩

/-! ## One call -/

theorem insert_of_add {key : κ} {value : ν} {root : Tree κ ν}
    (h : m.root.add? m.comparator.compare (key, value) = some root) :
    m.insert key value = ⟨m.comparator, root.blacken, m.size + 1, none⟩ := by
  rw [insert, h]

theorem insert_of_present {key : κ} {value : ν}
    (h : m.root.add? m.comparator.compare (key, value) = none) :
    m.insert key value =
      ⟨m.comparator, m.root.setValue m.comparator.compare key value, m.size, none⟩ := by
  obtain ⟨comparator, root, size, cache⟩ := m
  cases root with
  | nil => cases h
  | node color l x r =>
    simp only at h
    simp only [insert, h]

/-- An insertion adds an entry, or exchanges one value. -/
theorem WellFormed.insert (h : m.WellFormed) (hc : m.comparator.Total) (key : κ) (value : ν) :
    (m.insert key value).comparator = m.comparator ∧ (m.insert key value).WellFormed := by
  have := hc.transCmp
  obtain ⟨n, hn⟩ := h.balanced
  rcases Tree.add?_entries (key, value) h.ascending with ⟨root, hRoot, hAdds⟩ | ⟨hNone, -⟩
  · obtain ⟨c', hc'⟩ := (Tree.add?_spec hn hRoot).2 rfl
    rw [insert_of_add hRoot]
    refine ⟨rfl, (Tree.Loose.tight hc').blacken, ?_, ?_⟩
    · rw [Tree.entries_blacken]
      exact hAdds.ascending h.ascending
    · rw [Tree.entries_blacken, hAdds.length, ← h.size]
  · have hLength := congrArg List.length
      (Tree.keys_setValue m.comparator.compare key value m.root)
    rw [List.length_map, List.length_map] at hLength
    rw [insert_of_present hNone]
    refine ⟨rfl, ⟨n, hn.setValue⟩, Tree.ascending_setValue h.ascending key value, ?_⟩
    rw [hLength, ← h.size]

/-- A removal succeeds: it takes out one entry, or leaves the map as it is. -/
theorem WellFormed.erase (h : m.WellFormed) (hc : m.comparator.Total) (key : κ) :
    ∃ m', m.erase key = .ok m' ∧ m'.comparator = m.comparator ∧ m'.WellFormed := by
  have := hc.transCmp
  obtain ⟨n, hn⟩ := h.balanced
  obtain ⟨o, ho, hSome⟩ := Tree.erase?_spec m.comparator.compare key hn
  rw [SortedMap.erase, ho, Result.bind_ok]
  cases o with
  | none => exact ⟨m, rfl, rfl, h⟩
  | some root =>
    have hDrops := Tree.erase?_entries h.ascending ho
    have hLength := hDrops.length
    have hSize := h.size
    have hPos : ¬ m.size = 0 := by omega
    simp only [hPos, if_false]
    refine ⟨_, rfl, rfl, (hSome root rfl).blacken, ?_, ?_⟩
    · rw [Tree.entries_blacken]
      exact hDrops.ascending h.ascending
    · rw [Tree.entries_blacken]
      show m.size - 1 = _
      omega

/-! ## Histories -/

/-- The changes of a sorted map. -/
inductive Call (κ ν : Type) where
  | insert (key : κ) (value : ν)
  | erase (key : κ)

def Call.run (m : SortedMap κ ν) : Call κ ν → Result (SortedMap κ ν)
  | .insert key value => .ok (m.insert key value)
  | .erase key => m.erase key

/-- Make changes in order. -/
def run (calls : List (Call κ ν)) (m : SortedMap κ ν) : Result (SortedMap κ ν) :=
  calls.foldlM Call.run m

theorem Call.run_wellFormed (call : Call κ ν) (h : m.WellFormed) (hc : m.comparator.Total) :
    ∃ m', call.run m = .ok m' ∧ m'.comparator = m.comparator ∧ m'.WellFormed := by
  cases call with
  | insert key value => exact ⟨_, rfl, h.insert hc key value⟩
  | erase key => exact h.erase hc key

theorem run_wellFormed (calls : List (Call κ ν)) (h : m.WellFormed) (hc : m.comparator.Total) :
    ∃ m', run calls m = .ok m' ∧ m'.comparator = m.comparator ∧ m'.WellFormed := by
  induction calls generalizing m with
  | nil => exact ⟨m, rfl, rfl, h⟩
  | cons call calls ih =>
    obtain ⟨m₁, h₁, hc₁, hw₁⟩ := call.run_wellFormed h hc
    obtain ⟨m₂, h₂, hc₂, hw₂⟩ := ih hw₁ (hc₁ ▸ hc)
    refine ⟨m₂, ?_, hc₂.trans hc₁, hw₂⟩
    rw [run, List.foldlM_cons, h₁, Result.bind_ok]
    exact h₂

/-- Every history of the empty map succeeds, whatever is inserted and removed in which order, and
leads to a red-black search tree with its low paths. -/
theorem run_sound (hc : c.Total) (calls : List (Call κ ν)) :
    ∃ m, run calls (SortedMap.empty c) = .ok m ∧ m.comparator = c ∧ m.Sound ∧
      ∀ p ∈ m.root.paths, p.length ≤ 2 * Nat.log 2 (m.size + 1) := by
  obtain ⟨m, hm, hComparator, hw⟩ := run_wellFormed calls (wellFormed_empty c) hc
  exact ⟨m, hm, hComparator, hw.sound, hw.height_le⟩

/-- Integers by magnitude, an order that takes opposite numbers for one key. -/
def byMagnitude : Comparator Int := .byFunction (compareOn Int.natAbs)

theorem byMagnitude_total : byMagnitude.Total :=
  Comparator.total_of_transCmp (inferInstanceAs (Std.TransCmp (compareOn Int.natAbs)))

theorem run_sound_byMagnitude : byMagnitude.Total ∧
    ∃ m : SortedMap Int Char,
      run [.insert 3 'a', .insert 1 'b', .insert (-3) 'c', .erase 2, .erase (-1)]
        (SortedMap.empty byMagnitude) = .ok m ∧ m.comparator = byMagnitude ∧ m.Sound ∧
      ∀ p ∈ m.root.paths, p.length ≤ 2 * Nat.log 2 (m.size + 1) :=
  ⟨byMagnitude_total, run_sound byMagnitude_total _⟩

end PersistentCollections.SortedMap
