import PersistentCollections.Proofs.Lists
import PersistentCollections.Proofs.SortedMap.History
import PersistentCollections.Proofs.SortedMap.Walk
import PersistentCollections.SortedSet

/-!
# Sorted maps and sets as sorted lists

The reference for a sorted map is the list of its entries, where two keys are one if the comparator
takes them for equivalent. An insertion among equivalent keys exchanges the value and leaves the
stored key; any other puts its entry between the smaller and the greater keys. A removal leaves out
the equivalent entry. `Lists` says that everything that can be asked of a map is answered from such
a list, and it holds of every history of the empty map and the same history of the empty list. Sets
are maps to nothing, and do the same with their elements.
-/

namespace PersistentCollections

namespace SortedMap

variable {κ ν : Type} {c : Comparator κ} {m : SortedMap κ ν} {key : κ} {value : ν}
  {es es' : List (κ × ν)}

/-! ## The reference -/

/-- Give the entry with an equivalent key another value. -/
def overwrite (c : Comparator κ) (key : κ) (value : ν) (e : κ × ν) : κ × ν :=
  if c.compare key e.1 = .eq then (e.1, value) else e

def insertSorted (c : Comparator κ) (key : κ) (value : ν) (es : List (κ × ν)) : List (κ × ν) :=
  if es.any fun e => c.compare key e.1 == .eq then es.map (overwrite c key value)
  else (es.filter fun e => c.compare e.1 key == .lt) ++
    (key, value) :: es.filter fun e => c.compare key e.1 == .lt

def eraseSorted (c : Comparator κ) (key : κ) (es : List (κ × ν)) : List (κ × ν) :=
  es.filter fun e => c.compare key e.1 != .eq

def Call.reference (c : Comparator κ) (es : List (κ × ν)) : Call κ ν → List (κ × ν)
  | .insert key value => insertSorted c key value es
  | .erase key => eraseSorted c key es

/-- The list that the same changes make of the empty list. -/
def reference (c : Comparator κ) (calls : List (Call κ ν)) : List (κ × ν) :=
  calls.foldl (Call.reference c) []

/-- Everything that can be asked of a map is answered from a list of entries. -/
structure Lists (m : SortedMap κ ν) (es : List (κ × ν)) : Prop where
  toList : m.toList = es
  ascending : Ascending m.comparator.compare es
  size : m.size = es.length
  isEmpty : m.isEmpty = true ↔ es = []
  entryAt? : ∀ key e, m.entryAt? key = some e ↔ e ∈ es ∧ m.comparator.compare key e.1 = .eq
  get? : ∀ key value, m.get? key = some value ↔
    ∃ stored, (stored, value) ∈ es ∧ m.comparator.compare key stored = .eq
  contains : ∀ key, m.contains key = true ↔ ∃ e ∈ es, m.comparator.compare key e.1 = .eq
  first? : m.first? = es.head?
  last? : m.last? = es.getLast?
  eraseAbsent : ∀ key, (∀ e ∈ es, m.comparator.compare key e.1 ≠ .eq) → m.erase key = .ok m

/-! ## Changes of a list -/

theorem any_equivalent_iff :
    (es.any fun e => c.compare key e.1 == .eq) = true ↔ ∃ e ∈ es, c.compare key e.1 = .eq := by
  simp only [List.any_eq_true, beq_iff_eq]

theorem overwrite_of_ne {e : κ × ν} (h : c.compare key e.1 ≠ .eq) :
    overwrite c key value e = e := by
  unfold overwrite
  exact if_neg h

theorem map_overwrite_of_ne (h : ∀ e ∈ es, c.compare key e.1 ≠ .eq) :
    es.map (overwrite c key value) = es := by
  rw [List.map_congr_left fun e he => overwrite_of_ne (h e he), List.map_id']

/-- Another value changes no key. -/
theorem keys_map_overwrite (c : Comparator κ) (key : κ) (value : ν) (es : List (κ × ν)) :
    (es.map (overwrite c key value)).map (·.1) = es.map (·.1) := by
  rw [List.map_map]
  apply List.map_congr_left
  intro e _
  unfold Function.comp overwrite
  split
  · rfl
  · rfl

theorem eraseSorted_of_ne (h : ∀ e ∈ es, c.compare key e.1 ≠ .eq) :
    eraseSorted c key es = es := by
  rw [eraseSorted, List.filter_eq_self]
  intro e he
  simp [h e he]

section Trans

variable [Std.TransCmp c.compare]

theorem Adds.eq_insertSorted (h : Adds c.compare (key, value) es es') :
    insertSorted c key value es = es' := by
  cases h with
  | @intro before after h =>
    have hNone : ¬ ((before ++ after).any fun e => c.compare key e.1 == .eq) = true := by
      rw [any_equivalent_iff]
      rintro ⟨e, he, hk⟩
      exact h.not_equivalent e he hk
    have hBefore : (before ++ after).filter (fun e => c.compare e.1 key == .lt) = before := by
      apply filter_append_left
      · intro e he
        simp [h.below e he]
      · intro e he
        simp [Std.OrientedCmp.gt_of_lt (h.above e he)]
    have hAfter : (before ++ after).filter (fun e => c.compare key e.1 == .lt) = after := by
      apply filter_append_right
      · intro e he
        simp [Std.OrientedCmp.gt_of_lt (h.below e he)]
      · intro e he
        simp [h.above e he]
    rw [insertSorted, if_neg hNone, hBefore, hAfter]

theorem Drops.eq_eraseSorted (h : Drops c.compare key es es') : eraseSorted c key es = es' := by
  cases h with
  | @intro before after x h hx =>
    have hKept := eraseSorted_of_ne h.not_equivalent
    rw [eraseSorted, List.filter_append] at hKept
    rw [eraseSorted, List.filter_append, List.filter_cons_of_neg, hKept]
    simp [hx]

end Trans

/-! ## Changes of a tree -/

namespace Tree

variable {t t' l r : Tree κ ν}

theorem entries_setValue [Std.TransCmp c.compare] (hs : Ascending c.compare t.entries) (key : κ)
    (value : ν) :
    (t.setValue c.compare key value).entries = t.entries.map (overwrite c key value) := by
  induction t with
  | nil => rfl
  | node color l x r ihl ihr =>
    obtain ⟨hl, hr, hx⟩ := ascending_append_cons.mp hs
    rw [setValue, entries, List.map_append, List.map_cons]
    cases hk : c.compare key x.1 with
    | eq =>
      have hOthers := (hx.congr hk).not_equivalent
      have hLeft : l.entries.map (overwrite c key value) = l.entries :=
        map_overwrite_of_ne fun e he => hOthers e (List.mem_append_left _ he)
      have hRight : r.entries.map (overwrite c key value) = r.entries :=
        map_overwrite_of_ne fun e he => hOthers e (List.mem_append_right _ he)
      rw [hLeft, hRight, overwrite, if_pos hk]
      rfl
    | lt =>
      have hRight : (x :: r.entries).map (overwrite c key value) = x :: r.entries :=
        map_overwrite_of_ne (hx.not_equivalent_of_lt hk)
      rw [← List.map_cons, hRight, ← ihl hl]
      rfl
    | gt =>
      have hLeft : (l.entries ++ [x]).map (overwrite c key value) = l.entries ++ [x] :=
        map_overwrite_of_ne (hx.not_equivalent_of_gt hk)
      rw [List.map_append] at hLeft
      obtain ⟨hFirst, hLast⟩ := List.append_inj' hLeft rfl
      rw [hFirst, (List.cons.inj hLast).1, ← ihr hr]
      rfl

/-- A removal and a search follow the same keys. -/
theorem erase?_eq_none_iff {cmp : κ → κ → Ordering} :
    erase? cmp key t = .ok none ↔ t.find? cmp key = none := by
  have hSome : ∀ x : Result (Tree κ ν), ¬ some <$> x = .ok none := by
    intro x h
    obtain ⟨t, -, ht⟩ := Result.map_eq_ok.mp h
    cases ht
  induction t with
  | nil =>
    rw [erase?, find?]
    exact iff_of_true rfl rfl
  | node color l x r ihl ihr =>
    rw [erase?, find?]
    cases cmp key x.1 with
    | eq => exact iff_of_false (hSome _) (Option.some_ne_none x)
    | lt =>
      refine (Result.bind_eq_none (by rfl) fun l' h => ?_).trans ihl
      simp only at h
      split at h
      · exact hSome _ h
      · cases h
    | gt =>
      refine (Result.bind_eq_none (by rfl) fun r' h => ?_).trans ihr
      simp only at h
      split at h
      · exact hSome _ h
      · cases h

end Tree

/-! ## Changes of a map -/

theorem WellFormed.entryAt?_eq_some_iff (h : m.WellFormed) (hc : m.comparator.Total) {e : κ × ν} :
    m.entryAt? key = some e ↔ e ∈ m.root.entries ∧ m.comparator.compare key e.1 = .eq := by
  have := hc.transCmp
  exact Tree.find?_eq_some_iff h.ascending

theorem WellFormed.entryAt?_eq_none_iff (h : m.WellFormed) (hc : m.comparator.Total) :
    m.entryAt? key = none ↔ ∀ e ∈ m.root.entries, m.comparator.compare key e.1 ≠ .eq := by
  rw [Option.eq_none_iff_forall_ne_some]
  constructor
  · intro hNone e he hk
    exact hNone e ((h.entryAt?_eq_some_iff hc).mpr ⟨he, hk⟩)
  · intro hNone e he
    obtain ⟨hm, hk⟩ := (h.entryAt?_eq_some_iff hc).mp he
    exact hNone e hm hk

theorem WellFormed.entries_insert (h : m.WellFormed) (hc : m.comparator.Total) (key : κ)
    (value : ν) :
    (m.insert key value).root.entries = insertSorted m.comparator key value m.root.entries := by
  have := hc.transCmp
  rcases Tree.add?_entries (key, value) h.ascending with ⟨root, hRoot, hAdds⟩ | ⟨hNone, hPresent⟩
  · rw [insert_of_add hRoot, hAdds.eq_insertSorted]
    exact Tree.entries_blacken root
  · rw [insert_of_present hNone, insertSorted, if_pos (any_equivalent_iff.mpr hPresent)]
    exact Tree.entries_setValue h.ascending key value

/-- A removal leaves out the equivalent entry. Without one it gives the same map. -/
theorem WellFormed.entries_erase (h : m.WellFormed) (hc : m.comparator.Total) {m' : SortedMap κ ν}
    (hErase : m.erase key = .ok m') :
    m'.root.entries = eraseSorted m.comparator key m.root.entries := by
  have := hc.transCmp
  obtain ⟨o, ho, hRest⟩ := Result.bind_eq_ok.mp hErase
  cases o with
  | none =>
    cases hRest
    rw [eraseSorted_of_ne ((h.entryAt?_eq_none_iff hc).mp (Tree.erase?_eq_none_iff.mp ho))]
  | some root =>
    simp only at hRest
    split at hRest
    · cases hRest
    · cases hRest
      rw [(Tree.erase?_entries h.ascending ho).eq_eraseSorted]
      exact Tree.entries_blacken root

theorem WellFormed.erase_absent (h : m.WellFormed) (hc : m.comparator.Total)
    (hAbsent : ∀ e ∈ m.root.entries, m.comparator.compare key e.1 ≠ .eq) :
    m.erase key = .ok m := by
  have hNone : m.root.erase? m.comparator.compare key = .ok none :=
    Tree.erase?_eq_none_iff.mpr ((h.entryAt?_eq_none_iff hc).mpr hAbsent)
  rw [SortedMap.erase, hNone]
  rfl

/-- A well-formed map is answered from the entries of its tree. -/
theorem WellFormed.lists (h : m.WellFormed) (hc : m.comparator.Total) :
    Lists m m.root.entries where
  toList := toList_eq_entries m
  ascending := h.ascending
  size := h.size
  isEmpty := by
    rw [SortedMap.isEmpty, beq_iff_eq, h.size, List.length_eq_zero_iff]
  entryAt? key e := h.entryAt?_eq_some_iff hc
  get? key value := by
    simp only [SortedMap.get?, Option.map_eq_some_iff, h.entryAt?_eq_some_iff hc]
    constructor
    · rintro ⟨⟨stored, _⟩, he, rfl⟩
      exact ⟨stored, he⟩
    · rintro ⟨stored, he⟩
      exact ⟨(stored, value), he, rfl⟩
  contains key := by
    simp only [SortedMap.contains, Option.isSome_iff_exists, h.entryAt?_eq_some_iff hc]
  first? := Tree.first?_eq m.root
  last? := Tree.last?_eq m.root
  eraseAbsent key := h.erase_absent hc

theorem Call.run_entries (call : Call κ ν) (h : m.WellFormed) (hc : m.comparator.Total) :
    ∃ m', call.run m = .ok m' ∧ m'.comparator = m.comparator ∧ m'.WellFormed ∧
      m'.root.entries = call.reference m.comparator m.root.entries := by
  cases call with
  | insert key value =>
    obtain ⟨hComparator, hw⟩ := h.insert hc key value
    exact ⟨_, rfl, hComparator, hw, h.entries_insert hc key value⟩
  | erase key =>
    obtain ⟨m', hm', hComparator, hw⟩ := h.erase hc key
    exact ⟨m', hm', hComparator, hw, h.entries_erase hc hm'⟩

theorem run_entries (calls : List (Call κ ν)) (h : m.WellFormed) (hc : m.comparator.Total) :
    ∃ m', run calls m = .ok m' ∧ m'.comparator = m.comparator ∧ m'.WellFormed ∧
      m'.root.entries = calls.foldl (Call.reference m.comparator) m.root.entries := by
  induction calls generalizing m with
  | nil => exact ⟨m, rfl, rfl, h, rfl⟩
  | cons call calls ih =>
    obtain ⟨m₁, h₁, hc₁, hw₁, he₁⟩ := call.run_entries h hc
    obtain ⟨m₂, h₂, hc₂, hw₂, he₂⟩ := ih hw₁ (hc₁ ▸ hc)
    refine ⟨m₂, ?_, hc₂.trans hc₁, hw₂, ?_⟩
    · rw [run, List.foldlM_cons, h₁, Result.bind_ok]
      exact h₂
    · rw [he₂, he₁, hc₁, List.foldl_cons]

end SortedMap

end PersistentCollections
