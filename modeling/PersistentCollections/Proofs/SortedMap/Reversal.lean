import PersistentCollections.Proofs.SortedMap.Refinement
import PersistentCollections.Proofs.SortedMap.Traversal

/-!
# Sorted maps under the opposite comparator

The same changes under a comparator and under its opposite build trees that need not be mirror
images, as a removal mends the two sides by different rules. The sorted lists behind the trees are
reversed all the same (`reference_reversed`), and so is the direction in which a walk meets the
keys. Every answer of the one map is therefore an answer of the other in the opposite direction
(`Mirrors`). Under the opposite of the opposite the trees are the same, as only the label of the
comparator is another one (`run_relabelled`).
-/

namespace PersistentCollections.SortedMap

variable {κ ν : Type} {c : Comparator κ} {m r : SortedMap κ ν} {key : κ} {value : ν}
  {es : List (κ × ν)}

/-! ## The opposite comparator -/

/-- Keys are met in the opposite order in the opposite direction. -/
theorem toward_reversed (c : Comparator κ) (ascending : Bool) :
    toward c.reversed.compare ascending = toward c.compare !ascending := by
  cases ascending with
  | true => rfl
  | false => rfl

/-! ## Changes of a reversed list -/

section Trans

variable [Std.TransCmp c.compare]

/-- Equivalence does not depend on the direction. -/
theorem compare_reversed_eq_iff {a b : κ} :
    c.reversed.compare a b = .eq ↔ c.compare a b = .eq :=
  (Std.OrientedCmp.eq_comm : c.compare b a = .eq ↔ c.compare a b = .eq)

theorem overwrite_reversed : overwrite c.reversed key value = overwrite c key value := by
  funext e
  unfold overwrite
  simp only [compare_reversed_eq_iff]

theorem insertSorted_reversed :
    insertSorted c.reversed key value es.reverse = (insertSorted c key value es).reverse := by
  have hPresent : (es.reverse.any fun e => c.reversed.compare key e.1 == .eq) =
      es.any fun e => c.compare key e.1 == .eq := by
    rw [List.any_reverse, Bool.eq_iff_iff, any_equivalent_iff, any_equivalent_iff]
    simp only [compare_reversed_eq_iff]
  unfold insertSorted
  rw [hPresent, overwrite_reversed]
  split
  · exact List.map_reverse
  · rw [List.reverse_append, List.reverse_cons, List.append_assoc, List.filter_reverse,
      List.filter_reverse]
    rfl

theorem eraseSorted_reversed :
    eraseSorted c.reversed key es.reverse = (eraseSorted c key es).reverse := by
  have hAbsent (e : κ × ν) :
      (c.reversed.compare key e.1 != .eq) = (c.compare key e.1 != .eq) := by
    rw [Bool.eq_iff_iff, bne_iff_ne, bne_iff_ne, ne_eq, compare_reversed_eq_iff]
  unfold eraseSorted
  rw [List.filter_reverse]
  simp only [hAbsent]

theorem Call.reference_reversed (call : Call κ ν) :
    call.reference c.reversed es.reverse = (call.reference c es).reverse := by
  cases call with
  | insert key value => exact insertSorted_reversed
  | erase key => exact eraseSorted_reversed

/-- The same changes under the opposite comparator make the reversed list. -/
theorem reference_reversed (calls : List (Call κ ν)) :
    reference c.reversed calls = (reference c calls).reverse := by
  have hFold : ∀ es : List (κ × ν), calls.foldl (Call.reference c.reversed) es.reverse =
      (calls.foldl (Call.reference c) es).reverse := by
    induction calls with
    | nil => exact fun _ => rfl
    | cons call calls ih =>
      intro es
      rw [List.foldl_cons, call.reference_reversed, ih, List.foldl_cons]
  exact hFold []

end Trans

/-! ## Answers in the opposite direction -/

/-- Two maps answer alike, where they have a direction in opposite directions. -/
structure Mirrors (m r : SortedMap κ ν) : Prop where
  size : r.size = m.size
  entryAt? : ∀ key, r.entryAt? key = m.entryAt? key
  get? : ∀ key, r.get? key = m.get? key
  iter : ∃ es, m.iter.Gives es ∧ r.iter.Gives es.reverse
  toList : r.toList = m.toList.reverse
  first? : r.first? = m.last?
  last? : r.last? = m.first?
  /-- From an end of the map. -/
  cursor : ∀ ascending, ∃ es,
    Cursor.Walks (m.cursor ascending) es ∧ Cursor.Walks (r.cursor !ascending) es
  /-- From any key, be it in the maps or not. -/
  cursorAt : ∀ key ascending, ∃ es,
    Cursor.Walks (m.cursorAt key ascending) es ∧ Cursor.Walks (r.cursorAt key !ascending) es
  range : ∀ low high, (r.backRange high low).toList = (m.range low high).toList
  backRange : ∀ low high, (r.range high low).toList = (m.backRange low high).toList

/-- It is enough that the entries of the two trees are the same, in opposite orders. -/
theorem WellFormed.mirrors (hm : m.WellFormed) (hr : r.WellFormed) (hc : m.comparator.Total)
    (hComparator : r.comparator = m.comparator.reversed)
    (hEntries : r.root.entries = m.root.entries.reverse) : Mirrors m r := by
  have := hc.transCmp
  have hc' : r.comparator.Total := hComparator ▸ hc.reversed
  have hAlong (ascending : Bool) : r.root.along (!ascending) = m.root.along ascending := by
    cases ascending with
    | true => rw [Bool.not_true, Tree.along_false, hEntries, List.reverse_reverse, Tree.along_true]
    | false => exact hEntries
  have hToward (ascending : Bool) :
      toward r.comparator.compare (!ascending) = toward m.comparator.compare ascending := by
    rw [hComparator, toward_reversed, Bool.not_not]
  have hEntryAt (key : κ) : r.entryAt? key = m.entryAt? key := by
    ext e
    rw [hr.entryAt?_eq_some_iff hc', hm.entryAt?_eq_some_iff hc, hEntries, List.mem_reverse,
      hComparator, compare_reversed_eq_iff]
  have hBetween (start stop : Bound κ) (ascending : Bool) :
      (Range.between r start stop !ascending).toList =
        (Range.between m start stop ascending).toList := by
    rw [hr.toList_between hc', hm.toList_between hc, hAlong, hToward]
  have hBack : r.iter.Gives m.root.entries.reverse := hEntries ▸ hr.iter_gives
  refine ⟨?_, hEntryAt, ?_, ⟨_, hm.iter_gives, hBack⟩, ?_, ?_, ?_, ?_, ?_, ?_, ?_⟩
  · rw [hr.size, hm.size, hEntries, List.length_reverse]
  · intro key
    exact congrArg _ (hEntryAt key)
  · rw [toList_eq_entries, toList_eq_entries, hEntries]
  · rw [(hr.lists hc').first?, (hm.lists hc).last?, hEntries, List.head?_reverse]
  · rw [(hr.lists hc').last?, (hm.lists hc).first?, hEntries, List.getLast?_reverse]
  · intro ascending
    have hWalks := hr.walks_cursor !ascending
    rw [hAlong] at hWalks
    exact ⟨_, hm.walks_cursor ascending, hWalks⟩
  · intro key ascending
    have hWalks := hr.walks_cursorAt hc' key !ascending
    rw [hAlong, hToward] at hWalks
    exact ⟨_, hm.walks_cursorAt hc key ascending, hWalks⟩
  · exact fun low high => hBetween low high true
  · exact fun low high => hBetween high low false

/-! ## Another label -/

/-- The same map with a comparator that is shown differently. -/
def relabelled (label : String) (m : SortedMap κ ν) : SortedMap κ ν :=
  { m with comparator := { m.comparator with label } }

theorem Call.run_relabelled (label : String) (call : Call κ ν) (m : SortedMap κ ν) :
    call.run (m.relabelled label) = relabelled label <$> call.run m := by
  obtain ⟨comparator, root, size, cache⟩ := m
  cases call with
  | insert key value =>
    show Except.ok (SortedMap.insert _ key value) = .ok (relabelled label (SortedMap.insert _ _ _))
    simp only [SortedMap.insert, relabelled]
    cases root.add? comparator.compare (key, value) with
    | some root' => rfl
    | none => cases root <;> rfl
  | erase key =>
    show SortedMap.erase _ key = relabelled label <$> SortedMap.erase _ key
    simp only [SortedMap.erase, relabelled]
    cases root.erase? comparator.compare key with
    | error e => rfl
    | ok o =>
      cases o with
      | none => rfl
      | some root' => cases size <;> rfl

/-- No change depends on how the comparator is shown. -/
theorem run_relabelled (label : String) (calls : List (Call κ ν)) (m : SortedMap κ ν) :
    run calls (m.relabelled label) = relabelled label <$> run calls m := by
  induction calls generalizing m with
  | nil => rfl
  | cons call calls ih =>
    rw [run, run, List.foldlM_cons, List.foldlM_cons, call.run_relabelled]
    cases call.run m with
    | error e => rfl
    | ok m' => exact ih m'

/-- Two maps give the same answers, in the same directions. -/
structure Coincides (m r : SortedMap κ ν) : Prop where
  size : r.size = m.size
  entryAt? : ∀ key, r.entryAt? key = m.entryAt? key
  get? : ∀ key, r.get? key = m.get? key
  iter : r.iter = m.iter
  toList : r.toList = m.toList
  first? : r.first? = m.first?
  last? : r.last? = m.last?
  cursor : ∀ ascending, r.cursor ascending = m.cursor ascending
  cursorAt : ∀ key ascending, r.cursorAt key ascending = m.cursorAt key ascending
  range : ∀ low high, r.range low high = m.range low high
  backRange : ∀ low high, r.backRange low high = m.backRange low high

theorem coincides_relabelled (label : String) (m : SortedMap κ ν) :
    Coincides m (m.relabelled label) where
  size := rfl
  entryAt? _ := rfl
  get? _ := rfl
  iter := rfl
  toList := rfl
  first? := rfl
  last? := rfl
  cursor _ := rfl
  cursorAt _ _ := rfl
  range _ _ := rfl
  backRange _ _ := rfl

/-! ## Histories -/

/-- The same history under a total comparator, its opposite and the opposite of that succeeds each
time. The second map mirrors the first, and the third coincides with it. -/
theorem run_reversed (hc : c.Total) (calls : List (Call κ ν)) :
    ∃ m r again, run calls (.empty c) = .ok m ∧ run calls (.empty c.reversed) = .ok r ∧
      run calls (.empty c.reversed.reversed) = .ok again ∧ Mirrors m r ∧ Coincides m again := by
  have := hc.transCmp
  obtain ⟨m, hRun, rfl, hm, hEntries⟩ := run_entries calls (wellFormed_empty c) hc
  obtain ⟨r, hBack, hComparator, hr, hBackEntries⟩ :=
    run_entries calls (wellFormed_empty m.comparator.reversed) hc.reversed
  have hAgain : run calls (.empty m.comparator.reversed.reversed) =
      .ok (m.relabelled m.comparator.reversed.reversed.label) := by
    have hRelabelled :=
      run_relabelled m.comparator.reversed.reversed.label calls (.empty m.comparator)
    rw [hRun] at hRelabelled
    exact hRelabelled
  have hReversed : r.root.entries = m.root.entries.reverse := by
    rw [hEntries, hBackEntries]
    exact reference_reversed calls
  exact ⟨m, r, _, hRun, hBack, hAgain, hm.mirrors hr hc hComparator hReversed,
    coincides_relabelled _ m⟩

/-- Three entries, of which the middle one is overwritten and taken out. -/
def middleRemoved : List (Call Int Char) :=
  [.insert 1 'a', .insert (-2) 'b', .insert 3 'c', .insert 2 'd', .erase 2]

theorem run_reversed_middleRemoved : byMagnitude.Total ∧
    ∃ m r again, run middleRemoved (.empty byMagnitude) = .ok m ∧
      run middleRemoved (.empty byMagnitude.reversed) = .ok r ∧
      run middleRemoved (.empty byMagnitude.reversed.reversed) = .ok again ∧
      Mirrors m r ∧ Coincides m again :=
  ⟨byMagnitude_total, run_reversed byMagnitude_total middleRemoved⟩

/-- Both removals leave a red node on the right. -/
example : (run middleRemoved (.empty byMagnitude)).toOption.map (·.root.paths) =
      some [[.black], [.black, .red], [.black, .red]] ∧
    (run middleRemoved (.empty byMagnitude.reversed)).toOption.map (·.root.paths) =
      some [[.black], [.black, .red], [.black, .red]] := by
  constructor
  · cbv
  · cbv

end PersistentCollections.SortedMap
