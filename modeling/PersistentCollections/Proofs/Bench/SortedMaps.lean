import PersistentCollections.Proofs.Bench.Maps
import PersistentCollections.Proofs.SortedMap.Range
import PersistentCollections.Proofs.SortedMap.Refinement

/-!
# Churning sorted maps

The reference for the churn of a sorted map is an association list with strictly ascending keys
(`Table`). Here the order of the entries counts: a range and a snapshot are mixed in entry by entry.
So a store that simulates another lists the very same entries in the same order, in the whole and
within every range.
-/

namespace PersistentCollections.Bench

/-! ## Sorted association lists -/

/-- A list of entries with strictly ascending keys. -/
structure Table where
  entries : List (UInt64 × UInt64)
  ascending : entries.Pairwise fun a b => a.1 < b.1

namespace Table

variable {t : Table} {key value : UInt64} {e : UInt64 × UInt64}

def empty : Table := ⟨[], List.Pairwise.nil⟩

/-- Put an entry between the smaller keys and the greater ones. -/
def insert (t : Table) (key value : UInt64) : Table where
  entries := t.entries.filter (·.1 < key) ++ (key, value) :: t.entries.filter (key < ·.1)
  ascending := by
    refine List.pairwise_append.mpr ⟨t.ascending.sublist List.filter_sublist,
      List.pairwise_cons.mpr ⟨?_, t.ascending.sublist List.filter_sublist⟩, ?_⟩
    · intro b hb
      simpa using (List.mem_filter.mp hb).2
    · intro a ha b hb
      have haKey : a.1 < key := by simpa using (List.mem_filter.mp ha).2
      rcases List.mem_cons.mp hb with rfl | hb
      · exact haKey
      · have hbKey : key < b.1 := by simpa using (List.mem_filter.mp hb).2
        exact UInt64.lt_trans haKey hbKey

def erase (t : Table) (key : UInt64) : Table :=
  ⟨t.entries.filter (·.1 ≠ key), t.ascending.sublist List.filter_sublist⟩

def get? (t : Table) (key : UInt64) : Option UInt64 := t.entries.lookup key

/-- The entries with keys from `low` to `high`, both included. -/
def range (t : Table) (low high : UInt64) : List (UInt64 × UInt64) :=
  t.entries.filter fun e => low ≤ e.1 ∧ e.1 ≤ high

/-- What stands around an entry. -/
theorem exists_around (h : e ∈ t.entries) : ∃ before after, t.entries = before ++ e :: after ∧
    (∀ a ∈ before, a.1 < e.1) ∧ ∀ a ∈ after, e.1 < a.1 := by
  obtain ⟨before, after, hEntries⟩ := List.append_of_mem h
  have hAscending := t.ascending
  rw [hEntries, List.pairwise_append, List.pairwise_cons] at hAscending
  obtain ⟨-, ⟨hAfter, -⟩, hBefore⟩ := hAscending
  exact ⟨before, after, hEntries, fun a ha => hBefore a ha e List.mem_cons_self, hAfter⟩

theorem get?_eq_some_iff : t.get? key = some value ↔ (key, value) ∈ t.entries := by
  rw [get?, List.lookup_eq_some_iff]
  constructor
  · rintro ⟨before, after, hEntries, -⟩
    rw [hEntries]
    exact List.mem_append_right _ List.mem_cons_self
  · intro hMem
    obtain ⟨before, after, hEntries, hBefore, -⟩ := exists_around hMem
    refine ⟨before, after, hEntries, fun a ha => ?_⟩
    exact bne_iff_ne.mpr (UInt64.ne_of_lt (hBefore a ha)).symm

/-- An insertion takes the place of the entry with its key, if there is one. -/
theorem insert_present {before after : List (UInt64 × UInt64)}
    (hEntries : t.entries = before ++ e :: after) (hBefore : ∀ a ∈ before, a.1 < e.1)
    (hAfter : ∀ a ∈ after, e.1 < a.1) :
    (t.insert e.1 value).entries = before ++ (e.1, value) :: after := by
  have hLess : (before ++ e :: after).filter (fun a => a.1 < e.1) = before := by
    apply filter_append_left
    · intro a ha
      simpa using hBefore a ha
    · intro a ha
      rcases List.mem_cons.mp ha with rfl | ha
      · simp
      · simpa using UInt64.le_of_lt (hAfter a ha)
  have hMore : (before ++ e :: after).filter (fun a => e.1 < a.1) = after := by
    rw [List.append_cons]
    apply filter_append_right
    · intro a ha
      rcases List.mem_append.mp ha with ha | ha
      · simpa using UInt64.le_of_lt (hBefore a ha)
      · simp [List.mem_singleton.mp ha]
    · intro a ha
      simpa using hAfter a ha
  show List.filter _ t.entries ++ _ :: List.filter _ t.entries = _
  rw [hEntries, hLess, hMore]

/-- The natural order takes only equal keys for equivalent. -/
theorem insertSorted_entries (t : Table) (key value : UInt64) :
    SortedMap.insertSorted .natural key value t.entries = (t.insert key value).entries := by
  unfold SortedMap.insertSorted
  split
  · next hPresent =>
    obtain ⟨⟨key', old⟩, hMem, hKey⟩ := SortedMap.any_equivalent_iff.mp hPresent
    have hSame : key = key' := Std.compare_eq_iff_eq.mp hKey
    subst hSame
    obtain ⟨before, after, hEntries, hBefore, hAfter⟩ := exists_around hMem
    have hFirst : before.map (SortedMap.overwrite .natural key value) = before :=
      SortedMap.map_overwrite_of_ne fun a ha hk =>
        UInt64.ne_of_lt (hBefore a ha) (Std.compare_eq_iff_eq.mp hk).symm
    have hLast : after.map (SortedMap.overwrite .natural key value) = after :=
      SortedMap.map_overwrite_of_ne fun a ha hk =>
        UInt64.ne_of_lt (hAfter a ha) (Std.compare_eq_iff_eq.mp hk)
    have hHere : SortedMap.overwrite .natural key value (key, old) = (key, value) := if_pos hKey
    rw [insert_present hEntries hBefore hAfter, hEntries, List.map_append, List.map_cons, hFirst,
      hLast, hHere]
  · have hBelow : t.entries.filter (fun e => compare e.1 key == .lt) =
        t.entries.filter (·.1 < key) :=
      List.filter_congr fun e _ => by
        rw [Bool.eq_iff_iff, beq_iff_eq, decide_eq_true_iff, Std.compare_eq_lt]
    have hAbove : t.entries.filter (fun e => compare key e.1 == .lt) =
        t.entries.filter (key < ·.1) :=
      List.filter_congr fun e _ => by
        rw [Bool.eq_iff_iff, beq_iff_eq, decide_eq_true_iff, Std.compare_eq_lt]
    exact congrArg₂ _ hBelow (congrArg _ hAbove)

theorem eraseSorted_entries (t : Table) (key : UInt64) :
    SortedMap.eraseSorted .natural key t.entries = (t.erase key).entries := by
  apply List.filter_congr
  intro e _
  rw [Bool.eq_iff_iff, bne_iff_ne, decide_eq_true_iff]
  exact not_congr (Std.compare_eq_iff_eq.trans eq_comm)

end Table

/-! ## Runs -/

namespace SortedMapStore

variable {σ τ σ' τ' : Type} {s : SortedMapStore σ τ} {r : SortedMapStore σ' τ'}
  {R : σ → σ' → Prop} {S : τ → τ' → Prop} {p : Progress σ τ} {q : Progress σ' τ'}

/-- The first store does on sorted maps what the second does on those that are related to them, and
lists the same entries in the same order. -/
structure Simulates (s : SortedMapStore σ τ) (r : SortedMapStore σ' τ') (R : σ → σ' → Prop)
    (S : τ → τ' → Prop) : Prop extends s.toMapStore.Simulates r.toMapStore R S where
  ordered : ∀ {t u}, S t u → Lockstep Eq (s.toList t) (r.toList u)
  range : ∀ {m n} low high, R m n → Lockstep Eq (s.range m low high) (r.range n low high)

theorem Simulates.step (h : s.Simulates r R S) (operation : Operation) (hp : p.Related R S q) :
    Lockstep (Progress.Related R S) (s.step p operation) (r.step q operation) := by
  cases operation with
  | insert key value =>
    apply (h.insert key value hp.current).bind
    intro m n hmn
    exact .ok (hp.go hmn)
  | erase key =>
    apply (h.erase key hp.current).bind
    intro m n hmn
    exact .ok (hp.go hmn)
  | lookup key =>
    apply (h.get? key hp.current).bind
    rintro x _ rfl
    exact .ok (hp.observeOption x)
  | range low high =>
    apply (h.range low high hp.current).bind
    rintro es _ rfl
    rw [hp.sum]
    exact .ok (hp.resum _)
  | snapshot =>
    apply (h.snapshot hp.current).bind
    intro taken taken' hTaken
    exact .ok (hp.keep hTaken.1 hTaken.2)

theorem Simulates.readBack (h : s.Simulates r R S) {t : τ} {u : τ'} (sum : Checksum)
    (htu : S t u) : Lockstep Eq (s.readBack sum t) (r.readBack sum u) := by
  apply (h.ordered htu).bind
  rintro es _ rfl
  exact .ok rfl

theorem step_other {p q : Progress σ τ} {operation : Operation} (hOther : operation ≠ .snapshot)
    (hStep : s.step p operation = .ok q) : q.snapshots = p.snapshots := by
  cases operation with
  | insert key value =>
    obtain ⟨m, -, hStep⟩ := Result.bind_eq_ok.mp hStep
    cases hStep
    rfl
  | erase key =>
    obtain ⟨m, -, hStep⟩ := Result.bind_eq_ok.mp hStep
    cases hStep
    rfl
  | lookup key =>
    obtain ⟨x, -, hStep⟩ := Result.bind_eq_ok.mp hStep
    cases hStep
    exact p.observeOption_snapshots x
  | range low high =>
    obtain ⟨es, -, hStep⟩ := Result.bind_eq_ok.mp hStep
    cases hStep
    rfl
  | snapshot => exact absurd rfl hOther

/-- The churn of a sorted map. -/
def workload (s : SortedMapStore σ τ) : SnapshotWorkload σ τ where
  empty := s.empty
  step := s.step
  snapshot := s.snapshot
  readBack := s.readBack
  step_snapshot _ := rfl
  step_other := step_other

theorem churn_eq_checksum (s : SortedMapStore σ τ) (operations : List Operation) :
    s.churn operations = s.workload.checksum operations := rfl

theorem Simulates.workload (h : s.Simulates r R S) : s.workload.Simulates r.workload R S :=
  ⟨h.empty, h.step, h.snapshot, h.readBack⟩

/-- Both stores end with the same checksum. -/
theorem Simulates.churn (h : s.Simulates r R S) (operations : List Operation) :
    Lockstep Eq (s.churn operations) (r.churn operations) := by
  rw [churn_eq_checksum, churn_eq_checksum]
  exact h.workload.checksum operations

/-! ## Sorted maps -/

/-- The store of sorted association lists. -/
def tables : SortedMapStore Table Table where
  empty := .empty
  insert t key value := .ok (t.insert key value)
  erase t key := .ok (t.erase key)
  get? t key := .ok (t.get? key)
  snapshot t := .ok (t, t)
  toList t := .ok t.entries
  range t low high := .ok (t.range low high)

/-- The sorted map has the natural order and the entries of the table. -/
structure HasTable (m : SortedMap UInt64 UInt64) (t : Table) : Prop where
  wellFormed : m.WellFormed
  natural : m.comparator = .natural
  entries : m.root.entries = t.entries

variable {m : SortedMap UInt64 UInt64} {t : Table}

theorem natural_total : (Comparator.natural : Comparator UInt64).Total :=
  Comparator.total_of_transCmp (inferInstanceAs (Std.TransCmp fun a b : UInt64 => compare a b))

theorem HasTable.total (h : HasTable m t) : m.comparator.Total := h.natural ▸ natural_total

theorem HasTable.toList_eq (h : HasTable m t) : m.toList = t.entries := by
  rw [SortedMap.toList_eq_entries, h.entries]

theorem HasTable.insert (h : HasTable m t) (key value : UInt64) :
    HasTable (m.insert key value) (t.insert key value) := by
  obtain ⟨hComparator, hWellFormed⟩ := h.wellFormed.insert h.total key value
  refine ⟨hWellFormed, hComparator.trans h.natural, ?_⟩
  rw [h.wellFormed.entries_insert h.total, h.natural, h.entries, Table.insertSorted_entries]

theorem HasTable.erase (h : HasTable m t) (key : UInt64) :
    ∃ m', m.erase key = .ok m' ∧ HasTable m' (t.erase key) := by
  obtain ⟨m', hErase, hComparator, hWellFormed⟩ := h.wellFormed.erase h.total key
  refine ⟨m', hErase, hWellFormed, hComparator.trans h.natural, ?_⟩
  rw [h.wellFormed.entries_erase h.total hErase, h.natural, h.entries, Table.eraseSorted_entries]

theorem HasTable.get?_eq (h : HasTable m t) (key : UInt64) : m.get? key = t.get? key := by
  apply Option.ext
  intro value
  rw [Table.get?_eq_some_iff, (h.wellFormed.lists h.total).get?, h.entries, h.natural]
  constructor
  · rintro ⟨stored, hMem, hKey⟩
    rwa [Std.compare_eq_iff_eq.mp hKey]
  · intro hMem
    exact ⟨key, hMem, Std.compare_eq_iff_eq.mpr rfl⟩

theorem HasTable.range_eq (h : HasTable m t) (low high : UInt64) :
    (m.range (.included low) (.included high)).toList = t.range low high := by
  have hRange := h.wellFormed.toList_between h.total (.included low) (.included high) true
  rw [SortedMap.range, hRange, SortedMap.Tree.along_true, h.natural, h.entries]
  apply List.filter_congr
  intro e _
  rw [Bool.eq_iff_iff, Bool.and_eq_true, decide_eq_true_iff]
  refine and_congr (bne_iff_ne.trans ?_) (bne_iff_ne.trans ?_)
  · exact (not_congr Std.compare_eq_lt).trans UInt64.not_lt
  · exact (not_congr Std.compare_eq_gt).trans UInt64.not_lt

theorem persistent_simulates : persistent.Simulates tables HasTable HasTable where
  empty := ⟨SortedMap.wellFormed_empty _, rfl, rfl⟩
  insert key value h := .ok (h.insert key value)
  erase key h := by
    obtain ⟨m', hErase, h'⟩ := h.erase key
    exact ⟨m', _, hErase, rfl, h'⟩
  get? key h := .ok (h.get?_eq key)
  snapshot h := .ok ⟨h, h⟩
  toList h := .ok (.of_eq h.toList_eq)
  ordered h := .ok h.toList_eq
  range low high h := .ok (h.range_eq low high)

end SortedMapStore

end PersistentCollections.Bench
