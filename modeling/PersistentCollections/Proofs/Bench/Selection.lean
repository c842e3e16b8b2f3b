import Mathlib.Data.List.Nodup
import PersistentCollections.Bench.Registry

/-!
# Selection of workloads

A name picks the workload of that name and the workloads of the family of that name.
`Registry.select` goes through the names and adds what each of them picks, unless it is there
already. `Gathers` is what the names up to some point have picked: each workload once, in the order
of the first name that picks it (`rank`) and, for one name, in the order of the registry.
`foldlM_addPicked` carries it from name to name, and also tells which name stops the selection: the
first one that picks nothing.
-/

namespace PersistentCollections.Bench.Registry

/-- A name picks a workload if it is its own name or the name of its family. -/
def Picks (name : String) (w : Workload) : Prop := w.name = name ∨ w.family.name = name

/-- Some workload of the registry is picked. -/
def Known (registry : Registry) (name : String) : Prop := ∃ w ∈ registry, Picks name w

/-- The place of the first name that picks a workload; the number of names if none does. -/
def rank (names : List String) (w : Workload) : Nat :=
  names.findIdx fun name => w.name == name || w.family.name == name

theorem picks_iff {name : String} {w : Workload} :
    (w.name == name || w.family.name == name) = true ↔ Picks name w := by
  rw [Bool.or_eq_true, beq_iff_eq, beq_iff_eq]
  exact Iff.rfl

theorem mem_named {registry : Registry} {name : String} {w : Workload} :
    w ∈ registry.named name ↔ w ∈ registry ∧ Picks name w := by
  unfold named
  rw [List.mem_filter, picks_iff]

theorem named_eq_nil {registry : Registry} {name : String} :
    registry.named name = [] ↔ ¬ registry.Known name := by
  rw [List.eq_nil_iff_forall_not_mem]
  constructor
  · rintro h ⟨w, hw, hPicks⟩
    exact h w (mem_named.mpr ⟨hw, hPicks⟩)
  · rintro h w hw
    obtain ⟨hw, hPicks⟩ := mem_named.mp hw
    exact h ⟨w, hw, hPicks⟩

/-! ## Ranks -/

section

variable {names : List String} {name : String} {w : Workload}

theorem rank_lt_length : rank names w < names.length ↔ ∃ name ∈ names, Picks name w := by
  unfold rank
  rw [List.findIdx_lt_length]
  simp only [picks_iff]

/-- A name more does not change the rank of what was picked before. -/
theorem rank_append_of_picked (h : ∃ earlier ∈ names, Picks earlier w) :
    rank (names ++ [name]) w = rank names w := by
  have hBefore : rank names w < names.length := rank_lt_length.mpr h
  unfold rank at hBefore ⊢
  rw [List.findIdx_append, if_pos hBefore]

/-- What only the last name picks comes last. -/
theorem rank_append_of_new (h : ¬ ∃ earlier ∈ names, Picks earlier w) (hPicks : Picks name w) :
    rank (names ++ [name]) w = names.length := by
  have hBefore : ¬ rank names w < names.length := fun hLt => h (rank_lt_length.mp hLt)
  unfold rank at hBefore ⊢
  rw [List.findIdx_append, if_neg hBefore, List.findIdx_cons, picks_iff.mpr hPicks, cond_true,
    Nat.zero_add]

end

/-! ## Adding what one name picks -/

/-- No workload of that name is there. -/
def isNew (selected : List Workload) (w : Workload) : Bool :=
  !selected.any fun s => s.name == w.name

theorem isNew_iff {selected : List Workload} {w : Workload} :
    isNew selected w = true ↔ ∀ s ∈ selected, s.name ≠ w.name := by
  unfold isNew
  rw [Bool.not_eq_true', List.any_eq_false]
  simp only [beq_iff_eq, ne_eq]

theorem addNew_cons (selected new : List Workload) (w : Workload) :
    addNew selected (w :: new) =
      addNew (if isNew selected w then selected ++ [w] else selected) new := by
  unfold addNew isNew
  rw [List.foldl_cons]
  cases selected.any fun s => s.name == w.name <;> rfl

/-- The workloads that are not there yet are put at the end. -/
theorem addNew_eq {selected new : List Workload} (hNames : (new.map (·.name)).Nodup) :
    addNew selected new = selected ++ new.filter (isNew selected) := by
  induction new generalizing selected with
  | nil => exact (List.append_nil selected).symm
  | cons w new ih =>
    rw [List.map_cons, List.nodup_cons] at hNames
    obtain ⟨hFirst, hRest⟩ := hNames
    by_cases hNew : isNew selected w = true
    · -- No later workload has the name of the one that is put at the end.
      have hOthers : new.filter (isNew (selected ++ [w])) = new.filter (isNew selected) := by
        apply List.filter_congr
        intro v hv
        have hNe : w.name ≠ v.name := fun h => hFirst (List.mem_map.mpr ⟨v, hv, h.symm⟩)
        rw [Bool.eq_iff_iff, isNew_iff, isNew_iff]
        simp only [List.mem_append, List.mem_singleton, or_imp, forall_and, forall_eq]
        exact and_iff_left hNe
      rw [addNew_cons, if_pos hNew, ih hRest, hOthers, List.filter_cons_of_pos hNew,
        List.append_assoc]
      rfl
    · rw [addNew_cons, if_neg hNew, ih hRest, List.filter_cons_of_neg hNew]

/-- What the names have picked: the workloads that some name picks, once each, in the order of the
first name that picks them, and for one name in the order of the registry. -/
structure Gathers (registry : Registry) (names : List String) (selected : List Workload) :
    Prop where
  mem : ∀ w, w ∈ selected ↔ w ∈ registry ∧ ∃ name ∈ names, Picks name w
  nodup : (selected.map (·.name)).Nodup
  ordered : selected.Pairwise fun v w =>
    rank names v < rank names w ∨ rank names v = rank names w ∧ [v, w].Sublist registry

section

variable {registry : Registry} {names : List String} {selected : List Workload}

theorem Gathers.nil (registry : Registry) : Gathers registry [] [] where
  mem w := by
    constructor
    · intro h
      cases h
    · rintro ⟨-, name, hName, -⟩
      cases hName
  nodup := List.nodup_nil
  ordered := List.Pairwise.nil

/-- Of the workloads that a name picks, those that no name picked before are new. -/
theorem Gathers.mem_new (h : Gathers registry names selected)
    (hNames : (registry.map (·.name)).Nodup) {name : String} {w : Workload} :
    w ∈ (registry.named name).filter (isNew selected) ↔
      (w ∈ registry ∧ Picks name w) ∧ ¬ ∃ earlier ∈ names, Picks earlier w := by
  rw [List.mem_filter, mem_named, isNew_iff]
  apply and_congr_right
  rintro ⟨hw, -⟩
  constructor
  · intro hNew hPicked
    exact hNew w ((h.mem w).mpr ⟨hw, hPicked⟩) rfl
  · intro hNew s hs hSame
    obtain ⟨hsMem, hsPicked⟩ := (h.mem s).mp hs
    have hEq : s = w := List.inj_on_of_nodup_map hNames hsMem hw hSame
    exact hNew (hEq ▸ hsPicked)

theorem Gathers.addNew (h : Gathers registry names selected)
    (hNames : (registry.map (·.name)).Nodup) (name : String) :
    Gathers registry (names ++ [name]) (addNew selected (registry.named name)) := by
  have hNamed : (registry.named name).Sublist registry := List.filter_sublist
  rw [addNew_eq (hNames.sublist (hNamed.map _))]
  have hNew := @Gathers.mem_new registry names selected h hNames name
  generalize hFresh : (registry.named name).filter (isNew selected) = fresh at hNew ⊢
  have hFreshSublist : fresh.Sublist registry := by
    rw [← hFresh]
    exact List.filter_sublist.trans hNamed
  have hOldRank : ∀ w ∈ selected, rank (names ++ [name]) w = rank names w :=
    fun w hw => rank_append_of_picked ((h.mem w).mp hw).2
  have hNewRank : ∀ w ∈ fresh, rank (names ++ [name]) w = names.length :=
    fun w hw => rank_append_of_new (hNew.mp hw).2 (hNew.mp hw).1.2
  refine ⟨?_, ?_, ?_⟩
  · intro w
    rw [List.mem_append, h.mem, hNew]
    simp only [List.mem_append, List.mem_singleton]
    constructor
    · rintro (⟨hw, earlier, hEarlier, hPicks⟩ | ⟨⟨hw, hPicks⟩, -⟩)
      · exact ⟨hw, earlier, Or.inl hEarlier, hPicks⟩
      · exact ⟨hw, name, Or.inr rfl, hPicks⟩
    · rintro ⟨hw, picking, hPicking, hPicks⟩
      by_cases hOld : ∃ earlier ∈ names, Picks earlier w
      · exact Or.inl ⟨hw, hOld⟩
      · rcases hPicking with hPicking | rfl
        · exact (hOld ⟨picking, hPicking, hPicks⟩).elim
        · exact Or.inr ⟨⟨hw, hPicks⟩, hOld⟩
  · rw [List.map_append, List.nodup_append]
    refine ⟨h.nodup, hNames.sublist (hFreshSublist.map _), ?_⟩
    intro a ha b hb hab
    obtain ⟨v, hv, rfl⟩ := List.mem_map.mp ha
    obtain ⟨w, hw, rfl⟩ := List.mem_map.mp hb
    obtain ⟨⟨hwMem, -⟩, hwNew⟩ := hNew.mp hw
    obtain ⟨hvMem, hvPicked⟩ := (h.mem v).mp hv
    have hEq : v = w := List.inj_on_of_nodup_map hNames hvMem hwMem hab
    exact hwNew (hEq ▸ hvPicked)
  · rw [List.pairwise_append]
    refine ⟨?_, ?_, ?_⟩
    · refine h.ordered.imp_of_mem ?_
      intro v w hv hw hvw
      rwa [hOldRank v hv, hOldRank w hw]
    · rw [List.pairwise_iff_forall_sublist]
      intro v w hvw
      have hv : v ∈ fresh := hvw.subset List.mem_cons_self
      have hw : w ∈ fresh := hvw.subset (List.mem_cons_of_mem v List.mem_cons_self)
      exact Or.inr ⟨by rw [hNewRank v hv, hNewRank w hw], hvw.trans hFreshSublist⟩
    · intro v hv w hw
      left
      rw [hOldRank v hv, hNewRank w hw]
      exact rank_lt_length.mpr ((h.mem v).mp hv).2

end

/-! ## Going through the names -/

theorem addPicked_eq (registry : Registry) (selected : List Workload) (name : String) :
    (registry.Known name ∧
      addPicked registry selected name = .ok (addNew selected (registry.named name))) ∨
    (¬ registry.Known name ∧
      addPicked registry selected name = .error (.unknownWorkload name)) := by
  unfold addPicked
  cases hNamed : registry.named name with
  | nil => exact Or.inr ⟨named_eq_nil.mp hNamed, rfl⟩
  | cons w new =>
    refine Or.inl ⟨?_, rfl⟩
    rw [← not_not (a := registry.Known name), ← named_eq_nil, hNamed]
    exact List.cons_ne_nil w new

section

variable {registry : Registry}

/-- If each of the names picks something, the selection is what they have picked. -/
theorem Gathers.foldlM_addPicked {names : List String} {selected : List Workload}
    (h : Gathers registry names selected) (hNames : (registry.map (·.name)).Nodup)
    (more : List String) (hKnown : ∀ name ∈ more, registry.Known name) :
    ∃ selected', more.foldlM (addPicked registry) selected = .ok selected' ∧
      Gathers registry (names ++ more) selected' := by
  induction more generalizing names selected with
  | nil => exact ⟨selected, rfl, by rwa [List.append_nil]⟩
  | cons name more ih =>
    have hMore : ∀ later ∈ more, registry.Known later :=
      fun later hLater => hKnown later (List.mem_cons_of_mem name hLater)
    rcases addPicked_eq registry selected name with ⟨-, hStep⟩ | ⟨hUnknown, -⟩
    · rw [List.foldlM_cons, hStep]
      have hNext := ih (h.addNew hNames name) hMore
      rwa [List.append_assoc] at hNext
    · exact (hUnknown (hKnown name List.mem_cons_self)).elim

/-- Otherwise the first name that picks nothing stops the selection. -/
theorem foldlM_addPicked_unknown (selected : List Workload) {names : List String}
    (hUnknown : ∃ name ∈ names, ¬ registry.Known name) :
    ∃ before name after, names = before ++ name :: after ∧
      (∀ earlier ∈ before, registry.Known earlier) ∧ ¬ registry.Known name ∧
      names.foldlM (addPicked registry) selected = .error (.unknownWorkload name) := by
  induction names generalizing selected with
  | nil =>
    obtain ⟨name, hName, -⟩ := hUnknown
    cases hName
  | cons name names ih =>
    rcases addPicked_eq registry selected name with ⟨hKnown, hStep⟩ | ⟨hName, hStep⟩
    · obtain ⟨bad, hMem, hBad⟩ := hUnknown
      have hLater : ∃ later ∈ names, ¬ registry.Known later := by
        rcases List.mem_cons.mp hMem with rfl | hMem
        · exact (hBad hKnown).elim
        · exact ⟨bad, hMem, hBad⟩
      obtain ⟨before, first, after, rfl, hBefore, hFirst, hStop⟩ :=
        ih (Registry.addNew selected (registry.named name)) hLater
      refine ⟨name :: before, first, after, rfl, ?_, hFirst, ?_⟩
      · exact List.forall_mem_cons.mpr ⟨hKnown, hBefore⟩
      · rw [List.foldlM_cons, hStep]
        exact hStop
    · refine ⟨[], name, names, rfl, List.forall_mem_nil _, hName, ?_⟩
      rw [List.foldlM_cons, hStep]
      rfl

theorem select_eq_foldlM {names : List String} (h : names ≠ []) :
    registry.select names = names.foldlM (addPicked registry) [] := by
  cases names with
  | nil => exact (h rfl).elim
  | cons name names => rfl

end

/-! ## The selection -/

/-- What is selected: the whole registry if there are no names, and else what the names pick. -/
def Selects (registry : Registry) (names : List String) (selected : List Workload) : Prop :=
  (names = [] → selected = registry) ∧ (names ≠ [] → Gathers registry names selected)

section

variable {registry : Registry} {names : List String} {selected : List Workload}

theorem Selects.subset (h : Selects registry names selected) : ∀ w ∈ selected, w ∈ registry := by
  intro w hw
  by_cases hEmpty : names = []
  · rwa [← h.1 hEmpty]
  · exact (((h.2 hEmpty).mem w).mp hw).1

theorem Selects.nodup (h : Selects registry names selected)
    (hNames : (registry.map (·.name)).Nodup) : (selected.map (·.name)).Nodup := by
  by_cases hEmpty : names = []
  · rwa [h.1 hEmpty]
  · exact (h.2 hEmpty).nodup

/-- The selection succeeds if all names are known, and else stops at the first one that is not. -/
theorem select_spec (hNames : (registry.map (·.name)).Nodup) (names : List String) :
    ((∀ name ∈ names, registry.Known name) ∧
      ∃ selected, registry.select names = .ok selected ∧ Selects registry names selected) ∨
    ∃ before name after, names = before ++ name :: after ∧
      (∀ earlier ∈ before, registry.Known earlier) ∧ ¬ registry.Known name ∧
      registry.select names = .error (.unknownWorkload name) := by
  by_cases hEmpty : names = []
  · subst hEmpty
    exact Or.inl ⟨List.forall_mem_nil _, registry, rfl, fun _ => rfl, fun h => (h rfl).elim⟩
  rw [select_eq_foldlM hEmpty]
  by_cases hKnown : ∀ name ∈ names, registry.Known name
  · obtain ⟨selected, hRun, hGathers⟩ :=
      (Gathers.nil registry).foldlM_addPicked hNames names hKnown
    exact Or.inl ⟨hKnown, selected, hRun, fun h => (hEmpty h).elim, fun _ => hGathers⟩
  · simp only [not_forall] at hKnown
    obtain ⟨name, hMem, hName⟩ := hKnown
    exact Or.inr (foldlM_addPicked_unknown [] ⟨name, hMem, hName⟩)

theorem select_eq_error_iff (hNames : (registry.map (·.name)).Nodup) (names : List String) :
    (∃ failure, registry.select names = .error failure) ↔
      ∃ name ∈ names, ¬ registry.Known name := by
  rcases registry.select_spec hNames names with
    ⟨hKnown, selected, hOk, -⟩ | ⟨before, name, after, rfl, -, hName, hError⟩
  · rw [hOk]
    constructor
    · rintro ⟨failure, hFailure⟩
      cases hFailure
    · rintro ⟨name, hMem, hName⟩
      exact (hName (hKnown name hMem)).elim
  · rw [hError]
    constructor
    · intro _
      exact ⟨name, List.mem_append_right before List.mem_cons_self, hName⟩
    · intro _
      exact ⟨_, rfl⟩

theorem selects_of_select (hNames : (registry.map (·.name)).Nodup)
    (h : registry.select names = .ok selected) : registry.Selects names selected := by
  rcases registry.select_spec hNames names with
    ⟨-, selected', hOk, hSelects⟩ | ⟨_, _, _, _, -, -, hError⟩
  · cases h.symm.trans hOk
    exact hSelects
  · cases h.symm.trans hError

end

end PersistentCollections.Bench.Registry
