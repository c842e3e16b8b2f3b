import PersistentCollections.Proofs.Bench.Input
import PersistentCollections.Proofs.Bench.Maps

/-!
# Sharing a map under any schedule

The reference for the readers of a shared map is sequential (`Contents.sharedReads`): every reader
sees the map that was built, the observations are mixed in the order of the operations, and the
writes are made one after the other.

A shared map that is under way extends what was built (`Contents.Extends`): below the keys of the
writers it is the same, and what was built has no other keys. Every turn keeps that, so every reader
sees the map that was built, whenever its turn comes (`finite_turns`). Writes commute, and sorting
the observations by index brings them into the order of the operations, whatever the schedule.
-/

namespace PersistentCollections.Bench

/-! ## The reference -/

namespace Contents

/-- The map after an insertion or an erasure. -/
def buildStep (f : Contents) : Operation → Contents
  | .insert key value => f.insert key value
  | .erase key => f.erase key
  | _ => f

def build (operations : List Operation) : Contents := operations.foldl buildStep ∅

noncomputable def digest (f : Contents) : UInt64 := entriesDigest (toList f)

/-- What an operation sees of the map that was built, if it reads. -/
noncomputable def sees (built : Contents) : Operation → Option UInt64
  | .lookup key => some (((built.lookup key).map (· + 1)).getD 0)
  | .range low high =>
    some ((built.lookup low).getD 0 + rotateLeft ((built.lookup high).getD 0) 32)
  | .snapshot => some (digest built)
  | _ => none

theorem sees_lookup (built : Contents) (key : UInt64) :
    sees built (.lookup key) = some (((built.lookup key).map (· + 1)).getD 0) := rfl

theorem sees_range (built : Contents) (low high : UInt64) : sees built (.range low high) =
    some ((built.lookup low).getD 0 + rotateLeft ((built.lookup high).getD 0) 32) := rfl

theorem sees_snapshot (built : Contents) : sees built .snapshot = some (digest built) := rfl

/-- The map after the write of an operation, if it writes. -/
def write (f : Contents) : Operation → Contents
  | .insert key _ => f.insert (writerKeys + key) (splitmix key)
  | _ => f

/-- The reads of the map that was built, in the order of the operations, and then the entries that
were built with those that were written. -/
noncomputable def sharedReads (operations : List Operation) : Checksum :=
  let built := build operations
  let seen := operations.filterMap (sees built)
  (Checksum.zero.mixAll seen).mix (digest (operations.foldl write built))

end Contents

/-- What a task observes of the map that was built, if it reads. -/
noncomputable def Task.observes (built : Contents) (task : Task) : Option Observation :=
  (Contents.sees built task.operation).map (Observation.mk task.index)

/-! ## Keys -/

-- Found for the list of the keys: for a finite type a search over the whole type would be found.
instance (operation : Operation) : Decidable operation.KeysBelow :=
  List.decidableBAll (fun key => key < writerKeys) operation.keys

section

variable {key value low high : UInt64}

/-- The key of a write does not overflow. -/
theorem writerKeys_toNat_add (h : key < writerKeys) :
    writerKeys.toNat + key.toNat < UInt64.size := by
  have hKey : key.toNat < 2 ^ 62 := UInt64.lt_iff_toNat_lt.mp h
  have hWriter : writerKeys.toNat = 2 ^ 62 := rfl
  rw [hWriter, UInt64.size]
  omega

theorem not_writerKeys_add_lt (h : key < writerKeys) : ¬ writerKeys + key < writerKeys := by
  rw [UInt64.lt_iff_toNat_lt, UInt64.toNat_add, Nat.mod_eq_of_lt (writerKeys_toNat_add h)]
  omega

theorem writerKeys_add_ne {key' : UInt64} (h : key ≠ key') :
    writerKeys + key ≠ writerKeys + key' := by
  intro hSame
  exact h ((UInt64.add_right_inj writerKeys).mp hSame)

theorem Operation.KeysBelow.insert (h : (insert key value).KeysBelow) : key < writerKeys :=
  h key (List.mem_singleton.mpr rfl)

theorem Operation.KeysBelow.lookup (h : (lookup key).KeysBelow) : key < writerKeys :=
  h key (List.mem_singleton.mpr rfl)

theorem Operation.KeysBelow.range (h : (range low high).KeysBelow) :
    low < writerKeys ∧ high < writerKeys :=
  ⟨h low List.mem_cons_self, h high (List.mem_cons_of_mem _ (List.mem_singleton.mpr rfl))⟩

end

namespace Contents

variable {f built : Contents} {operation : Operation} {operations : List Operation}

/-- A shared map that is under way, and the map that was built. -/
structure Extends (f built : Contents) : Prop where
  below : ∀ key, key < writerKeys → f.lookup key = built.lookup key
  built_below : ∀ key value, built.lookup key = some value → key < writerKeys

/-! ## Building -/

theorem buildStep_below (h : operation.KeysBelow)
    (hf : ∀ key value, f.lookup key = some value → key < writerKeys) (key value : UInt64)
    (hFound : (buildStep f operation).lookup key = some value) : key < writerKeys := by
  cases operation with
  | insert key' value' =>
    by_cases hKey : key = key'
    · rw [hKey]
      exact h.insert
    · rw [buildStep, Finmap.lookup_insert_of_ne f hKey] at hFound
      exact hf key value hFound
  | erase key' =>
    by_cases hKey : key = key'
    · rw [buildStep, hKey, Finmap.lookup_erase] at hFound
      cases hFound
    · rw [buildStep, Finmap.lookup_erase_ne hKey] at hFound
      exact hf key value hFound
  | lookup | range | snapshot => exact hf key value hFound

theorem foldl_buildStep_below (h : ∀ operation ∈ operations, operation.KeysBelow)
    (hf : ∀ key value, f.lookup key = some value → key < writerKeys) (key value : UInt64)
    (hFound : (operations.foldl buildStep f).lookup key = some value) : key < writerKeys := by
  induction operations generalizing f with
  | nil => exact hf key value hFound
  | cons operation operations ih =>
    obtain ⟨hOperation, hOperations⟩ := List.forall_mem_cons.mp h
    exact ih hOperations (buildStep_below hOperation hf) hFound

/-- When the sharing begins, the shared map is the one that was built. -/
theorem extends_build (h : ∀ operation ∈ operations, operation.KeysBelow) :
    Extends (build operations) (build operations) where
  below _ _ := rfl
  built_below := foldl_buildStep_below h fun key value hFound => by
    rw [Finmap.lookup_empty] at hFound
    cases hFound

/-! ## Writing -/

theorem Extends.write (hf : Extends f built) (h : operation.KeysBelow) :
    Extends (write f operation) built := by
  refine ⟨?_, hf.built_below⟩
  intro key hKey
  cases operation with
  | insert key' value' =>
    have hne : key ≠ writerKeys + key' := by
      rintro rfl
      exact not_writerKeys_add_lt h.insert hKey
    rw [Contents.write, Finmap.lookup_insert_of_ne f hne]
    exact hf.below key hKey
  | erase | lookup | range | snapshot => exact hf.below key hKey

theorem Extends.foldl_write (hf : Extends f built)
    (h : ∀ operation ∈ operations, operation.KeysBelow) :
    Extends (operations.foldl Contents.write f) built := by
  induction operations generalizing f with
  | nil => exact hf
  | cons operation operations ih =>
    obtain ⟨hOperation, hOperations⟩ := List.forall_mem_cons.mp h
    exact ih (hf.write hOperation) hOperations

/-- Two writes under one key write the same value. -/
theorem write_comm (f : Contents) (operation operation' : Operation) :
    write (write f operation) operation' = write (write f operation') operation := by
  cases operation with
  | insert key value =>
    cases operation' with
    | insert key' value' =>
      by_cases hKey : key = key'
      · rw [write, write, write, write, hKey]
      · exact Finmap.insert_insert_of_ne f (writerKeys_add_ne hKey)
    | erase | lookup | range | snapshot => rfl
  | erase | lookup | range | snapshot => rfl

theorem foldl_write_perm {operations' : List Operation} (h : operations.Perm operations')
    (f : Contents) : operations.foldl write f = operations'.foldl write f :=
  h.foldl_eq' (fun operation _ operation' _ g => write_comm g operation operation') f

theorem lookup_write_of_written {key : UInt64}
    (h : f.lookup (writerKeys + key) = some (splitmix key)) :
    (write f operation).lookup (writerKeys + key) = some (splitmix key) := by
  cases operation with
  | insert key' value' =>
    by_cases hKey : key = key'
    · rw [write, hKey, Finmap.lookup_insert]
    · rw [write, Finmap.lookup_insert_of_ne f (writerKeys_add_ne hKey), h]
  | erase | lookup | range | snapshot => exact h

theorem lookup_foldl_write_of_written {key : UInt64}
    (h : f.lookup (writerKeys + key) = some (splitmix key)) :
    (operations.foldl write f).lookup (writerKeys + key) = some (splitmix key) := by
  induction operations generalizing f with
  | nil => exact h
  | cons operation operations ih => exact ih (lookup_write_of_written h)

/-- No write is lost. -/
theorem lookup_foldl_write {key value : UInt64} (h : .insert key value ∈ operations)
    (f : Contents) :
    (operations.foldl write f).lookup (writerKeys + key) = some (splitmix key) := by
  obtain ⟨before, after, rfl⟩ := List.append_of_mem h
  rw [List.foldl_append, List.foldl_cons]
  apply lookup_foldl_write_of_written
  rw [write, Finmap.lookup_insert]

/-! ## Reading -/

/-- The entries below the keys of the writers are those that were built. -/
theorem Extends.lists_filter (hf : Extends f built) :
    Lists built ((toList f).filter fun e => e.1 < writerKeys) where
  nodup := (lists_toList f).nodup.sublist (List.filter_sublist.map Prod.fst)
  mem key value := by
    rw [List.mem_filter, (lists_toList f).mem, decide_eq_true_eq]
    constructor
    · rintro ⟨hFound, hKey⟩
      rw [← hf.below key hKey, hFound]
    · intro hFound
      have hKey := hf.built_below key value hFound
      rw [hf.below key hKey, hFound]
      exact ⟨rfl, hKey⟩

end Contents

/-! ## Turns on any store -/

namespace MapStore

section

variable {σ τ σ' τ' : Type} {s : MapStore σ τ} {r : MapStore σ' τ'} {R : σ → σ' → Prop}
  {S : τ → τ' → Prop} {m : σ} {n : σ'}

theorem Simulates.buildStep (h : s.Simulates r R S) (hmn : R m n) (operation : Operation) :
    Lockstep R (s.buildStep m operation) (r.buildStep n operation) := by
  cases operation with
  | insert key value => exact h.insert key value hmn
  | erase key => exact h.erase key hmn
  | lookup | range | snapshot => exact .ok hmn

theorem Simulates.builtDigest (h : s.Simulates r R S) (hmn : R m n) :
    Lockstep Eq (s.builtDigest m) (r.builtDigest n) := by
  apply (h.snapshot hmn).bind
  rintro ⟨t, _⟩ ⟨u, _⟩ ⟨htu, -⟩
  apply (h.toList htu).bind
  intro es es' hPerm
  exact .ok (entriesDigest_perm (hPerm.filter _))

/-- A turn leaves related maps, and sees the same. -/
theorem Simulates.turn (h : s.Simulates r R S) (hmn : R m n) (operation : Operation) :
    Lockstep (fun a b => R a.1 b.1 ∧ a.2 = b.2) (s.turn m operation) (r.turn n operation) := by
  cases operation with
  | insert key value =>
    apply (h.insert (writerKeys + key) (splitmix key) hmn).bind
    intro m' n' hmn'
    exact .ok ⟨hmn', rfl⟩
  | erase key => exact .ok ⟨hmn, rfl⟩
  | lookup key =>
    apply (h.get? key hmn).bind
    rintro x _ rfl
    exact .ok ⟨hmn, rfl⟩
  | range low high =>
    apply (h.get? low hmn).bind
    rintro x _ rfl
    apply (h.get? high hmn).bind
    rintro y _ rfl
    exact .ok ⟨hmn, rfl⟩
  | snapshot =>
    apply (h.builtDigest hmn).bind
    rintro x _ rfl
    exact .ok ⟨hmn, rfl⟩

theorem turns_cons (s : MapStore σ τ) (m : σ) (observed : Array Observation) (task : Task)
    (tasks : List Task) :
    s.turns (m, observed) (task :: tasks) = (s.turn m task.operation >>= fun (m, seen) =>
      s.turns (m, seen.elim observed fun x => observed.push ⟨task.index, x⟩) tasks) := by
  rw [turns, List.foldlM_cons]
  dsimp only
  cases s.turn m task.operation <;> rfl

theorem Simulates.turns (h : s.Simulates r R S) (hmn : R m n) (observed : Array Observation)
    (tasks : List Task) :
    Lockstep (fun a b => R a.1 b.1 ∧ a.2 = b.2) (s.turns (m, observed) tasks)
      (r.turns (n, observed) tasks) := by
  apply Lockstep.foldlM_same _ tasks ⟨hmn, rfl⟩
  rintro ⟨m, observed⟩ ⟨n, _⟩ task ⟨hmn, rfl⟩
  apply (h.turn hmn task.operation).bind
  rintro ⟨m', seen⟩ ⟨n', _⟩ ⟨hmn', rfl⟩
  exact .ok ⟨hmn', rfl⟩

theorem Simulates.built (h : s.Simulates r R S) (operations : List Operation) :
    Lockstep R (operations.foldlM s.buildStep s.empty)
      (operations.foldlM r.buildStep r.empty) :=
  Lockstep.foldlM_same (fun _ _ operation hmn => h.buildStep hmn operation) operations h.empty

/-- Under one schedule both stores end with the same checksum. -/
theorem Simulates.sharedReads (h : s.Simulates r R S) (schedule : Schedule)
    (operations : List Operation) :
    Lockstep Eq (s.sharedReads schedule operations) (r.sharedReads schedule operations) := by
  apply (h.built operations).bind
  intro m n hmn
  apply (h.turns hmn #[] _).bind
  rintro ⟨m', observed⟩ ⟨n', _⟩ ⟨hmn', rfl⟩
  apply (h.snapshot hmn').bind
  rintro ⟨t, _⟩ ⟨u, _⟩ ⟨htu, -⟩
  apply (h.toList htu).bind
  intro es es' hPerm
  rw [entriesDigest_perm hPerm]
  exact .ok rfl

end

/-! ## Turns on finite maps -/

variable {f built : Contents} {operation : Operation}

theorem finite_build (operations : List Operation) :
    operations.foldlM finite.buildStep finite.empty = .ok (Contents.build operations) := by
  show operations.foldlM finite.buildStep ∅ = .ok (operations.foldl Contents.buildStep ∅)
  generalize (∅ : Contents) = f
  induction operations generalizing f with
  | nil => rfl
  | cons operation operations ih =>
    have hStep : finite.buildStep f operation = .ok (Contents.buildStep f operation) := by
      cases operation <;> rfl
    rw [List.foldlM_cons, hStep, Result.bind_ok, ih, List.foldl_cons]

/-- A reader sees the map that was built, whatever has been written since. -/
theorem finite_turn (hf : f.Extends built) (h : operation.KeysBelow) :
    finite.turn f operation = .ok (f.write operation, built.sees operation) := by
  cases operation with
  | insert key value => rfl
  | erase key => rfl
  | lookup key =>
    rw [Contents.sees_lookup, ← hf.below key h.lookup]
    rfl
  | range low high =>
    rw [Contents.sees_range, ← hf.below low h.range.1, ← hf.below high h.range.2]
    rfl
  | snapshot =>
    have hDigest := entriesDigest_perm (hf.lists_filter.perm (Contents.lists_toList built))
    rw [Contents.sees_snapshot, Contents.digest, ← hDigest]
    rfl

/-- The turns of several tasks make their writes, and see what was built. -/
theorem finite_turns (tasks : List Task) (h : ∀ task ∈ tasks, task.operation.KeysBelow)
    (hf : f.Extends built) (observed : Array Observation) :
    finite.turns (f, observed) tasks =
      .ok ((tasks.map Task.operation).foldl Contents.write f,
        observed ++ (tasks.filterMap (Task.observes built)).toArray) := by
  induction tasks generalizing f observed with
  | nil =>
    rw [turns, List.foldlM_nil, List.filterMap_nil, Array.append_empty]
    rfl
  | cons task tasks ih =>
    obtain ⟨hTask, hTasks⟩ := List.forall_mem_cons.mp h
    rw [turns_cons, finite_turn hf hTask, Result.bind_ok]
    dsimp only
    rw [ih hTasks (hf.write hTask), List.map_cons, List.foldl_cons, List.filterMap_cons,
      Task.observes]
    cases built.sees task.operation with
    | none => rfl
    | some x =>
      have hPush (rest : List Observation) : observed.push ⟨task.index, x⟩ ++ rest.toArray =
          observed ++ (⟨task.index, x⟩ :: rest).toArray := by
        rw [← Array.toList_inj, Array.toList_append, Array.toList_append, Array.toList_push,
          List.append_assoc, List.singleton_append]
      rw [Option.elim_some, hPush]
      rfl

end MapStore

/-! ## Sorting -/

namespace Observation

variable {a b c : Observation}

theorem upTo_iff : upTo a b = true ↔ a.index < b.index ∨ a.index = b.index ∧ a.seen ≤ b.seen := by
  rw [upTo, Bool.or_eq_true, Bool.and_eq_true, decide_eq_true_eq, decide_eq_true_eq, beq_iff_eq]

theorem upTo_trans (hab : upTo a b = true) (hbc : upTo b c = true) : upTo a c = true := by
  rw [upTo_iff] at hab hbc ⊢
  rcases hab with hab | ⟨hab, hSeen⟩
  · exact .inl (by omega)
  · rcases hbc with hbc | ⟨hbc, hSeen'⟩
    · exact .inl (by omega)
    · exact .inr ⟨hab.trans hbc, UInt64.le_trans hSeen hSeen'⟩

theorem upTo_total (a b : Observation) : (upTo a b || upTo b a) = true := by
  rw [Bool.or_eq_true, upTo_iff, upTo_iff]
  rcases Nat.lt_trichotomy a.index b.index with h | h | h
  · exact .inl (.inl h)
  · rcases UInt64.le_total a.seen b.seen with hSeen | hSeen
    · exact .inl (.inr ⟨h, hSeen⟩)
    · exact .inr (.inr ⟨h.symm, hSeen⟩)
  · exact .inr (.inl h)

theorem upTo_antisymm (hab : upTo a b = true) (hba : upTo b a = true) : a = b := by
  rw [upTo_iff] at hab hba
  obtain ⟨index, seen⟩ := a
  obtain ⟨index', seen'⟩ := b
  rcases hab with hab | ⟨hab, hSeen⟩
  · rcases hba with hba | ⟨hba, -⟩
    · omega
    · omega
  · rcases hba with hba | ⟨-, hSeen'⟩
    · omega
    · exact congrArg₂ mk hab (UInt64.le_antisymm hSeen hSeen')

/-- Observations in the order of their indices come out of the sort as they are, however they
arrived. -/
theorem mergeSort_eq {seen arrived : List Observation}
    (hSeen : seen.Pairwise fun a b => a.index < b.index) (h : arrived.Perm seen) :
    arrived.mergeSort upTo = seen := by
  have hTrans : ∀ a b c, upTo a b = true → upTo b c = true → upTo a c = true :=
    fun _ _ _ => upTo_trans
  have hSorted := List.pairwise_mergeSort hTrans upTo_total arrived
  have hPerm : (arrived.mergeSort upTo).Perm seen := (List.mergeSort_perm arrived upTo).trans h
  have hUpTo : seen.Pairwise fun a b => upTo a b = true :=
    hSeen.imp fun hLess => upTo_iff.mpr (.inl hLess)
  exact hPerm.eq_of_pairwise (fun _ _ _ _ => upTo_antisymm) hSorted hUpTo

end Observation

section

variable (built : Contents) (operations : List Operation)

theorem tasks_operation : (operations.mapIdx Task.mk).map Task.operation = operations := by
  apply List.ext_getElem
  · rw [List.length_map, List.length_mapIdx]
  · intro i _ _
    rw [List.getElem_map, List.getElem_mapIdx]

/-- The observations of all tasks are in the order of their indices. -/
theorem pairwise_observes : ((operations.mapIdx Task.mk).filterMap (Task.observes built)).Pairwise
    fun a b => a.index < b.index := by
  have hTasks : (operations.mapIdx Task.mk).Pairwise fun a b => a.index < b.index := by
    rw [List.pairwise_iff_getElem]
    intro i j hi hj hij
    rw [List.getElem_mapIdx, List.getElem_mapIdx]
    exact hij
  apply hTasks.filterMap
  intro task task' hLess seen hSeen seen' hSeen'
  obtain ⟨x, -, rfl⟩ := Option.map_eq_some_iff.mp hSeen
  obtain ⟨y, -, rfl⟩ := Option.map_eq_some_iff.mp hSeen'
  exact hLess

theorem map_seen_observes :
    ((operations.mapIdx Task.mk).filterMap (Task.observes built)).map Observation.seen =
      operations.filterMap built.sees := by
  have hSeen : (fun task => (Task.observes built task).map Observation.seen) =
      built.sees ∘ Task.operation := by
    funext task
    rw [Task.observes, Option.map_map]
    exact Option.map_id'
  rw [List.map_filterMap, hSeen, ← List.filterMap_map, tasks_operation]

end

/-! ## Schedules -/

section

variable {schedule : Schedule} {operations : List Operation}

/-- Under a fair schedule all operations take their turn. -/
theorem Schedule.Fair.perm_operations (hFair : schedule.Fair) (operations : List Operation) :
    ((schedule.turns (operations.mapIdx Task.mk)).map Task.operation).Perm operations := by
  have hTurns := (hFair.1 (operations.mapIdx Task.mk)).map Task.operation
  rwa [tasks_operation] at hTurns

/-- However the observations arrive, they are sorted into the order of the operations. -/
theorem Schedule.Fair.sorted_eq (hFair : schedule.Fair) (built : Contents) :
    (schedule.arrivals ((schedule.turns (operations.mapIdx Task.mk)).filterMap
      (Task.observes built))).mergeSort Observation.upTo =
      (operations.mapIdx Task.mk).filterMap (Task.observes built) := by
  apply Observation.mergeSort_eq (pairwise_observes built operations)
  exact (hFair.2 _).trans ((hFair.1 _).filterMap _)

/-- The shared map in the end, and what has been observed, in the order of the turns. -/
theorem MapStore.finite_shared (hFair : schedule.Fair)
    (h : ∀ operation ∈ operations, operation.KeysBelow) :
    finite.turns (Contents.build operations, #[]) (schedule.turns (operations.mapIdx Task.mk)) =
      .ok (operations.foldl Contents.write (Contents.build operations),
        ((schedule.turns (operations.mapIdx Task.mk)).filterMap
          (Task.observes (Contents.build operations))).toArray) := by
  have hOperations := hFair.perm_operations operations
  have hTasks : ∀ task ∈ schedule.turns (operations.mapIdx Task.mk),
      task.operation.KeysBelow := by
    intro task hTask
    exact h task.operation (hOperations.mem_iff.mp (List.mem_map_of_mem hTask))
  rw [finite_turns _ hTasks (Contents.extends_build h) #[], Array.empty_append,
    Contents.foldl_write_perm hOperations]

/-- On finite maps, every fair schedule gives the checksum of the reference. -/
theorem MapStore.finite_sharedReads (hFair : schedule.Fair)
    (h : ∀ operation ∈ operations, operation.KeysBelow) :
    finite.sharedReads schedule operations = .ok (Contents.sharedReads operations) := by
  rw [sharedReads, finite_build, Result.bind_ok]
  dsimp only
  rw [finite_shared hFair h, Result.bind_ok]
  dsimp only
  rw [hFair.sorted_eq, map_seen_observes]
  rfl

end

/-- The checksum of the readers of a shared map does not depend on the schedule, if all keys are below
those of the writers. So they are in the inputs that are generated, by any generator that stays
below its bounds. The observations are sorted into those of one reader after the other, each of what
was built, and no write is lost. -/
theorem sharedReads_scheduleIndependent :
    (∀ (γ : Type) (g : Random.Generator γ), g.StaysBelow → ∀ size seed, size < 2 ^ 60 →
      ∀ operation ∈ (Input.generateWith g size seed).operations, operation.KeysBelow) ∧
    (∀ size seed, size < 2 ^ 60 →
      ∀ operation ∈ (Input.generate size seed).operations, operation.KeysBelow) ∧
    ∀ (schedule : Schedule) (operations : List Operation), schedule.Fair →
      (∀ operation ∈ operations, operation.KeysBelow) →
      MapStore.persistent.sharedReads schedule operations =
        .ok (Contents.sharedReads operations) ∧
      (∀ key value, .insert key value ∈ operations →
        writerKeys.toNat + key.toNat < UInt64.size) ∧
      ∃ built map observed,
        operations.foldlM MapStore.persistent.buildStep .empty = .ok built ∧
        MapStore.persistent.turns (built, #[]) (schedule.turns (operations.mapIdx Task.mk)) =
          .ok (map, observed) ∧
        (schedule.arrivals observed.toList).mergeSort Observation.upTo =
          (operations.mapIdx Task.mk).filterMap (Task.observes (Contents.build operations)) ∧
        ((schedule.arrivals observed.toList).mergeSort Observation.upTo).map Observation.seen =
          operations.filterMap (Contents.build operations).sees ∧
        (∀ key value, .insert key value ∈ operations →
          map.get? (writerKeys + key) = .ok (some (splitmix key))) ∧
        ∀ key, key < writerKeys → map.get? key = built.get? key := by
  refine ⟨fun γ g hDraws size seed hSize => Input.generateWith_keysBelow hDraws hSize seed,
    fun size seed hSize =>
      Input.generateWith_keysBelow Random.Generator.chaCha_staysBelow hSize seed, ?_⟩
  intro schedule operations hFair h
  refine ⟨?_, ?_, ?_⟩
  · exact (MapStore.persistent_simulates.sharedReads schedule operations).eq.trans
      (MapStore.finite_sharedReads hFair h)
  · intro key value hMem
    exact writerKeys_toNat_add (h _ hMem).insert
  · have hBuilding := MapStore.persistent_simulates.built operations
    rw [MapStore.finite_build] at hBuilding
    obtain ⟨built, hBuilt, hBuiltContents⟩ := hBuilding.ok_right
    have hSharing := MapStore.persistent_simulates.turns hBuiltContents #[]
      (schedule.turns (operations.mapIdx Task.mk))
    rw [MapStore.finite_shared hFair h] at hSharing
    obtain ⟨⟨map, _⟩, hShared, hContents, rfl⟩ := hSharing.ok_right
    refine ⟨built, map, _, hBuilt, hShared, hFair.sorted_eq _, ?_, ?_, ?_⟩
    · dsimp only
      rw [hFair.sorted_eq, map_seen_observes]
    · intro key value hMem
      rw [hContents.get?_eq, Contents.lookup_foldl_write hMem]
    · intro key hKey
      rw [hContents.get?_eq, hBuiltContents.get?_eq]
      exact congrArg _ (((Contents.extends_build h).foldl_write h).below key hKey)

/-- All tasks take their turns in the opposite order. -/
theorem sharedReads_scheduleIndependent_reverse :
    (Random.Generator.chaCha.StaysBelow ∧ 10 < 2 ^ 60 ∧
      (∀ operation ∈ (Input.generateWith .chaCha 10 7).operations, operation.KeysBelow) ∧
      ∀ operation ∈ (Input.generate 10 7).operations, operation.KeysBelow) ∧
    Schedule.Fair ⟨List.reverse, List.reverse⟩ ∧
    (∀ operation ∈ [Operation.insert 5 7, .lookup 5, .snapshot, .range 1 5, .erase 5],
      operation.KeysBelow) ∧
    MapStore.persistent.sharedReads ⟨List.reverse, List.reverse⟩
      [.insert 5 7, .lookup 5, .snapshot, .range 1 5, .erase 5] =
      .ok (Contents.sharedReads [.insert 5 7, .lookup 5, .snapshot, .range 1 5, .erase 5]) := by
  have hSize : 10 < 2 ^ 60 := by decide
  have hFair : Schedule.Fair ⟨List.reverse, List.reverse⟩ :=
    ⟨List.reverse_perm, List.reverse_perm⟩
  have hBelow : ∀ operation ∈ [Operation.insert 5 7, .lookup 5, .snapshot, .range 1 5, .erase 5],
      operation.KeysBelow := by decide
  have hDraws := Random.Generator.chaCha_staysBelow
  obtain ⟨hAny, hGenerated, hIndependent⟩ := sharedReads_scheduleIndependent
  exact ⟨⟨hDraws, hSize, hAny Random.Source .chaCha hDraws 10 7 hSize, hGenerated 10 7 hSize⟩,
    hFair, hBelow, (hIndependent _ _ hFair hBelow).1⟩

end PersistentCollections.Bench
