import PersistentCollections.Proofs.Bench.Maps
import PersistentCollections.Proofs.Bench.Sets
import PersistentCollections.Proofs.Bench.SortedMaps
import PersistentCollections.Proofs.Bench.Vectors

/-!
# Agreement of workloads

The workloads of a family end with the same checksum, for any list of operations, and it is that of
the same run over the mathematical collections: lists, finite maps, sorted association lists and
finite sets. None of the runs fails.
-/

namespace PersistentCollections.Bench

/-- Vectors and maps, with transients and without. A map may be of any kind, as long as it does what
a finite map does, and list its entries in any order. Into the checksum of `build` and of `churn`
every snapshot is read back as what it was taken of. -/
theorem builds_and_churns_agree (operations : List Operation) :
    (∃ sum, VectorStore.lists.build operations = .ok sum ∧
      VectorStore.persistent.build operations = .ok sum ∧
      VectorStore.transient.build operations = .ok sum ∧
      VectorStore.plain.build operations = .ok sum) ∧
    (∃ sum, MapStore.persistent.churn operations = .ok sum ∧
      MapStore.transient.churn operations = .ok sum ∧
      ∀ (σ τ : Type) (s : MapStore σ τ), s.Finite → s.churn operations = .ok sum) ∧
    (VectorStore.persistent.KeepsSnapshots operations ∧
      VectorStore.transient.KeepsSnapshots operations ∧
      VectorStore.plain.KeepsSnapshots operations) ∧
    MapStore.persistent.KeepsSnapshots operations ∧
    MapStore.transient.KeepsSnapshots operations ∧
    ∀ (σ τ : Type) (s : MapStore σ τ), s.Finite → s.KeepsSnapshots operations := by
  refine ⟨?_, ?_, ⟨?_, ?_, ?_⟩, ?_, ?_, ?_⟩
  · obtain ⟨sum, _, hPersistent, hLists, rfl⟩ :=
      VectorStore.persistent_simulates.build operations
    refine ⟨sum, hLists, hPersistent, ?_, ?_⟩
    · exact (VectorStore.transient_simulates.build operations).eq.trans hLists
    · exact (VectorStore.plain_simulates.build operations).eq.trans hLists
  · obtain ⟨sum, _, hPersistent, hFinite, rfl⟩ := MapStore.persistent_simulates.churn operations
    refine ⟨sum, hPersistent, ?_, ?_⟩
    · exact (MapStore.transient_simulates.churn operations).eq.trans hFinite
    · rintro σ τ s ⟨R, S, h⟩
      exact (h.churn operations).eq.trans hFinite
  · exact VectorStore.persistent_simulates.keepsSnapshots operations
  · exact VectorStore.transient_simulates.keepsSnapshots operations
  · exact VectorStore.plain_simulates.keepsSnapshots operations
  · exact MapStore.Finite.keepsSnapshots ⟨_, _, MapStore.persistent_simulates⟩ operations
  · exact MapStore.Finite.keepsSnapshots ⟨_, _, MapStore.transient_simulates⟩ operations
  · intro σ τ s h
    exact h.keepsSnapshots operations

/-- A search tree does what a finite map does. -/
theorem builds_and_churns_agree_searchTree :
    SortedMapStore.plain.toMapStore.Finite ∧
    ∃ sum, MapStore.persistent.churn [.insert 1 2, .snapshot, .range 1 3, .erase 1] = .ok sum ∧
      SortedMapStore.plain.toMapStore.churn [.insert 1 2, .snapshot, .range 1 3, .erase 1] =
        .ok sum := by
  have hFinite : SortedMapStore.plain.toMapStore.Finite := ⟨_, _, MapStore.plain_simulates⟩
  obtain ⟨-, ⟨sum, hPersistent, -, hAny⟩, -⟩ :=
    builds_and_churns_agree [.insert 1 2, .snapshot, .range 1 3, .erase 1]
  exact ⟨hFinite, sum, hPersistent, hAny _ _ _ hFinite⟩

end PersistentCollections.Bench
