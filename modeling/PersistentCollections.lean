import PersistentCollections.Hash.Fx
import PersistentCollections.TrieVector.Cursor
import PersistentCollections.HashTrieSet
import PersistentCollections.SortedSet
import PersistentCollections.Session.Run
import PersistentCollections.Main
import PersistentCollections.Decimal.Reading
import PersistentCollections.Proofs.HashTrieMap.Bitmap
import PersistentCollections.Proofs.HashTrieMap.Entries
import PersistentCollections.Proofs.HashTrieMap.Structure
import PersistentCollections.Proofs.Outcome
import PersistentCollections.Proofs.HashTrieMap.WellFormed
import PersistentCollections.Proofs.HashTrieMap.Update
import PersistentCollections.Proofs.HashTrieMap.Insert
import PersistentCollections.Proofs.HashTrieMap.Erase
import PersistentCollections.Proofs.HashTrieMap.Map
import PersistentCollections.Proofs.HashTrieMap.History
import PersistentCollections.Proofs.SortedMap.Order
import PersistentCollections.Proofs.SortedMap.History
import PersistentCollections.Proofs.TrieVector.Dense
import PersistentCollections.Proofs.TrieVector.Layout
import PersistentCollections.Proofs.TrieVector.Iterator
import PersistentCollections.Proofs.TrieVector.Update
import PersistentCollections.Proofs.TrieVector.History
import PersistentCollections.Proofs.TrieVector.Shape
import PersistentCollections.Proofs.HashTrieMap.Order
import PersistentCollections.Proofs.HashTrieMap.Representation
import PersistentCollections.Proofs.HashTrieMap.Iterator
import PersistentCollections.Proofs.HashTrieMap.Records
import PersistentCollections.Proofs.HashTrieMap.Sharing
import PersistentCollections.Proofs.SortedMap.Walk
import PersistentCollections.Proofs.SortedMap.Refinement
import PersistentCollections.Proofs.SortedSet
import PersistentCollections.Proofs.SortedMap.Equality
import PersistentCollections.Proofs.TrieVector.Window
import PersistentCollections.Proofs.SortedMap.Equivalence
import PersistentCollections.Proofs.HashTrieMap.Equality
import PersistentCollections.Proofs.TrieVector.Cache
import PersistentCollections.Proofs.HashTrieMap.Cache
import PersistentCollections.Proofs.HashTrieSet.Cache
import PersistentCollections.Proofs.Versions
import PersistentCollections.Proofs.Extensionality
import PersistentCollections.Proofs.ContentHash
import PersistentCollections.Proofs.SortedMap.Range
import PersistentCollections.Proofs.Bench.Progress
import PersistentCollections.Proofs.Bench.SnapshotWorkload
import PersistentCollections.Proofs.Bench.Vectors
import PersistentCollections.Proofs.Bench.Maps
import PersistentCollections.Proofs.Bench.SortedMaps
import PersistentCollections.Proofs.Bench.Sets
import PersistentCollections.Proofs.Bench.Agreement
import PersistentCollections.Proofs.Bench.Input
import PersistentCollections.Proofs.Bench.Shared
import PersistentCollections.Proofs.Bench.Selection
import PersistentCollections.Proofs.Bench.Verdict
import PersistentCollections.Proofs.Traversal
import PersistentCollections.Proofs.SortedMap.Traversal
import PersistentCollections.Proofs.Reduce
import PersistentCollections.Proofs.HashTrieMap.Traversal
import PersistentCollections.Proofs.HashTrieMap.Arrivals
import PersistentCollections.Proofs.HashTrieMap.IterationOrder
import PersistentCollections.Proofs.TrieVector.Cursor
import PersistentCollections.Proofs.Reductions
import PersistentCollections.Proofs.HashTrieSet.Algebra
import PersistentCollections.Proofs.HashTrieMap.Overwrite
import PersistentCollections.Proofs.SortedMap.Check
import PersistentCollections.Proofs.SortedMap.Reversal
import PersistentCollections.Proofs.HashTrieMap.MergeLaws
import PersistentCollections.Proofs.HashTrieMap.Shifts
import PersistentCollections.Proofs.HashTrieMap.Depth
import PersistentCollections.Proofs.TextHash
