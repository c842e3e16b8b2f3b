import PersistentCollections.Proofs.SortedMap.Equality
import PersistentCollections.Proofs.TrieVector.Shape
import PersistentCollections.Proofs.Versions

/-!
# The same contents in different collections

Vectors and windows are sequences, and a hash map and a sorted map, or two such sets, have members
in no order. A sequence hashes as the list of its elements, whichever of the two it is and wherever
a window lies in its backing vector; with two or three elements that is the hash of the tuple.
Sequences are equal if their lists are, in any mix and in both directions. The hash of a map or a
set is a sum over members that are listed once each, so it does not depend on the order in which a
trie or a tree lists them (`hashes_of_contents`).
-/

namespace PersistentCollections

/-! ## Sequences -/

/-- A vector or a window. -/
inductive Sequence (α : Type) where
  | vector (v : TrieVector α)
  | window (w : TrieVector.Window α)

namespace TrieVector

variable {α : Type} {v w : TrieVector α} {l l' : List α}

/-- Vectors of one size that share their root and their tail hold the same list: the height follows
from the size, and nothing else but the kept hash is left. -/
theorem Holds.eq_of_shared (h : Holds v l) (h' : Holds w l') (hSize : v.size = w.size)
    (hRoot : v.root = w.root) (hTail : v.tail = w.tail) : l = l' := by
  have hLength : l.length = l'.length := by rw [← h.size_eq, ← h'.size_eq, hSize]
  have hHeight : v.height = w.height := by
    have hShift : 5 * v.height = 5 * w.height := (h.alike h' hLength).shift
    omega
  have hSame : { v with cache := w.cache } = w := by
    obtain ⟨size, height, root, tail, cache⟩ := v
    obtain ⟨size', height', root', tail', cache'⟩ := w
    cases hSize
    cases hHeight
    cases hRoot
    cases hTail
    rfl
  have hList := (h.of_cache w.cache).toList_eq
  rw [hSame, h'.toList_eq] at hList
  exact (Except.ok.inj hList).symm

end TrieVector

namespace Sequence

variable {α : Type} {x y : Sequence α} {l l' : List α}

/-- The sequence in a store. -/
def version (ν : Type) : Sequence α → Version α ν
  | .vector v => .vector (s := .frozen) v
  | .window w => .window w

def toList : Sequence α → Result (List α)
  | .vector v => v.toList
  | .window w => w.toList

def hash [HashCode α] : Sequence α → Result UInt32
  | .vector v => v.hash
  | .window w => w.hash

/-- Equality in any mix. Two vectors are not looked into if they share their root and their tail,
which is what `shares` finds out. -/
def equals [BEq α] (shares : TrieVector α → TrieVector α → Bool) :
    Sequence α → Sequence α → Result Bool
  | .vector v, .vector w => if v.size = w.size ∧ shares v w = true then .ok true else v.equals w
  | .vector v, .window w => w.equalsVector v
  | .window w, .vector v => w.equalsVector v
  | .window w, .window u => w.equals u

section Hash

variable [HashCode α]

/-- A sequence that holds a list, and keeps no hash but that of the list. -/
def Has : Sequence α → List α → Prop
  | .vector v, l => TrieVector.Holds v l ∧ v.Fresh
  | .window w, l => w.Denotes l ∧ w.Fresh

/-- The hash of a sequence is that of a list, and of a tuple with the same members. -/
structure HashesAs (x : Sequence α) (l : List α) : Prop where
  toList : x.toList = .ok l
  hash : x.hash = .ok (Hash.ordered (l.map hashCode))
  pair : ∀ a b, l = [a, b] → x.hash = .ok (hashCode (a, b))
  triple : ∀ a b c, l = [a, b, c] → x.hash = .ok (hashCode (Triple.mk a b c))

theorem Has.toList_eq (h : x.Has l) : x.toList = .ok l := by
  cases x with
  | vector v => exact h.1.toList_eq
  | window w => exact h.1.toList_eq

theorem Has.hash_eq (h : x.Has l) : x.hash = .ok (Hash.ordered (l.map hashCode)) := by
  cases x with
  | vector v => exact h.2.hash_eq.trans h.1.contentHash_eq
  | window w => exact h.2.hash_eq.trans h.1.contentHash_eq

theorem Has.hashesAs (h : x.Has l) : x.HashesAs l where
  toList := h.toList_eq
  hash := h.hash_eq
  pair a b hl := by
    rw [h.hash_eq, hl]
    rfl
  triple a b c hl := by
    rw [h.hash_eq, hl]
    rfl

theorem exists_has {ν : Type} [BEq α] [HashCode ν] (h : Arises (x.version ν)) :
    ∃ l, x.Has l := by
  have hSequential := h.sequential
  cases x with
  | vector v =>
    obtain ⟨⟨l, hl⟩, hf⟩ := hSequential
    exact ⟨l, hl, hf⟩
  | window w =>
    obtain ⟨⟨l, hl⟩, hf⟩ := hSequential
    exact ⟨l, hl, hf⟩

/-! ## Equality of sequences -/

variable [BEq α]

omit [HashCode α] in
/-- Sizes are compared first. -/
theorem compare_eq {size size' : Nat} {xs ys : Result (List α)} (hSize : size = l.length)
    (hSize' : size' = l'.length) (hxs : xs = .ok l) (hys : ys = .ok l') :
    (if size = size' then return (← xs) == (← ys) else return false : Result Bool) =
      .ok (l == l') := by
  rw [hSize, hSize', hxs, hys]
  split
  · rfl
  · next hLength =>
    have hDiffer : (l == l') = false :=
      Bool.eq_false_iff.mpr fun h => hLength (List.length_eq_of_beq h)
    rw [hDiffer]
    rfl

variable [EquivBEq α] {shares : TrieVector α → TrieVector α → Bool}

/-- Equality is that of the lists. -/
theorem Has.equals_eq
    (hShares : ∀ v w, shares v w = true → v.root = w.root ∧ v.tail = w.tail)
    (h : x.Has l) (h' : y.Has l') : x.equals shares y = .ok (l == l') := by
  cases x with
  | vector v =>
    cases y with
    | vector w =>
      rw [equals]
      split
      · next hShared =>
        obtain ⟨hRoot, hTail⟩ := hShares v w hShared.2
        rw [h.1.eq_of_shared h'.1 hShared.1 hRoot hTail, BEq.rfl]
      · exact compare_eq h.1.size_eq h'.1.size_eq h.1.toList_eq h'.1.toList_eq
    | window w =>
      -- the window is asked, from the other side
      rw [list_beq_comm]
      exact compare_eq h'.1.size_eq h.1.size_eq h'.1.toList_eq h.1.toList_eq
  | window w =>
    cases y with
    | vector v => exact compare_eq h.1.size_eq h'.1.size_eq h.1.toList_eq h'.1.toList_eq
    | window u => exact compare_eq h.1.size_eq h'.1.size_eq h.1.toList_eq h'.1.toList_eq

end Hash

end Sequence

/-! ## Maps and sets -/

section

variable {κ ν : Type} [BEq κ] [HashCode κ] [LawfulHashCode κ] [HashCode ν] {c : Comparator κ}

omit [BEq κ] [LawfulHashCode κ] in
theorem SortedMap.Reachable.nodup_toList {s : SortedMap κ ν} (h : s.Reachable c) (hc : c.Total) :
    s.toList.Nodup := by
  obtain ⟨rfl, hw, -⟩ := h.spec hc
  rw [toList_eq_entries]
  exact List.Nodup.of_map Prod.fst (Comparator.Total.nodup hc (ascending_iff_keys.mp hw.ascending))

omit [BEq κ] [LawfulHashCode κ] [HashCode ν] in
theorem SortedSet.Reachable.nodup_toList {s : SortedSet κ} (h : s.Reachable c) (hc : c.Total) :
    s.toList.Nodup := by
  obtain ⟨rfl, hw, -⟩ := h.spec hc
  have hLists := lists_elements hw hc
  rw [hLists.toList]
  exact Comparator.Total.nodup hc hLists.ascending

namespace HashTrieMap

variable {m : HashTrieMap κ ν} {s : SortedMap κ ν}

omit [HashCode ν] in
theorem WellFormed.nodup_toList (h : m.WellFormed) : m.toList.Nodup := by
  rw [toList_eq_entries]
  exact h.nodup_keys.of_map

/-- A trie and a tree list the same entries, each of them once, in different orders. -/
theorem hash_eq_of_mem (hm : m.WellFormed) (hf : m.Fresh) (hc : c.Total) (hs : s.Reachable c)
    (h : ∀ e, e ∈ m.toList ↔ e ∈ s.toList) : m.hash = s.hash := by
  obtain ⟨-, -, hfs⟩ := hs.spec hc
  have hPerm : m.toList.Perm s.toList := by
    rw [List.perm_ext_iff_of_nodup hm.nodup_toList (hs.nodup_toList hc)]
    exact h
  rw [hf.hash_eq, hfs.hash_eq]
  exact Hash.unordered_perm (hPerm.map hashCode)

/-- Entries that are equal hash alike, so that it is enough if they match. -/
theorem hash_eq_of_covers [BEq ν] (hValues : ∀ v w : ν, (v == w) = true → hashCode v = hashCode w)
    (hm : m.WellFormed) (hf : m.Fresh) (hc : c.Total) (hs : s.Reachable c)
    (h : Covers Matches m.toList s.toList) : m.hash = s.hash := by
  obtain ⟨-, -, hfs⟩ := hs.spec hc
  have hApart := hm.apart s.toList
  rw [← toList_eq_entries] at hApart
  rw [hf.hash_eq, hfs.hash_eq]
  apply Hash.unordered_perm
  apply map_perm_of_matching h.1 h.2 hApart
  intro e _ e' _ hMatch
  show Hash.ordered [hashCode e.1, hashCode e.2] = Hash.ordered [hashCode e'.1, hashCode e'.2]
  rw [LawfulHashCode.hashCode_eq hMatch.1, hValues _ _ hMatch.2]

end HashTrieMap

namespace HashTrieSet

variable {u : HashTrieSet κ} {s : SortedSet κ} {e : Finset (HashTrieMap.KeyClass κ)}

/-- It is enough if the elements are equal. -/
theorem hash_eq_of_covers (hu : Holds u.map e) (hf : u.Fresh) (hc : c.Total)
    (hs : s.Reachable c) (h : Covers (fun x y => (x == y) = true) u.toList s.toList) :
    u.hash = s.hash := by
  obtain ⟨-, -, hfs⟩ := hs.spec hc
  have hApart : u.toList.Pairwise fun x x' =>
      ∀ y ∈ s.toList, (x == y) = true → ¬ (x' == y) = true := by
    apply (List.pairwise_map.mp hu.nodup_keys).imp
    intro x x' hne y _ hxy hxy'
    exact hne (HashTrieMap.KeyClass.of_eq_of.mpr (BEq.trans hxy (BEq.symm hxy')))
  rw [hf.hash_eq, hfs.hash_eq]
  apply Hash.unordered_perm
  apply map_perm_of_matching h.1 h.2 hApart
  intro x _ y _ hxy
  exact LawfulHashCode.hashCode_eq hxy

theorem hash_eq_of_mem (hu : Holds u.map e) (hf : u.Fresh) (hc : c.Total) (hs : s.Reachable c)
    (h : ∀ x, x ∈ u.toList ↔ x ∈ s.toList) : u.hash = s.hash := by
  have hPerm : u.toList.Perm s.toList := by
    rw [List.perm_ext_iff_of_nodup hu.nodup_toList (hs.nodup_toList hc)]
    exact h
  refine hash_eq_of_covers hu hf hc hs ⟨hPerm.length_eq, ?_⟩
  intro x hx
  exact ⟨x, (h x).mp hx, BEq.rfl⟩

end HashTrieSet

end

/-- Sequences hash as the lists that they hold, and are equal if those are, whatever their forms
and histories. Hash maps and sorted maps with the same entries, or with equal ones, have the same
hash, and so have hash sets and sorted sets. -/
theorem hashes_of_contents {κ ν : Type} [BEq κ] [HashCode κ] [HashCode ν] :
    (∀ x : Sequence κ, Arises (x.version ν) → ∃ l, x.HashesAs l) ∧
    (∀ [EquivBEq κ] (shares : TrieVector κ → TrieVector κ → Bool),
      (∀ v w, shares v w = true → v.root = w.root ∧ v.tail = w.tail) →
      ∀ x y : Sequence κ, Arises (x.version ν) → Arises (y.version ν) →
        ∃ l l', x.toList = .ok l ∧ y.toList = .ok l' ∧ x.equals shares y = .ok (l == l')) ∧
    ∀ [LawfulHashCode κ] (c : Comparator κ), c.Total →
      (∀ (m : HashTrieMap κ ν) (s : SortedMap κ ν), Arises (.hashMap (s := .frozen) m) →
        s.Reachable c →
        ((∀ e, e ∈ m.toList ↔ e ∈ s.toList) → m.hash = s.hash) ∧
        ∀ [BEq ν], (∀ v w : ν, (v == w) = true → hashCode v = hashCode w) →
          Covers HashTrieMap.Matches m.toList s.toList → m.hash = s.hash) ∧
      ∀ (u : HashTrieSet κ) (s : SortedSet κ),
        Arises (.hashSet (s := .frozen) u : Version κ ν) → s.Reachable c →
        ((∀ x, x ∈ u.toList ↔ x ∈ s.toList) → u.hash = s.hash) ∧
        (Covers (fun x y => (x == y) = true) u.toList s.toList → u.hash = s.hash) := by
  refine ⟨?_, ?_, ?_⟩
  · intro x hx
    obtain ⟨l, hl⟩ := Sequence.exists_has hx
    exact ⟨l, hl.hashesAs⟩
  · intro _ shares hShares x y hx hy
    obtain ⟨l, hl⟩ := Sequence.exists_has hx
    obtain ⟨l', hl'⟩ := Sequence.exists_has hy
    exact ⟨l, l', hl.toList_eq, hl'.toList_eq, hl.equals_eq hShares hl'⟩
  · intro _ c hc
    constructor
    · intro m s hm hs
      obtain ⟨⟨f, hModels⟩, hf⟩ := hm.sound
      have hWellFormed : m.WellFormed := hModels.wellFormed
      refine ⟨HashTrieMap.hash_eq_of_mem hWellFormed hf hc hs, ?_⟩
      intro _ hValues hCovers
      exact HashTrieMap.hash_eq_of_covers hValues hWellFormed hf hc hs hCovers
    · intro u s hu hs
      obtain ⟨⟨e, hHolds⟩, hf⟩ := hu.sound
      exact ⟨HashTrieSet.hash_eq_of_mem hHolds hf hc hs,
        HashTrieSet.hash_eq_of_covers hHolds hf hc hs⟩

/-! ## An example -/

/-- Numbers by magnitude in a set. -/
def minusThreeSet : SortedSet Int64 := ((SortedSet.empty longsByMagnitude).insert (-3)).insert 1

theorem minusThreeSet_reachable : minusThreeSet.Reachable longsByMagnitude :=
  .insert 1 (.insert (-3) .empty)

theorem minusThreeFirst_reachable : minusThreeFirst.Reachable longsByMagnitude :=
  .hashed (.insert 1 6 (.insert (-3) 5 .empty))

/-- A vector, and a window that does not begin where its backing vector does, with one list. -/
theorem exists_vector_and_window : ∃ (v : TrieVector Int64) (w : TrieVector.Window Int64),
    Arises ((Sequence.vector v).version Int64) ∧ Arises ((Sequence.window w).version Int64) ∧
    w.start = 1 ∧ (Sequence.vector v).toList = .ok [1, 2] ∧
    (Sequence.window w).toList = .ok [1, 2] := by
  obtain ⟨v, hv, hHolds⟩ := exists_vector Int64 [(1 : Int64), 2]
  obtain ⟨v', ⟨store, hReached, hv'⟩, hHolds'⟩ := exists_vector Int64 [(0 : Int64), 1, 2, 3]
  obtain ⟨w, hWindow, hDenotes⟩ := hHolds'.window (show 1 ≤ 3 by decide) (show 3 ≤ 4 by decide)
  have hStart : w.start = 1 := by
    rw [TrieVector.window, if_pos ⟨by decide, hHolds'.size_eq ▸ by decide⟩] at hWindow
    cases hWindow
    rfl
  exact ⟨v, w, hv, (Makes.window 1 3 hv' hWindow).arises hReached, hStart, hHolds.toList_eq,
    hDenotes.toList_eq⟩

/-- The insertions of the entries of `minusThreeFirst`. -/
def insertMinusThree : HashTrieMap.Calls Int64 Int64 .frozen .frozen :=
  .cons (.insert (-3) 5) (.cons (.insert 1 6) .nil)

theorem exists_hashMap_minusThree : ∃ m : HashTrieMap Int64 Int64,
    Arises (.hashMap (s := .frozen) m) ∧ ∀ e, e ∈ m.toList ↔ e ∈ minusThreeFirst.toList := by
  have hEmpty : Arises (.hashMap (s := .frozen) .empty : Version Int64 Int64) :=
    Makes.emptyMap.arises .refl
  have hModelsEmpty : HashTrieMap.Models (HashTrieMap.Held.content (s := .frozen)
      (HashTrieMap.empty : HashTrieMap Int64 Int64)) ∅ := HashTrieMap.models_empty
  obtain ⟨es, ⟨answers, m⟩, hYields, hm⟩ := hEmpty.run insertMinusThree
  obtain ⟨-, hModels⟩ := (insertMinusThree.run_models hModelsEmpty).ensures.of_yields hYields
  have hEntries : minusThreeFirst.toList = [(1, 6), (-3, 5)] := by
    rw [SortedMap.toList_eq_entries]
    decide +kernel
  refine ⟨m, hm, ?_⟩
  rintro ⟨key, value⟩
  have hMem : (key, value) ∈ m.toList ↔ (Finmap.insert (.of 1) 6 (Finmap.insert (.of (-3)) 5
      (∅ : HashTrieMap.FiniteMap Int64 Int64))).lookup (.of key) = some value :=
    hModels.mem_toList
  have hOf : ∀ k : Int64, key ≠ k →
      HashTrieMap.KeyClass.of key ≠ HashTrieMap.KeyClass.of k :=
    fun k hne hSame => hne (HashTrieMap.KeyClass.of_injective hSame)
  rw [hMem, hEntries]
  by_cases hOne : key = 1
  · rw [hOne, Finmap.lookup_insert]
    simp [eq_comm]
  · rw [Finmap.lookup_insert_of_ne _ (hOf 1 hOne)]
    by_cases hThree : key = -3
    · rw [hThree, Finmap.lookup_insert]
      simp [eq_comm]
    · rw [Finmap.lookup_insert_of_ne _ (hOf (-3) hThree)]
      simp [hOne, hThree]

theorem exists_hashSet_minusThree : ∃ u : HashTrieSet Int64,
    Arises (.hashSet (s := .frozen) u : Version Int64 Int64) ∧
    ∀ x, x ∈ u.toList ↔ x ∈ minusThreeSet.toList := by
  have hEmpty : Reached [(.hashSet (s := .frozen) .empty : Version Int64 Int64)] :=
    .single (.beside .emptySet)
  have hHoldsEmpty : HashTrieSet.Holds (HashTrieSet.Held.content (s := .frozen)
      (HashTrieSet.empty : HashTrieSet Int64)) ∅ := HashTrieSet.holds_empty
  obtain ⟨es, ⟨answers, u'⟩, hYields, -, hu'⟩ :=
    (HashTrieSet.Call.insert (-3 : Int64)).run_holds hHoldsEmpty
  obtain ⟨es', ⟨answers', u⟩, hYields', -, hHolds⟩ :=
    (HashTrieSet.Call.insert (1 : Int64)).run_holds hu'
  have hStore := hEmpty.tail (.inPlace 0 (.setCall _ (List.mem_singleton_self _) hYields))
  have hElements : minusThreeSet.toList = [1, -3] := by
    rw [SortedSet.toList, SortedMap.keys, SortedMap.toList_eq_entries]
    decide +kernel
  refine ⟨u, (Makes.setCall _ (List.mem_singleton_self _) hYields').arises hStore, ?_⟩
  intro x
  have hMem : x ∈ u.toList ↔ HashTrieMap.KeyClass.of x ∈
      (∅ ∪ {.of (-3)} ∪ {.of 1} : Finset (HashTrieMap.KeyClass Int64)) := hHolds.mem_toList
  rw [hMem, hElements]
  simp [HashTrieMap.KeyClass.of_injective.eq_iff, or_comm]

theorem hashes_of_contents_longs :
    (∀ v w : TrieVector Int64, false = true → v.root = w.root ∧ v.tail = w.tail) ∧
    (∃ (v : TrieVector Int64) (w : TrieVector.Window Int64),
      Arises ((Sequence.vector v).version Int64) ∧
      Arises ((Sequence.window w).version Int64) ∧ w.start = 1 ∧
      (Sequence.vector v).hash = .ok (hashCode ((1, 2) : Int64 × Int64)) ∧
      (Sequence.window w).hash = .ok (hashCode ((1, 2) : Int64 × Int64)) ∧
      (Sequence.vector v).equals (fun _ _ => false) (.window w) = .ok true ∧
      (Sequence.window w).equals (fun _ _ => false) (.vector v) = .ok true) ∧
    longsByMagnitude.Total ∧
    (∃ m : HashTrieMap Int64 Int64, Arises (.hashMap (s := .frozen) m) ∧
      minusThreeFirst.Reachable longsByMagnitude ∧
      (∀ e, e ∈ m.toList ↔ e ∈ minusThreeFirst.toList) ∧ m.hash = minusThreeFirst.hash) ∧
    ∃ u : HashTrieSet Int64, Arises (.hashSet (s := .frozen) u : Version Int64 Int64) ∧
      minusThreeSet.Reachable longsByMagnitude ∧
      (∀ x, x ∈ u.toList ↔ x ∈ minusThreeSet.toList) ∧ u.hash = minusThreeSet.hash := by
  have hShares : ∀ v w : TrieVector Int64, false = true → v.root = w.root ∧ v.tail = w.tail :=
    nofun
  have hc := longsByMagnitude_total
  obtain ⟨hSequences, hEquals, hUnordered⟩ := @hashes_of_contents Int64 Int64 _ _ _
  obtain ⟨hMaps, hSets⟩ := hUnordered longsByMagnitude hc
  refine ⟨hShares, ?_, hc, ?_, ?_⟩
  · obtain ⟨v, w, hv, hw, hStart, hList, hList'⟩ := exists_vector_and_window
    obtain ⟨l, hl⟩ := hSequences _ hv
    obtain ⟨l', hl'⟩ := hSequences _ hw
    cases hl.toList.symm.trans hList
    cases hl'.toList.symm.trans hList'
    obtain ⟨_, _, hx, hy, hLeft⟩ := hEquals _ hShares _ _ hv hw
    cases hx.symm.trans hList
    cases hy.symm.trans hList'
    obtain ⟨_, _, hy, hx, hRight⟩ := hEquals _ hShares _ _ hw hv
    cases hx.symm.trans hList
    cases hy.symm.trans hList'
    exact ⟨v, w, hv, hw, hStart, hl.pair 1 2 rfl, hl'.pair 1 2 rfl, hLeft, hRight⟩
  · obtain ⟨m, hm, hSame⟩ := exists_hashMap_minusThree
    have hReachable := minusThreeFirst_reachable
    exact ⟨m, hm, hReachable, hSame, (hMaps m _ hm hReachable).1 hSame⟩
  · obtain ⟨u, hu, hSame⟩ := exists_hashSet_minusThree
    have hReachable := minusThreeSet_reachable
    exact ⟨u, hu, hReachable, hSame, (hSets u _ hu hReachable).1 hSame⟩

end PersistentCollections
