import PersistentCollections.Proofs.HashTrieMap.Traversal
import PersistentCollections.Proofs.SortedMap.Traversal
import PersistentCollections.Proofs.TrieVector.Cursor

/-!
# Folds over the collections

Each collection has a fold of its own: a loop over leaves, over an iterator, or over an array, a
recursion over nodes that begins with the entry of nil, or the fold of the map behind a set. Each is
the fold over the list that the collection gives when it is iterated (`Reduces`), so the step
function is not applied to anything behind the member at which it stopped the fold.

The folds that cannot fail are compared as computations that do not fail.
-/

namespace PersistentCollections

namespace TrieVector

variable {α : Type} {b l : List α}

theorem Holds.reduces {v : TrieVector α} (h : Holds v l) : Reduces v.reduceM l := by
  apply Reduces.of_effects
  intro m _ _ β f b
  rw [reduceM, h.size_eq, h.foldRange_eq (Nat.le_refl _), List.take_length, List.drop_zero]

theorem Window.Denotes.reduces {w : Window α} (h : w.Denotes l) : Reduces w.reduceM l := by
  apply Reduces.of_effects
  intro m _ _ β f b
  obtain ⟨-, b', hHolds, hStop, rfl⟩ := h
  rw [Window.reduceM, hHolds.foldRange_eq hStop, List.extract_eq_drop_take']

theorem Cursor.Shows.reduces {c : Cursor α} {stop : Nat} (h : c.Shows b stop l) :
    Reduces c.reduceM l := Reduces.of_effects h.reduceM

end TrieVector

section

variable {κ ν α : Type}

/-- Both folds of a map, over entries and over keys and values, are those over a list of entries. -/
theorem HashTrieMap.Traversed.reduces {m : HashTrieMap κ ν} {es : List (κ × ν)}
    (h : m.Traversed es) : Reduces (fun f b => ExceptT.lift (m.reduceM f b)) es ∧
      Reduces (fun f b => ExceptT.lift (m.reduceEntriesM (fun b k v => f b (k, v)) b)) es := by
  constructor
  · exact Reduces.of_effects fun f b => congrArg ExceptT.lift (h.reduceM f b)
  · exact Reduces.of_effects fun f b => congrArg ExceptT.lift (h.reduceEntriesM _ b)

theorem HashTrieSet.Traversed.reduces {s : HashTrieSet α} {xs : List α} (h : s.Traversed xs) :
    Reduces (fun f b => ExceptT.lift (s.reduceM f b)) xs :=
  Reduces.of_effects fun f b => congrArg ExceptT.lift (h.reduceM f b)

theorem SortedMap.visit_iter {m : Type → Type} [Monad m] {β : Type} (s : SortedMap κ ν)
    (f : β → κ × ν → m (ForInStep β)) (b : β) : s.iter.visit f b = visitList f s.toList b := by
  rw [Iter.visit_eq, toList, Iter.toList_eq_rest]

theorem SortedMap.reduces (m : SortedMap κ ν) :
    Reduces (fun f b => ExceptT.lift (m.reduceM f b)) m.toList ∧
      Reduces (fun f b => ExceptT.lift (m.reduceEntriesM (fun b k v => f b (k, v)) b))
        m.toList := by
  constructor
  · exact Reduces.of_effects fun f b =>
      congrArg (fun x => ExceptT.lift (finalValue <$> x)) (m.visit_iter f b)
  · exact Reduces.of_effects fun f b =>
      congrArg (fun x => ExceptT.lift (finalValue <$> x)) (m.visit_iter _ b)

theorem SortedSet.reduces (s : SortedSet α) :
    Reduces (fun f b => ExceptT.lift (s.reduceM f b)) s.toList := by
  apply Reduces.of_effects
  intro m _ _ β f b
  rw [reduceM, SortedMap.reduceM, s.map.visit_iter, toList, SortedMap.keys, visitList_map]

end

/-- The fold of every collection is the one over the list that it gives when it is iterated. Vectors
and windows are those that arise, and so are those whose cursors are moved in any way; the others
need not arise at all. -/
theorem collections_reduce (κ ν : Type) [BEq κ] [HashCode κ] [HashCode ν] :
    (∀ v : TrieVector κ, Arises (.vector (s := .frozen) v : Version κ ν) →
      ∃ l, v.toList = .ok l ∧ Reduces v.reduceM l ∧
        ∀ c, v.cursor = .ok (some c) → ∀ c', c.Leads c' →
          ∃ r, TrieVector.Cursor.Walks (some c') r ∧ Reduces c'.reduceM r) ∧
    (∀ w : TrieVector.Window κ, Arises (.window w : Version κ ν) →
      ∃ l, w.toList = .ok l ∧ Reduces w.reduceM l ∧
        ∀ c, w.cursor = .ok (some c) → ∀ c', c.Leads c' →
          ∃ r, TrieVector.Cursor.Walks (some c') r ∧ Reduces c'.reduceM r) ∧
    (∀ m : HashTrieMap κ ν, Reduces (fun f b => ExceptT.lift (m.reduceM f b)) m.toList ∧
      Reduces (fun f b => ExceptT.lift (m.reduceEntriesM (fun b k v => f b (k, v)) b)) m.toList) ∧
    (∀ s : HashTrieSet κ, Reduces (fun f b => ExceptT.lift (s.reduceM f b)) s.toList) ∧
    (∀ m : SortedMap κ ν, Reduces (fun f b => ExceptT.lift (m.reduceM f b)) m.toList ∧
      Reduces (fun f b => ExceptT.lift (m.reduceEntriesM (fun b k v => f b (k, v)) b)) m.toList) ∧
    ∀ s : SortedSet κ, Reduces (fun f b => ExceptT.lift (s.reduceM f b)) s.toList := by
  have hCursors {b : List κ} {start stop : Nat} {x : Result (Option (TrieVector.Cursor κ))}
      {y : Result (Option (TrieVector.BackCursor κ))} (h : TrieVector.Cursors b start stop x y) :
      ∀ c, x = .ok (some c) → ∀ c', c.Leads c' →
        ∃ r, TrieVector.Cursor.Walks (some c') r ∧ Reduces c'.reduceM r := by
    intro c hc c' hLeads
    obtain ⟨o, ho, -, hShows⟩ := h.cursor
    cases hc.symm.trans ho
    have hShown := ((hShows c rfl).2 c' hLeads).2
    exact ⟨_, hShown.walks, hShown.reduces⟩
  refine ⟨?_, ?_, ?_, ?_, SortedMap.reduces, SortedSet.reduces⟩
  · intro v h
    obtain ⟨⟨l, hHolds⟩, -⟩ := h.sequential
    have hHolds : TrieVector.Holds v l := hHolds
    exact ⟨l, hHolds.toList_eq, hHolds.reduces, hCursors hHolds.cursors⟩
  · intro w h
    obtain ⟨⟨l, hDenotes⟩, -⟩ := h.sequential
    obtain ⟨b, -, -, hAll⟩ := hDenotes.cursors
    exact ⟨l, hDenotes.toList_eq, hDenotes.reduces, hCursors hAll⟩
  · exact fun m => m.traversed_toList.reduces
  · exact fun s => s.traversed_toList.reduces

/-- Add up numbers, and stop with the sum at the first one that is forty or more. -/
def sumBelowForty (sum x : Int64) : ForInStep Int64 :=
  if x < 40 then .yield (sum + x) else .done sum

/-- A fold that stops inside of the second leaf of a vector, one that ends with a window before it
would stop, and one of a cursor that was moved to the second leaf. -/
theorem collections_reduce_sumBelowForty : ∃ (v : TrieVector Int64) (w : TrieVector.Window Int64)
    (c c' : TrieVector.Cursor Int64),
    Arises (.vector (s := .frozen) v : Version Int64 Int64) ∧
    Arises (.window w : Version Int64 Int64) ∧ v.cursor = .ok (some c) ∧ c.Leads c' ∧
    v.reduceM (recording sumBelowForty) 0 [] = (.ok 780, TrieVector.seventy.take 41) ∧
    w.reduceM (recording sumBelowForty) 0 [] =
      (.ok 770, TrieVector.seventy.extract 5 40) ∧
    c'.reduceM (recording sumBelowForty) 0 [] = (.ok 284, TrieVector.seventy.extract 32 41) := by
  have hLength : TrieVector.seventy.length = 70 := rfl
  obtain ⟨hVectors, hWindows, -⟩ := collections_reduce Int64 Int64
  obtain ⟨v, hArises, hHolds⟩ := exists_vector Int64 TrieVector.seventy
  have hVector := hArises
  obtain ⟨store, hReached, hv⟩ := hArises
  obtain ⟨w, hWindow, hDenotes⟩ := hHolds.window (show 5 ≤ 40 by decide) (by rw [hLength]; decide)
  have hw := (Makes.window 5 40 hv hWindow).arises hReached
  obtain ⟨l, hList, hFold, hCursorFolds⟩ := hVectors v hVector
  obtain ⟨l', hList', hFold', -⟩ := hWindows w hw
  cases hList.symm.trans hHolds.toList_eq
  cases hList'.symm.trans hDenotes.toList_eq
  obtain ⟨c, c', hCursor, hNext, hIndex, hShows⟩ :=
    hHolds.cursors.exists_at_next_leaf (by decide) (Nat.le_refl _)
  have hLeads : c.Leads c' := .single (.inr hNext)
  obtain ⟨r, hWalks, hFold''⟩ := hCursorFolds c hCursor c' hLeads
  have hRest : r = TrieVector.seventy.extract 32 70 := by
    rw [hWalks.unique hShows.walks, hIndex]
    rfl
  refine ⟨v, w, c, c', hVector, hw, hCursor, hLeads, ?_, ?_, ?_⟩
  · rw [hFold.effects]
    rfl
  · rw [hFold'.effects]
    rfl
  · rw [hFold''.effects, hRest]
    rfl

end PersistentCollections
