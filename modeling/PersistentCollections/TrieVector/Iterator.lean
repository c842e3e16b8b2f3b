import PersistentCollections.Hash.Fx
import PersistentCollections.Text
import PersistentCollections.TrieVector.Basic

/-!
# Reading a vector in order

An iterator walks a range of a vector one leaf at a time. It says how many elements are left. The
list of the elements, equality and the hash are read off it. `foldRange` is a loop of its own over
the leaves of a range, which the step function can stop.
-/

namespace PersistentCollections.TrieVector

variable {α : Type}

/-- An iterator: the rest of the current leaf, and the range that comes after it. -/
structure Iter (α : Type) where
  vector : TrieVector α
  chunk : List α
  pos : Nat
  stop : Nat

namespace Iter

/-- The elements with indices from `start` up to and without `stop`. -/
def range (v : TrieVector α) (start stop : Nat) : Iter α := ⟨v, [], start, stop⟩

/-- The number of elements left. -/
def remaining (it : Iter α) : Nat := it.chunk.length + (it.stop - it.pos)

/-- The next element, and the iterator after it. -/
def next (it : Iter α) : Result (Option (α × Iter α)) :=
  match it.chunk with
  | x :: rest => .ok (some (x, { it with chunk := rest }))
  | [] =>
    if it.stop ≤ it.pos then .ok none
    else do
      match ← span (← it.vector.leafFor it.pos) it.pos it.stop with
      | [] => return none
      | x :: rest => return some (x, { it with chunk := rest, pos := it.pos + (rest.length + 1) })

/-- The next elements, at most `n` of them, and the iterator after them. -/
def take : Nat → Iter α → Result (List α × Iter α)
  | 0, it => .ok ([], it)
  | n + 1, it => do
    match ← it.next with
    | none => return ([], it)
    | some (x, it) =>
      let (xs, it) ← take n it
      return (x :: xs, it)

theorem length_span_le {items : Array α} {pos stop : Nat} {xs : List α}
    (h : span items pos stop = .ok xs) : xs.length ≤ stop - pos := by
  unfold span at h
  simp only [] at h
  split at h
  · cases h
    simp only [Array.length_toList, Array.size_extract]
    omega
  · cases h

/-- A step of an iterator uses up at least one element. -/
theorem remaining_lt_of_next {it it' : Iter α} {x : α} (h : it.next = .ok (some (x, it'))) :
    it'.remaining < it.remaining := by
  unfold next at h
  split at h
  · next hc => cases h; simp [remaining, hc]
  · next hc =>
    split at h
    · cases h
    · next hlt =>
      cases hl : it.vector.leafFor it.pos with
      | error e => simp [hl, bind, Except.bind] at h
      | ok items =>
        cases hs : span items it.pos it.stop with
        | error e => simp [hl, hs, bind, Except.bind] at h
        | ok xs =>
          have hle := length_span_le hs
          cases xs with
          | nil => simp [hl, hs, bind, Except.bind, pure, Except.pure] at h
          | cons y rest =>
            simp only [hl, hs, bind, Except.bind, pure, Except.pure, Except.ok.injEq,
              Option.some.injEq, Prod.mk.injEq] at h
            obtain ⟨rfl, rfl⟩ := h
            simp only [remaining, hc, List.length_cons, List.length_nil] at hle ⊢
            omega

/-- Fold over all elements that are left. -/
def fold {β : Type} (f : β → α → β) (it : Iter α) (b : β) : Result β :=
  match _h : it.next with
  | .error e => .error e
  | .ok none => .ok b
  | .ok (some (x, it')) => fold f it' (f b x)
termination_by it.remaining
decreasing_by exact remaining_lt_of_next _h

/-- All elements that are left. -/
def toList (it : Iter α) : Result (List α) := do
  return (← it.fold (fun (xs : Array α) x => xs.push x) #[]).toList

end Iter

def iter (v : TrieVector α) : Iter α := .range v 0 v.size

def toList (v : TrieVector α) : Result (List α) := v.iter.toList

/-! ## Folding -/

/-- Fold over a range, leaf by leaf. -/
def foldRange {m : Type → Type} [Monad m] {β : Type} (v : TrieVector α)
    (f : β → α → m (ForInStep β)) (pos stop : Nat) (b : β) : ExceptT Error m β := do
  if pos < stop then
    let items ← liftResult (v.leafFor pos)
    let chunk ← liftResult (span items pos stop)
    match chunk with
    | [] => liftResult (broken (.itemMissing (pos % width) items.size))
    | x :: xs =>
      match ← ExceptT.lift (visitList f (x :: xs) b) with
      | .done b => return b
      | .yield b => foldRange v f (pos + (xs.length + 1)) stop b
  else return b
termination_by stop - pos

/-- Fold over all elements; the step function can stop the fold. -/
def reduceM {m : Type → Type} [Monad m] {β : Type} (v : TrieVector α)
    (f : β → α → m (ForInStep β)) (b : β) : ExceptT Error m β := v.foldRange f 0 v.size b

/-! ## Equality and hash -/

/-- Two vectors are equal if they hold equal elements in the same order. -/
def equals [BEq α] (v w : TrieVector α) : Result Bool := do
  if v.size = w.size then return (← v.toList) == (← w.toList) else return false

/-- The hash of the elements, read afresh. -/
def contentHash [HashCode α] (v : TrieVector α) : Result UInt32 := do
  return Hash.ordered ((← v.toList).map hashCode)

/-- The hash, taken from the cache if it is there. -/
def hash [HashCode α] (v : TrieVector α) : Result UInt32 :=
  match v.cache with
  | some h => .ok h
  | none => v.contentHash

/-- The same vector with its hash in the cache. -/
def hashed [HashCode α] (v : TrieVector α) : Result (TrieVector α) := do
  return { v with cache := some (← v.hash) }

/-- The text of a vector, given the text of its elements. -/
def text (shown : α → String) (v : TrieVector α) : Result String := do
  return Text.ofList ((← v.toList).map shown)

end PersistentCollections.TrieVector
