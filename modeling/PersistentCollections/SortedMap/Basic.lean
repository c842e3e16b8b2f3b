import PersistentCollections.Comparator
import PersistentCollections.Hash.Fx
import PersistentCollections.Reduce
import PersistentCollections.SortedMap.Tree
import PersistentCollections.Text

/-!
# Sorted maps

A red-black tree of entries, ordered by a comparator that the map keeps. Two keys are the same key
if the comparator says so; the stored one stays.

A walk through the tree, in either direction, keeps a stack of frames: entries, each with the
subtree that comes after it. `Iter` is such a walk, with the number of entries left where that is
known.
-/

namespace PersistentCollections

/-- A sorted map. `cache` holds its hash once that has been asked for. -/
structure SortedMap (κ ν : Type) where
  comparator : Comparator κ
  root : SortedMap.Tree κ ν
  size : Nat
  cache : Option UInt32

namespace SortedMap

variable {κ ν : Type}

/-- The empty map with a given order. -/
def empty (c : Comparator κ) : SortedMap κ ν := ⟨c, .nil, 0, none⟩

def isEmpty (m : SortedMap κ ν) : Bool := m.size == 0

/-! ## Single entries -/

/-- The stored entry of a key. -/
def entryAt? (m : SortedMap κ ν) (key : κ) : Option (κ × ν) :=
  m.root.find? m.comparator.compare key

def get? (m : SortedMap κ ν) (key : κ) : Option ν := (m.entryAt? key).map (·.2)

def getD (m : SortedMap κ ν) (key : κ) (fallback : ν) : ν := (m.get? key).getD fallback

def contains (m : SortedMap κ ν) (key : κ) : Bool := (m.entryAt? key).isSome

/-- The stored keys that a search compares a key with, in order. -/
def searchPath (m : SortedMap κ ν) (key : κ) : List κ :=
  m.root.searchPath m.comparator.compare key

/-- The entry with the least key. -/
def first? (m : SortedMap κ ν) : Option (κ × ν) := m.root.first?

/-- The entry with the greatest key. -/
def last? (m : SortedMap κ ν) : Option (κ × ν) := m.root.last?

/-! ## Changing -/

def insert (m : SortedMap κ ν) (key : κ) (value : ν) : SortedMap κ ν :=
  match m.root.add? m.comparator.compare (key, value) with
  | some root => ⟨m.comparator, root.blacken, m.size + 1, none⟩
  | none =>
    match m.root with
    | .nil => m
    | root => ⟨m.comparator, root.setValue m.comparator.compare key value, m.size, none⟩

def erase (m : SortedMap κ ν) (key : κ) : Result (SortedMap κ ν) := do
  match ← m.root.erase? m.comparator.compare key with
  | none => return m
  | some root =>
    if m.size = 0 then broken .countUnderflow
    else return ⟨m.comparator, root.blacken, m.size - 1, none⟩

/-- The map of the entries of a list, in the order that keys have by themselves. -/
def ofList [Ord κ] (entries : List (κ × ν)) : SortedMap κ ν :=
  entries.foldl (fun m e => m.insert e.1 e.2) (empty .natural)

/-! ## Walking -/

/-- An entry, and the subtree that comes after it in the direction of travel. -/
structure Frame (κ ν : Type) where
  entry : κ × ν
  onward : Tree κ ν

/-- Put the way to the first entry of a tree on a stack. -/
def descend (ascending : Bool) : Tree κ ν → List (Frame κ ν) → List (Frame κ ν)
  | .nil, stack => stack
  | .node _ l x r, stack =>
    if ascending then descend ascending l (⟨x, r⟩ :: stack)
    else descend ascending r (⟨x, l⟩ :: stack)

/-- Put the way to the first entry that is not before a key on a stack. -/
def descendTo (cmp : κ → κ → Ordering) (key : κ) (ascending : Bool) :
    Tree κ ν → List (Frame κ ν) → List (Frame κ ν)
  | .nil, stack => stack
  | .node _ l x r, stack =>
    match cmp key x.1 with
    | .eq => ⟨x, if ascending then r else l⟩ :: stack
    | .lt => descendTo cmp key ascending l (if ascending then ⟨x, r⟩ :: stack else stack)
    | .gt => descendTo cmp key ascending r (if ascending then stack else ⟨x, l⟩ :: stack)

/-- The number of entries that a stack leads to. -/
def weight : List (Frame κ ν) → Nat
  | [] => 0
  | frame :: stack => frame.onward.size + 1 + weight stack

theorem weight_descend (ascending : Bool) (t : Tree κ ν) (stack : List (Frame κ ν)) :
    weight (descend ascending t stack) = t.size + weight stack := by
  induction t generalizing stack with
  | nil => simp [descend, Tree.size]
  | node c l x r ihl ihr =>
    unfold descend
    split
    · rw [ihl]; simp [weight, Tree.size]; omega
    · rw [ihr]; simp [weight, Tree.size]; omega

/-- A walk through a tree. `remaining` is the number of entries left where that is known. -/
structure Iter (κ ν : Type) where
  stack : List (Frame κ ν)
  ascending : Bool
  remaining : Option Nat

namespace Iter

/-- The walk through a whole tree of a known size. -/
def whole (root : Tree κ ν) (ascending : Bool) (size : Nat) : Iter κ ν :=
  ⟨descend ascending root [], ascending, some size⟩

/-- The walk from the first key that is not before a given one. -/
def startingAt (cmp : κ → κ → Ordering) (root : Tree κ ν) (key : κ) (ascending : Bool) : Iter κ ν :=
  ⟨descendTo cmp key ascending root [], ascending, none⟩

/-- The next entry, and the walk after it. -/
def next (it : Iter κ ν) : Option ((κ × ν) × Iter κ ν) :=
  match it.stack with
  | [] => none
  | frame :: stack =>
    some (frame.entry,
      { it with
        stack := descend it.ascending frame.onward stack
        remaining := it.remaining.map (· - 1) })

/-- The least number of entries left, and the greatest where that is known. -/
def sizeHint (it : Iter κ ν) : Nat × Option Nat :=
  match it.remaining with
  | some n => (n, some n)
  | none => (it.stack.length, none)

/-- The next entries, at most `n` of them, and the walk after them. -/
def take : Nat → Iter κ ν → List (κ × ν) × Iter κ ν
  | 0, it => ([], it)
  | n + 1, it =>
    match it.next with
    | none => ([], it)
    | some (entry, it) =>
      let (entries, it) := take n it
      (entry :: entries, it)

theorem weight_lt_of_next {it it' : Iter κ ν} {entry : κ × ν}
    (h : it.next = some (entry, it')) : weight it'.stack < weight it.stack := by
  unfold next at h
  split at h
  · cases h
  · next frame stack hs =>
    cases h
    simp only [weight_descend, hs]
    simp [weight]

/-- Fold over all entries that are left; the step function can stop the fold. -/
def visit {m : Type → Type} [Monad m] {β : Type} (f : β → κ × ν → m (ForInStep β))
    (it : Iter κ ν) (b : β) : m (ForInStep β) :=
  match _h : it.next with
  | none => pure (.yield b)
  | some (entry, it') => do
    match ← f b entry with
    | .done b => return .done b
    | .yield b => visit f it' b
termination_by weight it.stack
decreasing_by exact weight_lt_of_next _h

/-- All entries that are left, after those in `entries`. -/
def collect (it : Iter κ ν) (entries : Array (κ × ν)) : Array (κ × ν) :=
  match _h : it.next with
  | none => entries
  | some (entry, it') => collect it' (entries.push entry)
termination_by weight it.stack
decreasing_by exact weight_lt_of_next _h

def toList (it : Iter κ ν) : List (κ × ν) := (it.collect #[]).toList

end Iter

/-- The walk from the least key to the greatest. -/
def iter (m : SortedMap κ ν) : Iter κ ν := .whole m.root true m.size

/-- The entries, in ascending order. -/
def toList (m : SortedMap κ ν) : List (κ × ν) := m.iter.toList

def keys (m : SortedMap κ ν) : List κ := m.toList.map (·.1)

def values (m : SortedMap κ ν) : List ν := m.toList.map (·.2)

/-- Fold over the entries in ascending order; the step function can stop the fold. -/
def reduceM {μ : Type → Type} [Monad μ] {β : Type} (m : SortedMap κ ν)
    (f : β → κ × ν → μ (ForInStep β)) (b : β) : μ β :=
  finalValue <$> m.iter.visit f b

/-- Fold over keys and values in ascending order; the step function can stop the fold. -/
def reduceEntriesM {μ : Type → Type} [Monad μ] {β : Type} (m : SortedMap κ ν)
    (f : β → κ → ν → μ (ForInStep β)) (b : β) : μ β :=
  finalValue <$> m.iter.visit (fun b e => f b e.1 e.2) b

/-! ## Equality, hash and check -/

/-- Two maps are equal if they have as many entries and each entry of the one is found in the
other, by the order of the other, with an equal value. -/
def equals [BEq ν] (a b : SortedMap κ ν) : Bool :=
  a.size == b.size && a.toList.all fun e =>
    match b.get? e.1 with
    | some other => e.2 == other
    | none => false

/-- The hash of the entries, read afresh. -/
def contentHash [HashCode κ] [HashCode ν] (m : SortedMap κ ν) : UInt32 :=
  Hash.unordered (m.toList.map hashCode)

/-- The hash, taken from the cache if it is there. -/
def hash [HashCode κ] [HashCode ν] (m : SortedMap κ ν) : UInt32 := m.cache.getD m.contentHash

/-- The same map with its hash in the cache. -/
def hashed [HashCode κ] [HashCode ν] (m : SortedMap κ ν) : SortedMap κ ν :=
  { m with cache := some m.hash }

/-- Look for a flaw in the tree: a red root, a red node with a red child, paths with different
numbers of black nodes, keys that are not strictly increasing, a wrong count. -/
def check (m : SortedMap κ ν) : Except Flaw Unit := do
  Flaw.redRoot.unless !m.root.isRed
  let (_, count) ← m.root.verify m.comparator.compare none none
  Flaw.count.unless (count == m.size)

/-- The text of a map, given the texts of keys and values. -/
def text (key : κ → String) (value : ν → String) (m : SortedMap κ ν) : String :=
  Text.ofMap (m.toList.map fun e => (key e.1, value e.2))

end SortedMap

end PersistentCollections
