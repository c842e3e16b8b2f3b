import PersistentCollections.Hash.Fx
import PersistentCollections.Text
import PersistentCollections.HashTrieMap.Basic

/-!
# Reading a hash map in order

An iterator keeps a stack of what is still to be visited. The entry of a nil key comes first, then
the trie depth first, each node in the order of its places. `visitEntries` visits the same entries
by recursion over the nodes. The list of the entries, equality and the hash are read off the
iterator.
-/

namespace PersistentCollections.HashTrieMap

variable {κ ν : Type}

/-- The unvisited part of one node. -/
inductive Pending (κ ν : Type) where
  | entries (rest : List (κ × ν))
  | slots (rest : List (Slot κ ν))
  | children (rest : List (Option (Node κ ν)))

/-- A node of which nothing has been visited. -/
def Node.pending : Node κ ν → Pending κ ν
  | .bitmap _ _ slots => .slots slots
  | .array _ _ children => .children children
  | .collision _ _ entries => .entries entries

/-- What is to be visited of a whole map. -/
def Shape.pending : Shape κ ν → List (Pending κ ν)
  | .flat entries => [.entries entries]
  | .trie root none => [root.pending]
  | .trie root (some entry) => [.entries [entry], root.pending]

theorem Node.sizeOf_pending_le (node : Node κ ν) : sizeOf node.pending ≤ sizeOf node := by
  cases node <;>
    simp only [pending, Pending.slots.sizeOf_spec, Pending.children.sizeOf_spec,
      Pending.entries.sizeOf_spec, Node.bitmap.sizeOf_spec, Node.array.sizeOf_spec,
      Node.collision.sizeOf_spec] <;>
    omega

/-! ## Iterators -/

/-- The next entry, and what is to be visited after it. -/
def advance : List (Pending κ ν) → Option ((κ × ν) × List (Pending κ ν))
  | [] => none
  | .entries [] :: stack | .slots [] :: stack | .children [] :: stack => advance stack
  | .entries (entry :: rest) :: stack => some (entry, .entries rest :: stack)
  | .slots (.leaf entry :: rest) :: stack => some (entry, .slots rest :: stack)
  | .slots (.inner child :: rest) :: stack => advance (child.pending :: .slots rest :: stack)
  | .children (none :: rest) :: stack => advance (.children rest :: stack)
  | .children (some child :: rest) :: stack => advance (child.pending :: .children rest :: stack)
termination_by stack => sizeOf stack
decreasing_by
  all_goals try have := child.sizeOf_pending_le
  all_goals simp; try omega

/-- An entry is used up when it is given out. -/
theorem sizeOf_lt_of_advance {stack rest : List (Pending κ ν)} {entry : κ × ν}
    (h : advance stack = some (entry, rest)) : sizeOf rest < sizeOf stack := by
  fun_induction advance stack with
  | case1 => cases h
  | case2 stack ih | case3 stack ih | case4 stack ih =>
    have := ih h
    simp only [List.cons.sizeOf_spec]
    omega
  | case5 stack e es | case6 stack e es =>
    cases h
    simp only [List.cons.sizeOf_spec, Pending.entries.sizeOf_spec, Pending.slots.sizeOf_spec]
    omega
  | case7 child es stack ih | case9 child es stack ih =>
    have := ih h
    have := child.sizeOf_pending_le
    simp at *
    omega
  | case8 es stack ih =>
    have := ih h
    simp at *
    omega

/-- An iterator, which knows how many entries are left. -/
structure Iter (κ ν : Type) where
  stack : List (Pending κ ν)
  remaining : Nat

namespace Iter

/-- The next entry, and the iterator after it. -/
def next (it : Iter κ ν) : Option ((κ × ν) × Iter κ ν) :=
  (advance it.stack).map fun (entry, stack) => (entry, ⟨stack, it.remaining - 1⟩)

/-- The next entries, at most `n` of them, and the iterator after them. -/
def take : Nat → Iter κ ν → List (κ × ν) × Iter κ ν
  | 0, it => ([], it)
  | n + 1, it =>
    match it.next with
    | none => ([], it)
    | some (entry, it) =>
      let (entries, it) := take n it
      (entry :: entries, it)

theorem sizeOf_lt_of_next {it it' : Iter κ ν} {entry : κ × ν}
    (h : it.next = some (entry, it')) : sizeOf it'.stack < sizeOf it.stack := by
  simp only [next, Option.map_eq_some_iff] at h
  obtain ⟨⟨e, rest⟩, ha, he⟩ := h
  cases he
  exact sizeOf_lt_of_advance ha

/-- Fold over all entries that are left; the step function can stop the fold. -/
def visit {m : Type → Type} [Monad m] {β : Type} (f : β → κ × ν → m (ForInStep β))
    (it : Iter κ ν) (b : β) : m (ForInStep β) :=
  match _h : it.next with
  | none => pure (.yield b)
  | some (entry, it') => do
    match ← f b entry with
    | .done b => return .done b
    | .yield b => visit f it' b
termination_by sizeOf it.stack
decreasing_by exact sizeOf_lt_of_next _h

/-- All entries that are left, after those in `entries`. -/
def collect (it : Iter κ ν) (entries : Array (κ × ν)) : Array (κ × ν) :=
  match _h : it.next with
  | none => entries
  | some (entry, it') => collect it' (entries.push entry)
termination_by sizeOf it.stack
decreasing_by exact sizeOf_lt_of_next _h

def toList (it : Iter κ ν) : List (κ × ν) := (it.collect #[]).toList

end Iter

def iter (m : HashTrieMap κ ν) : Iter κ ν := ⟨m.shape.pending, m.size⟩

/-- The entries, in the order of iteration. -/
def toList (m : HashTrieMap κ ν) : List (κ × ν) := m.iter.toList

def keys (m : HashTrieMap κ ν) : List κ := m.toList.map (·.1)

def values (m : HashTrieMap κ ν) : List ν := m.toList.map (·.2)

/-! ## Folding -/

section

variable {μ : Type → Type} [Monad μ] {β : Type}

/-- Fold over the entries in the order of iteration; the step function can stop the fold. -/
def reduceM (m : HashTrieMap κ ν) (f : β → κ × ν → μ (ForInStep β)) (b : β) : μ β :=
  finalValue <$> m.iter.visit f b

/-- Fold over keys and values by recursion over the nodes; the step function can stop the fold. -/
def reduceEntriesM (m : HashTrieMap κ ν) (f : β → κ → ν → μ (ForInStep β)) (b : β) : μ β :=
  match m.shape with
  | .flat entries => finalValue <$> visitList (fun b e => f b e.1 e.2) entries b
  | .trie root none => finalValue <$> root.visit f b
  | .trie root (some entry) => do
    match ← f b entry.1 entry.2 with
    | .done b => return b
    | .yield b => finalValue <$> root.visit f b

end

/-! ## Equality and hash -/

/-- Whether every listed entry has its key in a map, with an equal value. -/
def includes [BEq κ] [HashCode κ] [BEq ν] (m : HashTrieMap κ ν) :
    List (κ × ν) → Result Bool
  | [] => .ok true
  | (key, value) :: entries => do
    match ← m.get? key with
    | some other => if value == other then m.includes entries else return false
    | none => return false

/-- Two maps are equal if they have as many entries and each entry of the one is in the other. If
both hashes are known and differ, the entries are not looked at. -/
def equals [BEq κ] [HashCode κ] [BEq ν] (a b : HashTrieMap κ ν) : Result Bool :=
  if a.size ≠ b.size then .ok false
  else match a.cache, b.cache with
    | some h, some k => if h ≠ k then .ok false else b.includes a.toList
    | _, _ => b.includes a.toList

/-- The hash of the entries, read afresh. -/
def contentHash [HashCode κ] [HashCode ν] (m : HashTrieMap κ ν) : UInt32 :=
  Hash.unordered (m.toList.map hashCode)

/-- The hash, taken from the cache if it is there. -/
def hash [HashCode κ] [HashCode ν] (m : HashTrieMap κ ν) : UInt32 :=
  m.cache.getD m.contentHash

/-- The same map with its hash in the cache. -/
def hashed [HashCode κ] [HashCode ν] (m : HashTrieMap κ ν) : HashTrieMap κ ν :=
  { m with cache := some m.hash }

/-- The text of a map, given the texts of keys and values. -/
def text (key : κ → String) (value : ν → String) (m : HashTrieMap κ ν) : String :=
  Text.ofMap (m.toList.map fun e => (key e.1, value e.2))

end PersistentCollections.HashTrieMap
