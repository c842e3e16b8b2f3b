import PersistentCollections.HashTrieMap.Iterator
import PersistentCollections.Proofs.HashTrieMap.Map

/-!
# What an iterator over a hash map gives

The stack of an iterator leads to a list of entries, and `advance` takes the first of them off
(`stackEntries_eq`). So the list of a map is the list of its entries, whatever its form
(`toList_eq_entries`).
-/

namespace PersistentCollections.HashTrieMap

variable {κ ν : Type}

/-- The entries of the unvisited part of a node. -/
def Pending.ahead : Pending κ ν → List (κ × ν)
  | .entries rest => rest
  | .slots rest => slotsEntries rest
  | .children rest => childrenEntries rest

@[simp] theorem Pending.ahead_entries (rest : List (κ × ν)) :
    (Pending.entries rest).ahead = rest := rfl

@[simp] theorem Pending.ahead_slots (rest : List (Slot κ ν)) :
    (Pending.slots rest).ahead = slotsEntries rest := rfl

@[simp] theorem Pending.ahead_children (rest : List (Option (Node κ ν))) :
    (Pending.children rest).ahead = childrenEntries rest := rfl

/-- The entries that a stack leads to. -/
def stackEntries (stack : List (Pending κ ν)) : List (κ × ν) := stack.flatMap Pending.ahead

@[simp] theorem stackEntries_cons (top : Pending κ ν) (stack : List (Pending κ ν)) :
    stackEntries (top :: stack) = top.ahead ++ stackEntries stack := by
  simp [stackEntries]

@[simp] theorem Node.ahead_pending (n : Node κ ν) : n.pending.ahead = n.entries := by
  cases n with
  | bitmap => simp [Node.pending, Node.entries]
  | array => simp [Node.pending, Node.entries]
  | collision => simp [Node.pending]

theorem stackEntries_eq (stack : List (Pending κ ν)) :
    stackEntries stack = match advance stack with
      | none => []
      | some (e, rest) => e :: stackEntries rest := by
  fun_induction advance stack with
  | case1 => rfl
  | case2 stack ih => simpa using ih
  | case3 stack ih => simpa [slotsEntries] using ih
  | case4 stack ih => simpa [childrenEntries] using ih
  | case5 stack e rest => simp
  | case6 stack e rest => simp [slotsEntries]
  | case7 child rest stack ih => simpa [slotsEntries] using ih
  | case8 rest stack ih => simpa [childrenEntries] using ih
  | case9 child rest stack ih => simpa [childrenEntries] using ih

theorem Iter.toList_collect (it : Iter κ ν) (es : Array (κ × ν)) :
    (it.collect es).toList = es.toList ++ stackEntries it.stack := by
  fun_induction Iter.collect it es with
  | case1 it es hNext =>
    rw [Iter.next, Option.map_eq_none_iff] at hNext
    rw [stackEntries_eq, hNext, List.append_nil]
  | case2 it es e it' hNext ih =>
    simp only [Iter.next, Option.map_eq_some_iff] at hNext
    obtain ⟨⟨e', rest⟩, hAdvance, hEq⟩ := hNext
    cases hEq
    rw [ih, stackEntries_eq it.stack, hAdvance]
    simp

/-- The list of a map is the list of its entries. -/
theorem toList_eq_entries (m : HashTrieMap κ ν) : m.toList = m.entries := by
  obtain ⟨size, shape, cache, stamp⟩ := m
  rw [toList, Iter.toList, Iter.toList_collect]
  cases shape with
  | flat es => simp [iter, Shape.pending, stackEntries, entries]
  | trie root nilEntry =>
    cases nilEntry with
    | none => simp [iter, Shape.pending, stackEntries, entries, trieEntries]
    | some e =>
      simp [iter, Shape.pending, stackEntries, entries, trieEntries]

end PersistentCollections.HashTrieMap
