import PersistentCollections.HashTrieMap.Cursor
import PersistentCollections.Proofs.HashTrieMap.Iterator
import PersistentCollections.Proofs.Reduce
import PersistentCollections.Proofs.Traversal
import PersistentCollections.Proofs.Versions

/-!
# Traversals of hash maps and sets

There are three ways through a hash map: an iterator uses up a stack of what is to be visited, a
cursor seeks out the next entry on such a stack and stays there, and a fold visits the nodes by
recursion. All of them follow the list of the entries, whatever the map (`traversed_toList`): the
iterator by what its list is, the cursor because a stack leads to the same entries after `seek`
(`seek_spec`), and the fold node by node (`Node.visit_eq`).

What can be reached over lawful keys has each entry once, and its iterators know at each step how
many are left (`Complete`).
-/

namespace PersistentCollections

namespace HashTrieMap

variable {κ ν : Type}

/-! ## Iterators -/

/-- The iterator gives these entries, and is right about their number all the time. -/
def Iter.Gives (it : Iter κ ν) (es : List (κ × ν)) : Prop :=
  GivesList (fun it n => it.remaining = n) Iter.next it es

/-- A step takes the first entry off that the stack leads to. -/
theorem Iter.next_spec (it : Iter κ ν) :
    (it.next = none ∧ stackEntries it.stack = []) ∨
      ∃ e it', it.next = some (e, it') ∧ stackEntries it.stack = e :: stackEntries it'.stack ∧
        it'.remaining = it.remaining - 1 := by
  have hEntries := stackEntries_eq it.stack
  unfold next
  cases hAdvance : advance it.stack with
  | none =>
    rw [hAdvance] at hEntries
    exact Or.inl ⟨rfl, hEntries⟩
  | some found =>
    obtain ⟨e, rest⟩ := found
    rw [hAdvance] at hEntries
    exact Or.inr ⟨e, _, rfl, hEntries, rfl⟩

/-- An iterator that is right about their number gives the entries that its stack leads to. -/
theorem Iter.gives_stackEntries {it : Iter κ ν} {es : List (κ × ν)}
    (hStack : stackEntries it.stack = es) (hRemaining : it.remaining = es.length) :
    it.Gives es := by
  have hStep (it : Iter κ ν) : (it.next = none ∧ stackEntries it.stack = []) ∨
      ∃ e it', it.next = some (e, it') ∧ stackEntries it.stack = e :: stackEntries it'.stack ∧
        ∀ n, it.remaining = n + 1 → it'.remaining = n := by
    rcases it.next_spec with hEnd | ⟨e, it', hNext, hCons, hLess⟩
    · exact Or.inl hEnd
    · refine Or.inr ⟨e, it', hNext, hCons, ?_⟩
      intro n hn
      rw [hLess, hn]
      rfl
  show GivesList (fun it n => it.remaining = n) Iter.next it es
  exact givesList_rest hStep hStack hRemaining

/-! ## Cursors -/

/-- What can be sought out is on an entry, and a stack leads to that entry first. -/
theorem seek_spec (stack : List (Pending κ ν)) :
    (seek stack = none ∧ stackEntries stack = []) ∨
      ∃ found e, seek stack = some found ∧ Cursor.first ⟨found⟩ = .ok e ∧
        stackEntries stack = e :: stackEntries (Cursor.rest ⟨found⟩) := by
  fun_induction seek stack with
  | case1 => exact Or.inl ⟨rfl, rfl⟩
  | case2 stack ih => rwa [stackEntries_cons, Pending.ahead_entries, List.nil_append]
  | case3 stack ih => rwa [stackEntries_cons, Pending.ahead_slots, slotsEntries, List.nil_append]
  | case4 stack ih =>
    rwa [stackEntries_cons, Pending.ahead_children, childrenEntries, List.nil_append]
  | case5 e rest stack =>
    refine Or.inr ⟨_, e, rfl, rfl, ?_⟩
    rw [stackEntries_cons]
    show _ = e :: stackEntries (.entries rest :: stack)
    rw [stackEntries_cons]
    rfl
  | case6 e rest stack =>
    refine Or.inr ⟨_, e, rfl, rfl, ?_⟩
    rw [stackEntries_cons]
    show _ = e :: stackEntries (.slots rest :: stack)
    rw [stackEntries_cons]
    rfl
  | case7 child rest stack ih =>
    have hSame : stackEntries (child.pending :: .slots rest :: stack) =
        stackEntries (.slots (.inner child :: rest) :: stack) := by
      simp [slotsEntries]
    rwa [hSame] at ih
  | case8 rest stack ih =>
    have hSame : stackEntries (.children rest :: stack) =
        stackEntries (.children (none :: rest) :: stack) := by
      simp [childrenEntries]
    rwa [hSame] at ih
  | case9 child rest stack ih =>
    have hSame : stackEntries (child.pending :: .children rest :: stack) =
        stackEntries (.children (some child :: rest) :: stack) := by
      simp [childrenEntries]
    rwa [hSame] at ih

namespace Cursor

/-- The cursor walks along these entries, and never is anywhere but on an entry. -/
def Walks (c : Option (Cursor κ ν)) (es : List (κ × ν)) : Prop :=
  WalksAlong (fun c e => c.first = .ok e) count next c es

theorem countFrom_eq (c : Cursor κ ν) (n : Nat) :
    c.countFrom n = n + (stackEntries c.rest).length := by
  fun_induction countFrom c n with
  | case1 c n hNext =>
    rcases seek_spec c.rest with ⟨-, hNil⟩ | ⟨found, e, hSeek, -, -⟩
    · rw [hNil]
      rfl
    · rw [next, seek?, hSeek] at hNext
      cases hNext
  | case2 c n c' hNext ih =>
    rcases seek_spec c.rest with ⟨hSeek, -⟩ | ⟨found, e, hSeek, -, hCons⟩
    · rw [next, seek?, hSeek] at hNext
      cases hNext
    · rw [next, seek?, hSeek] at hNext
      cases hNext
      rw [ih, hCons, List.length_cons]
      omega

/-- The cursor on a stack walks along the entries that the stack leads to. -/
theorem walks_seek? {stack : List (Pending κ ν)} {es : List (κ × ν)}
    (hStack : stackEntries stack = es) : Walks (seek? stack) es := by
  induction es generalizing stack with
  | nil =>
    rcases seek_spec stack with ⟨hSeek, -⟩ | ⟨found, e, -, -, hCons⟩
    · rw [seek?, hSeek]
      trivial
    · cases hStack.symm.trans hCons
  | cons e es ih =>
    rcases seek_spec stack with ⟨-, hNil⟩ | ⟨found, e', hSeek, hFirst, hCons⟩
    · cases hStack.symm.trans hNil
    · cases hStack.symm.trans hCons
      rw [seek?, hSeek]
      refine ⟨hFirst, ?_, ih rfl⟩
      rw [count, countFrom_eq, Nat.add_comm]

end Cursor

/-! ## Folds -/

section Visit

variable {μ : Type → Type} [Monad μ] {β : Type}

mutual

/-- The fold over a node is the fold over its entries. -/
theorem Node.visit_eq [LawfulMonad μ] (f : β → κ → ν → μ (ForInStep β)) (n : Node κ ν) (b : β) :
    n.visit f b = visitList (fun b e => f b e.1 e.2) n.entries b := by
  cases n with
  | bitmap _ _ slots =>
    rw [Node.visit, Node.entries]
    exact visitSlots_eq f slots b
  | array _ _ children =>
    rw [Node.visit, Node.entries]
    exact visitChildren_eq f children b
  | collision _ _ es => rw [Node.visit, Node.entries]

theorem visitSlots_eq [LawfulMonad μ] (f : β → κ → ν → μ (ForInStep β)) (slots : List (Slot κ ν))
    (b : β) : Node.visitSlots f slots b =
      visitList (fun b e => f b e.1 e.2) (slotsEntries slots) b := by
  cases slots with
  | nil => rfl
  | cons slot slots =>
    cases slot with
    | leaf e =>
      rw [slotsEntries, visitList_cons, ← funext (visitSlots_eq f slots)]
      rfl
    | inner child =>
      rw [slotsEntries, visitList_append, ← Node.visit_eq f child, ← funext (visitSlots_eq f slots)]
      rfl

theorem visitChildren_eq [LawfulMonad μ] (f : β → κ → ν → μ (ForInStep β))
    (children : List (Option (Node κ ν))) (b : β) : Node.visitChildren f children b =
      visitList (fun b e => f b e.1 e.2) (childrenEntries children) b := by
  cases children with
  | nil => rfl
  | cons child children =>
    cases child with
    | none =>
      rw [childrenEntries, ← visitChildren_eq f children]
      rfl
    | some child =>
      rw [childrenEntries, visitList_append, ← Node.visit_eq f child,
        ← funext (visitChildren_eq f children)]
      rfl

end

/-- The fold over an iterator is the fold over the entries that its stack leads to. -/
theorem Iter.visit_eq (f : β → κ × ν → μ (ForInStep β)) {it : Iter κ ν} {es : List (κ × ν)}
    (hStack : stackEntries it.stack = es) (b : β) : it.visit f b = visitList f es b := by
  subst hStack
  refine eq_visitList Iter.next (fun it => stackEntries it.stack) ?_ ?_ ?_ it b
  · intro it
    rcases it.next_spec with hEnd | ⟨e, it', hNext, hCons, -⟩
    · exact Or.inl hEnd
    · exact Or.inr ⟨e, it', hNext, hCons⟩
  · intro it hNone
    funext b
    unfold visit
    split
    · rfl
    · next e it' hSome => cases hNone.symm.trans hSome
  · intro it e it' hSome
    funext b
    unfold visit
    split
    · next hNone => cases hSome.symm.trans hNone
    · next e' it'' hSome' =>
      cases hSome.symm.trans hSome'
      rfl

end Visit

/-! ## All traversals -/

/-- The stack of a map leads to its entries. -/
theorem stackEntries_pending (m : HashTrieMap κ ν) : stackEntries m.shape.pending = m.toList := by
  have hCollect := Iter.toList_collect m.iter #[]
  exact hCollect.symm

/-- The cursors and both folds of a map follow a list of entries, whatever the step function does
and in whichever monad. -/
structure Traversed (m : HashTrieMap κ ν) (es : List (κ × ν)) : Prop where
  cursor : Cursor.Walks m.cursor es
  reduceM : ∀ {μ : Type → Type} [Monad μ] [LawfulMonad μ] {β : Type}
    (f : β → κ × ν → μ (ForInStep β)) (b : β),
    m.reduceM f b = finalValue <$> visitList f es b
  reduceEntriesM : ∀ {μ : Type → Type} [Monad μ] [LawfulMonad μ] {β : Type}
    (f : β → κ → ν → μ (ForInStep β)) (b : β),
    m.reduceEntriesM f b = finalValue <$> visitList (fun b e => f b e.1 e.2) es b

/-- They follow the list that the iterator gives. This needs no law of the keys and holds for any
map. -/
theorem traversed_toList (m : HashTrieMap κ ν) : m.Traversed m.toList where
  cursor := Cursor.walks_seek? m.stackEntries_pending
  reduceM f b := by rw [HashTrieMap.reduceM, Iter.visit_eq f m.stackEntries_pending]
  reduceEntriesM f b := by
    rw [toList_eq_entries]
    obtain ⟨size, shape, cache, stamp⟩ := m
    cases shape with
    | flat es => rfl
    | trie root nilEntry =>
      rw [entries_trie, trieEntries]
      cases nilEntry with
      | none =>
        rw [Option.toList_none, List.nil_append, ← Node.visit_eq]
        rfl
      | some e =>
        rw [Option.toList_some, List.singleton_append, visitList_cons, finalValue_proceed,
          ← funext (Node.visit_eq f root)]
        rfl

section Complete

variable [BEq κ] [HashCode κ]

/-- The list has each entry of a map once, and an iterator gives it with the right numbers. -/
structure Complete (m : HashTrieMap κ ν) (es : List (κ × ν)) : Prop where
  iter : m.iter.Gives es
  size : m.size = es.length
  cursor : m.cursor = none ↔ m.isEmpty = true
  distinct : Entries.Distinct es
  entryAt? : ∀ key e, m.entryAt? key = .ok (some e) ↔ e ∈ es ∧ (e.1 == key) = true

variable [LawfulHashCode κ] {m : HashTrieMap κ ν}

theorem WellFormed.complete (h : m.WellFormed) : m.Complete m.toList := by
  have hWalks := m.traversed_toList.cursor
  have hEmpty := isEmpty_eq h
  rw [toList_eq_entries] at hWalks ⊢
  refine ⟨?_, h.size, ?_, h.distinct, ?_⟩
  · exact Iter.gives_stackEntries (m.stackEntries_pending.trans m.toList_eq_entries) h.size
  · rw [hEmpty, hWalks.eq_none_iff, List.isEmpty_iff]
  · intro key e
    rw [entryAt?_eq h, Except.ok.injEq, Entries.find?_eq_some_iff h.distinct]

end Complete

end HashTrieMap

/-! ## Sets -/

namespace HashTrieSet

variable {α : Type}

def Iter.Gives (it : Iter α) (xs : List α) : Prop :=
  GivesList (fun it n => it.remaining = n) Iter.next it xs

/-- The iterator of a set gives the keys of that of the map. -/
theorem Iter.gives_of_entries {it : HashTrieMap.Iter α Unit} {es : List (α × Unit)}
    (h : it.Gives es) : Iter.Gives ⟨it⟩ (es.map (·.1)) :=
  GivesList.map (fun _ _ hLeft => hLeft) (fun _ => rfl) h

def Cursor.Walks (c : Option (Cursor α)) (xs : List α) : Prop :=
  WalksAlong (fun c x => c.first = .ok x) Cursor.count Cursor.next c xs

/-- The cursor of a set walks along the keys of that of the map. -/
theorem Cursor.walks_of_entries {c : Option (HashTrieMap.Cursor α Unit)} {es : List (α × Unit)}
    (h : HashTrieMap.Cursor.Walks c es) : Walks (c.map Cursor.mk) (es.map (·.1)) := by
  have hFirst (c : HashTrieMap.Cursor α Unit) (e : α × Unit) (he : c.first = .ok e) :
      (Cursor.mk c).first = .ok e.1 := by
    rw [first, HashTrieMap.Cursor.key, he]
    rfl
  exact WalksAlong.map hFirst (fun _ => rfl) (fun _ => rfl) h

/-- The cursors and the fold of a set follow a list of elements. -/
structure Traversed (s : HashTrieSet α) (xs : List α) : Prop where
  cursor : Cursor.Walks s.cursor xs
  reduceM : ∀ {μ : Type → Type} [Monad μ] [LawfulMonad μ] {β : Type}
    (f : β → α → μ (ForInStep β)) (b : β), s.reduceM f b = finalValue <$> visitList f xs b

theorem traversed_toList (s : HashTrieSet α) : s.Traversed s.toList where
  cursor := Cursor.walks_of_entries s.map.traversed_toList.cursor
  reduceM f b := by
    rw [HashTrieSet.reduceM, s.map.traversed_toList.reduceM, toList, HashTrieMap.keys,
      visitList_map]

/-- The list has each element of a set once, and an iterator gives it with the right numbers. -/
structure Complete [BEq α] [HashCode α] (s : HashTrieSet α) (xs : List α) : Prop where
  iter : s.iter.Gives xs
  size : s.size = xs.length
  cursor : s.cursor = none ↔ s.isEmpty = true
  distinct : xs.Pairwise fun x y => (x == y) = false
  get? : ∀ x y, s.get? x = .ok (some y) ↔ y ∈ xs ∧ (y == x) = true

theorem complete [BEq α] [HashCode α] [LawfulHashCode α] {s : HashTrieSet α}
    (h : s.map.WellFormed) : s.Complete s.toList := by
  have hMap := h.complete
  refine ⟨Iter.gives_of_entries hMap.iter, ?_, ?_, List.pairwise_map.mpr hMap.distinct, ?_⟩
  · rw [toList, HashTrieMap.keys, List.length_map]
    exact hMap.size
  · rw [cursor, Option.map_eq_none_iff]
    exact hMap.cursor
  · intro x y
    rw [get?, HashTrieMap.entryAt?_eq h, Result.bind_ok, toList, HashTrieMap.keys,
      HashTrieMap.toList_eq_entries, Result.pure_eq, Except.ok.injEq, Option.map_eq_some_iff,
      List.mem_map]
    simp only [HashTrieMap.Entries.find?_eq_some_iff h.distinct]
    constructor
    · rintro ⟨e, ⟨he, hKey⟩, rfl⟩
      exact ⟨⟨e, he, rfl⟩, hKey⟩
    · rintro ⟨⟨e, he, rfl⟩, hKey⟩
      exact ⟨e, ⟨he, hKey⟩, rfl⟩

end HashTrieSet

/-! ## What can be reached -/

section

variable {κ ν : Type} [BEq κ] [HashCode κ] [HashCode ν]

/-- All traversals of a hash map, and all of a hash set, follow the list that the iterator gives,
whatever the keys. Over lawful keys, that list has each entry of a collection that can be reached
once, the iterators know how many entries are left, and only empty collections have no cursor. -/
theorem traversals_agree :
    (∀ m : HashTrieMap κ ν, m.Traversed m.toList) ∧
    (∀ s : HashTrieSet κ, s.Traversed s.toList) ∧
    ∀ [LawfulHashCode κ],
      (∀ m : HashTrieMap κ ν, Arises (.hashMap (s := .frozen) m) → m.Complete m.toList) ∧
      ∀ s : HashTrieSet κ, Arises (.hashSet (s := .frozen) s : Version κ ν) →
        s.Complete s.toList := by
  refine ⟨HashTrieMap.traversed_toList, HashTrieSet.traversed_toList, ?_⟩
  intro _
  constructor
  · intro m h
    obtain ⟨⟨f, hm⟩, -⟩ := h.sound
    have hWellFormed : m.WellFormed := hm.wellFormed
    exact hWellFormed.complete
  · intro s h
    obtain ⟨⟨e, he⟩, -⟩ := h.sound
    have hWellFormed : s.map.WellFormed := HashTrieSet.Holds.wellFormed he
    exact HashTrieSet.complete hWellFormed

end

/-- More keys than a flat map takes, one of them nil, of which another one is taken out again. -/
def nilAndOthers : HashTrieMap.Calls (Option UInt8) UInt8 .frozen .frozen :=
  .cons .transient (.cons (.extend [(some 1, 10), (none, 20), (some 2, 30), (some 34, 40),
    (some 4, 50), (some 5, 60), (some 6, 70), (some 7, 80), (some 8, 90), (some 9, 100)])
    (.cons (.drop (some 4)) (.cons .freeze .nil)))

theorem traversals_agree_nilAndOthers : LawfulHashCode (Option UInt8) ∧
    Succeeds (nilAndOthers.run HashTrieMap.empty) fun r =>
      Arises (.hashMap (s := .frozen) r.2) ∧ HashTrieMap.Complete r.2 (HashTrieMap.toList r.2) ∧
        HashTrieMap.Traversed r.2 (HashTrieMap.toList r.2) := by
  have hEmpty : Arises (.hashMap (s := .frozen) .empty : Version (Option UInt8) UInt8) :=
    Makes.emptyMap.arises .refl
  obtain ⟨events, r, hYields, hArises⟩ := hEmpty.run nilAndOthers
  obtain ⟨hTraversed, -, hComplete⟩ := traversals_agree (κ := Option UInt8) (ν := UInt8)
  exact ⟨inferInstance, events, r, hYields, hArises, hComplete.1 r.2 hArises, hTraversed r.2⟩

end PersistentCollections
