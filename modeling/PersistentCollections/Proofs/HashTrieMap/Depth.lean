import PersistentCollections.Proofs.HashTrieMap.Representation
import PersistentCollections.Proofs.HashTrieMap.Shifts
import PersistentCollections.Proofs.Versions

/-!
# The depth of a trie

A hash has seven digits, and no operation on a trie that arises asks for an eighth. Two entries that
meet at a node agree in all digits above it, so different hashes part at the last digit, which has
two bits, at the latest. Hence a lookup, an insertion and a removal come to an end inside the hash,
although their recursion by shifts has no bound; a node below all seven digits is a collision node,
and only its own hash leads there; a node for the last digit has no more than four places and is
not an array node (`StaysInside`, `staysInside_of_arises`).
-/

namespace PersistentCollections.HashTrieMap

open Entries

section

variable {κ ν : Type} [BEq κ] [HashCode κ] {root n : Node κ ν} {nilEntry : Option (κ × ν)}
  {path : List Nat}

/-- In a trie with this root no operation leaves the hash. -/
structure StaysInside (root : Node κ ν) : Prop where
  lookup : ∀ key, ∃ o, root.find? key (hashCode key) digits = .ok o ∧
    ReadsInside (root.lookupFrom key (hashCode key) 0) o
  insert : ∀ now key value, ∃ r, root.insert now digits (key, value) (hashCode key) = .ok r ∧
    ReadsInside (root.insertFrom now 0 (key, value) (hashCode key)) r
  remove : ∀ now sole key, ∃ o, root.erase now sole key (hashCode key) digits = .ok o ∧
    ReadsInside (root.removeFrom now sole key (hashCode key) 0) o
  depth : ∀ path n, root.Reaches path n → 5 * path.length ≤ 35
  deepest : ∀ path n, root.Reaches path n → 5 * path.length = 35 →
    ∃ stamp h es, n = .collision stamp h es ∧ (∀ e ∈ es, hashCode e.1 = h) ∧
      ∀ hash, way hash digits = path → hash = h
  lastDigit : ∀ path n, root.Reaches path n → 5 * path.length = 30 →
    ∀ stamp count children, n ≠ .array stamp count children

/-! ## Deep nodes -/

theorem Node.Reaches.depth_le (hr : root.Reaches path n) (hw : root.WellFormed digits) :
    path.length ≤ digits := by
  obtain ⟨left, hDigits, -⟩ := hr.reached hw
  omega

/-- Below all digits there are entries of one hash, and no other hash leads there. -/
theorem Node.Reaches.deepest (hr : root.Reaches path n) (hw : root.WellFormed digits)
    (hl : path.length = digits) :
    ∃ stamp h es, n = .collision stamp h es ∧ (∀ e ∈ es, hashCode e.1 = h) ∧
      ∀ hash, way hash digits = path → hash = h := by
  obtain ⟨left, hDigits, hn, hFilled, hWay⟩ := hr.reached hw
  obtain rfl : left = 0 := by omega
  obtain ⟨stamp, h, es, rfl, hb⟩ := wellFormed_zero hn
  refine ⟨stamp, h, es, rfl, hb.hash, fun hash hHash => ?_⟩
  have hPath : path ≠ [] := by
    rintro rfl
    cases hl
  obtain ⟨e, he⟩ := List.exists_mem_of_ne_nil _ (hFilled.resolve_left hPath)
  have hEntry : way (hashCode e.1) digits = path := by
    rw [(hWay e he).2]
    exact List.append_nil path
  rw [entries_collision] at he
  rw [← hb.hash e he]
  exact way_digits_inj (hHash.trans hEntry.symm)

/-- There is no array node for the last digit. -/
theorem Node.Reaches.ne_array (hr : root.Reaches path n) (hw : root.WellFormed digits)
    (hl : path.length + 1 = digits) (stamp count : Nat) (children : List (Option (Node κ ν))) :
    n ≠ .array stamp count children := by
  rintro rfl
  obtain ⟨left, hDigits, hn, -⟩ := hr.reached hw
  obtain rfl : left = 1 := by omega
  exact Branch.ne_array rfl hn

/-! ## The operations -/

variable [LawfulHashCode κ]

theorem TrieWellFormed.staysInside (h : TrieWellFormed root nilEntry) : StaysInside root where
  lookup key := by
    have hFind := Node.find?_eq h.wellFormed key
    exact ⟨_, hFind, Node.lookupFrom_retraces (Nat.le_refl digits) root _ hFind⟩
  insert now key value := by
    obtain ⟨r, hInsert, -⟩ := Node.insert_accepts now digits root key value h.wellFormed
      (Or.inl h.shaped) fun e _ => meets_digits _ _
    exact ⟨r, hInsert, Node.insertFrom_retraces now (Nat.le_refl digits) _ _ _ _ hInsert⟩
  remove now sole key := by
    have hAnswers := Node.erase_answers now sole key digits root h.wellFormed
    have hErase : ∃ o, root.erase now sole key (hashCode key) digits = .ok o := by
      generalize root.erase now sole key (hashCode key) digits = x at hAnswers ⊢
      cases hAnswers with
      | taken => exact ⟨_, rfl⟩
      | absent => exact ⟨_, rfl⟩
    obtain ⟨o, ho⟩ := hErase
    exact ⟨o, ho, Node.removeFrom_retraces (Nat.le_refl digits) _ _ ho⟩
  depth path n hr := by
    have hDepth : path.length ≤ 7 := hr.depth_le h.wellFormed
    omega
  deepest path n hr hPath := by
    have hLength : path.length = 7 := by omega
    exact hr.deepest h.wellFormed hLength
  lastDigit path n hr hPath := by
    have hLength : path.length + 1 = 7 := by omega
    exact hr.ne_array h.wellFormed hLength

theorem WellFormed.staysInside {m : HashTrieMap κ ν} (h : m.WellFormed)
    (hShape : m.shape = .trie root nilEntry) : StaysInside root := by
  have hTrie := h.shape
  rw [hShape] at hTrie
  exact TrieWellFormed.staysInside hTrie

/-! ## Whatever arises -/

/-- The tries of all maps and sets that arise stay inside the hash, and so does every trie that a
flat map is turned into, entry by entry. -/
theorem staysInside_of_arises [HashCode ν] :
    (∀ (s : Mode) (held : Held κ ν s) root nilEntry, Arises (.hashMap held) →
      held.content.shape = .trie root nilEntry → StaysInside root) ∧
    (∀ (s : Mode) (held : HashTrieSet.Held κ s) root nilEntry,
      Arises (.hashSet held : Version κ ν) → held.content.shape = .trie root nilEntry →
      StaysInside root) ∧
    ∀ now (es : List (κ × ν)), Distinct es → ∃ p, promote now es = .ok p ∧ StaysInside p.root := by
  refine ⟨?_, ?_, ?_⟩
  · intro s held root nilEntry hArises hShape
    obtain ⟨⟨f, hModels⟩, -⟩ := hArises.sound
    exact WellFormed.staysInside (Models.wellFormed hModels) hShape
  · intro s held root nilEntry hArises hShape
    obtain ⟨⟨e, hHolds⟩, -⟩ := hArises.sound
    exact WellFormed.staysInside (HashTrieSet.Holds.wellFormed hHolds) hShape
  · intro now es hDistinct
    obtain ⟨p, hPromote, hTrie, -⟩ := promote_spec now hDistinct
    exact ⟨p, hPromote, hTrie.staysInside⟩

end

/-- A key that brings its own hash, so that different keys can have one hash. -/
structure Hashed where
  hash : UInt32
  number : UInt8
  deriving DecidableEq

instance : HashCode Hashed := ⟨Hashed.hash, fun _ => false⟩

instance : LawfulHashCode Hashed := .of_lawfulBEq fun _ _ h => nomatch h

/-- Two keys of one hash, a key that parts from them at the last digit, and six others. -/
def nineHashed : List (Hashed × UInt8) :=
  [(⟨0, 0⟩, 0), (⟨0, 1⟩, 1), (⟨0x40000000, 2⟩, 2)] ++
    (List.range 6).map fun n => (⟨n.toUInt32 + 1, 0⟩, 0)

/-- A map of more entries than a flat one takes is a trie. -/
theorem WellFormed.exists_root {κ ν : Type} [BEq κ] [HashCode κ] {m : HashTrieMap κ ν}
    (h : m.WellFormed) (hMany : mostFlat < m.size) :
    ∃ root nilEntry, m.shape = .trie root nilEntry := by
  have hSize := h.size
  have hShape := h.shape
  rw [entries] at hSize
  cases hForm : m.shape with
  | flat es =>
    rw [hForm] at hSize hShape
    have hFew : es.length ≤ mostFlat := hShape.1
    have hLength : m.size = es.length := hSize
    omega
  | trie root nilEntry => exact ⟨root, nilEntry, rfl⟩

/-- The node that positions lead to. -/
def Node.follow {κ ν : Type} : List Nat → Node κ ν → Option (Node κ ν)
  | [], n => some n
  | p :: path, n =>
    match n.slotAt p with
    | some (.inner child) => child.follow path
    | _ => none

theorem Node.reaches_of_follow {κ ν : Type} {n m : Node κ ν} {path : List Nat}
    (h : n.follow path = some m) : n.Reaches path m := by
  induction path generalizing n with
  | nil =>
    cases h
    exact .here _
  | cons p path ih =>
    rw [follow] at h
    split at h
    · next child hSlot => exact .down hSlot (ih h)
    · cases h

theorem staysInside_of_arises_nineHashed : LawfulHashCode Hashed ∧
    (∃ (m : HashTrieMap Hashed UInt8) (root : Node Hashed UInt8) (nilEntry : _),
      Arises (.hashMap (s := .frozen) m) ∧ m.shape = .trie root nilEntry ∧ StaysInside root) ∧
    (∃ (t : HashTrieSet.Transient Hashed) (root : Node Hashed Unit) (nilEntry : _),
      Arises (.hashSet (s := .building) t : Version Hashed UInt8) ∧
      t.map.map.shape = .trie root nilEntry ∧ StaysInside root) ∧
    Distinct nineHashed ∧ ∃ p n, promote 0 nineHashed = .ok p ∧ StaysInside p.root ∧
      p.root.Reaches (List.replicate 7 0) n := by
  obtain ⟨hMaps, hSets, hPromotions⟩ := staysInside_of_arises (κ := Hashed) (ν := UInt8)
  refine ⟨inferInstance, ?_, ?_, ?_⟩
  · obtain ⟨m, hm, hModels⟩ :=
      exists_arises (.cons .transient (.cons (.extend nineHashed) (.cons .freeze .nil)))
    have hSize : m.size = 9 := hModels.agrees.size.trans (by decide +kernel)
    have hMany : mostFlat < m.size := by rw [hSize]; decide
    obtain ⟨root, nilEntry, hShape⟩ := hModels.wellFormed.exists_root hMany
    exact ⟨m, root, nilEntry, hm, hShape, hMaps .frozen m root nilEntry hm hShape⟩
  · have hEmpty : Arises (.hashSet (s := .building) .empty : Version Hashed UInt8) :=
      Makes.emptyTransientSet.arises .refl
    obtain ⟨store, hReached, hx⟩ := hEmpty
    have hNone : HashTrieSet.Holds (HashTrieSet.Held.content (s := .building)
        (HashTrieSet.Transient.empty : HashTrieSet.Transient Hashed)) ∅ := HashTrieSet.holds_empty
    obtain ⟨es, ⟨_, t⟩, hYields, -, ht⟩ :=
      (HashTrieSet.Call.extend (nineHashed.map (·.1))).run_holds hNone
    have hArises := (Makes.setCall _ hx hYields).arises hReached
    have hSize : t.map.map.size = 9 := (HashTrieSet.Holds.size_eq ht).trans (by decide +kernel)
    have hMany : mostFlat < t.map.map.size := by rw [hSize]; decide
    obtain ⟨root, nilEntry, hShape⟩ := (HashTrieSet.Holds.wellFormed ht).exists_root hMany
    exact ⟨t, root, nilEntry, hArises, hShape, hSets .building t root nilEntry hArises hShape⟩
  · have hDistinct : Distinct nineHashed := by
      unfold Distinct
      decide +kernel
    have hDeep : ((promote 0 nineHashed).toOption.bind fun p =>
        p.root.follow (List.replicate 7 0)).isSome = true := by decide +kernel
    obtain ⟨p, hPromote, hStays⟩ := hPromotions 0 nineHashed hDistinct
    rw [hPromote] at hDeep
    obtain ⟨n, hn⟩ := Option.isSome_iff_exists.mp hDeep
    exact ⟨hDistinct, p, n, hPromote, hStays, Node.reaches_of_follow hn⟩

end PersistentCollections.HashTrieMap
