import PersistentCollections.Proofs.HashTrieMap.Arrivals

/-!
# The order of iteration

A flat map lists its keys in the order of arrival. A trie lists its nil key first and then the
others by the digits of their hashes (`ByHash`), and that order does not know how the map was made:
two tries with the same keys list them alike, if no two of the keys share a hash
(`ByHash.matching`). A history ends with a flat map if and only if it never had more than eight
keys at a time, so removals do not lead back from a trie (`iteration_order`).
-/

namespace PersistentCollections.HashTrieMap

open Entries

variable {κ ν : Type}

/-- A map that is not a trie. -/
def IsFlat (m : HashTrieMap κ ν) : Prop :=
  match m.shape with
  | .flat _ => True
  | .trie _ _ => False

/-- The digits of a hash, from the least significant one. -/
def digitsOf (hash : UInt32) : List Nat :=
  (List.range digits).map fun i => hash.toNat / Nat.pow width i % width

/-- The digits are those that a trie reads. -/
theorem digitsOf_eq_way (hash : UInt32) : digitsOf hash = way hash digits := rfl

theorem digitsOf_inj {hash hash' : UInt32} (h : digitsOf hash = digitsOf hash') :
    hash = hash' := by
  rw [digitsOf_eq_way, digitsOf_eq_way] at h
  exact way_digits_inj h

/-- Some keys are a nil key, if there is one, and others in the lexicographic order of the digits of
their hashes, in which the keys of each hash stand together. -/
structure ByHash [HashCode κ] (nilKey : Option κ) (others keys : List κ) : Prop where
  keys_eq : keys = nilKey.toList ++ others
  isNil_of_mem : ∀ k ∈ nilKey, isNil k = true
  not_isNil_of_mem : ∀ k ∈ others, isNil k = false
  ordered : others.Pairwise fun a b => digitsOf (hashCode a) ≤ digitsOf (hashCode b)
  adjacent : ∀ hash, (others.filter fun k => hashCode k == hash) <:+: others

/-- The keys of a map are those that a history leaves, in their order of arrival if there never were
more than eight, and by their hashes if there were. -/
structure Listed [BEq κ] [HashCode κ] (m : HashTrieMap κ ν) (edits : List (Edit κ)) : Prop where
  contains : ∀ key, m.contains key = .ok ((arrivals edits).any (· == key))
  isFlat_iff : m.IsFlat ↔ ¬ Crowded edits
  flat : m.IsFlat → m.keys = arrivals edits
  trie : ¬ m.IsFlat → ∃ nilKey others, ByHash nilKey others m.keys

/-! ## Ordered lists -/

section

variable {α β : Type} [LinearOrder β] {f : α → β} {P : α → Bool} {x : β} {l : List α}

/-- In an ordered list that begins with a value or after it, the members with that value come
first. -/
theorem filter_prefix_of_pairwise (h : l.Pairwise fun a b => f a ≤ f b)
    (hP : ∀ a, P a = true ↔ f a = x) (hx : ∀ a ∈ l, x ≤ f a) : l.filter P <+: l := by
  have hFirst : l.Pairwise fun a b => P b = true → P a = true := by
    apply h.imp_of_mem
    intro a b ha _ hab hb
    rw [hP] at hb ⊢
    exact le_antisymm (hb ▸ hab) (hx a ha)
  rw [← takeWhile_eq_filter hFirst]
  exact List.takeWhile_prefix P

/-- In an ordered list the members with one value stand together. -/
theorem filter_infix_of_pairwise (h : l.Pairwise fun a b => f a ≤ f b)
    (hP : ∀ a, P a = true ↔ f a = x) : l.filter P <:+: l := by
  induction l with
  | nil => exact List.infix_refl []
  | cons a l ih =>
    obtain ⟨hHead, hTail⟩ := List.pairwise_cons.mp h
    by_cases ha : f a < x
    · rw [List.filter_cons_of_neg fun hPa => ne_of_lt ha ((hP a).mp hPa)]
      exact List.infix_cons (ih hTail)
    · have hx : ∀ b ∈ a :: l, x ≤ f b := by
        intro b hb
        rcases List.mem_cons.mp hb with rfl | hb
        · exact not_lt.mp ha
        · exact (not_lt.mp ha).trans (hHead b hb)
      exact (filter_prefix_of_pairwise h hP hx).isInfix

end

/-! ## One map -/

section Lawful

variable [BEq κ] [HashCode κ] {m m' : HashTrieMap κ ν}

omit [BEq κ] [HashCode κ] in
theorem keys_eq_entries (m : HashTrieMap κ ν) : m.keys = m.entries.map (·.1) := by
  rw [keys, toList_eq_entries]

theorem TrieWellFormed.byHash {root : Node κ ν} {nilEntry : Option (κ × ν)}
    (h : TrieWellFormed root nilEntry) :
    ByHash (nilEntry.map (·.1)) (root.entries.map (·.1))
      ((trieEntries root nilEntry).map (·.1)) := by
  have hOrdered : (root.entries.map (·.1)).Pairwise fun a b =>
      digitsOf (hashCode a) ≤ digitsOf (hashCode b) := by
    simp only [digitsOf_eq_way]
    exact List.pairwise_map.mpr h.wellFormed.ordered
  refine ⟨?_, ?_, ?_, hOrdered, ?_⟩
  · rw [trieEntries, List.map_append]
    cases nilEntry <;> rfl
  · intro k hk
    obtain ⟨e, he, rfl⟩ := Option.mem_map.mp hk
    exact h.nil e he
  · intro k hk
    obtain ⟨e, he, rfl⟩ := List.mem_map.mp hk
    exact h.others e he
  · intro hash
    apply filter_infix_of_pairwise hOrdered
    intro k
    rw [beq_iff_eq]
    exact ⟨congrArg digitsOf, digitsOf_inj⟩

/-- A map that follows a history lists its keys as the history says. -/
theorem Tracks.listed [LawfulHashCode κ] {edits : List (Edit κ)} (h : Tracks m edits) :
    Listed m edits := by
  have hContains : ∀ key, m.contains key = .ok ((arrivals edits).any (· == key)) := by
    intro key
    rw [contains_eq h.wellFormed, h.holds]
  have hKeys := keys_eq_entries m
  have hFits := h.fits
  have hShape := h.wellFormed.shape
  obtain ⟨size, shape, cache, stamp⟩ := m
  cases shape with
  | flat es =>
    obtain ⟨hArrivals, hFew⟩ : es.map (·.1) = arrivals edits ∧ ¬ Crowded edits := hFits
    exact ⟨hContains, ⟨fun _ => hFew, fun _ => trivial⟩, fun _ => hKeys.trans hArrivals,
      fun h => absurd trivial h⟩
  | trie root nilEntry =>
    have hTrie : TrieWellFormed root nilEntry := hShape
    have hMany : Crowded edits := hFits
    refine ⟨hContains, ⟨fun h => h.elim, fun hFew => hFew hMany⟩, fun h => h.elim, fun _ => ?_⟩
    rw [hKeys]
    exact ⟨_, _, hTrie.byHash⟩

/-! ## Two maps -/

/-- A well-formed map contains the keys that are equal to one of those it lists. -/
theorem WellFormed.contains_eq_any [LawfulHashCode κ] (h : m.WellFormed) (key : κ) :
    m.contains key = .ok (m.keys.any (· == key)) := by
  rw [contains_eq h, keys_eq_entries, List.any_map, valueAt, Option.isSome_map, Entries.find?,
    List.isSome_find?]
  rfl

theorem WellFormed.pairwise_keys [LawfulHashCode κ] (h : m.WellFormed) :
    m.keys.Pairwise fun a b => (a == b) = false := by
  rw [keys_eq_entries]
  exact List.pairwise_map.mpr h.distinct

section Matching

variable {nilKey nilKey' : Option κ} {others others' keys keys' : List κ} {k : κ}

omit [HashCode κ] in
/-- Of two lists with the same keys, each has a key that is equal to one of the other. -/
theorem exists_beq_of_mem [EquivBEq κ] (hSame : ∀ key, keys.any (· == key) = keys'.any (· == key))
    (hk : k ∈ keys) : ∃ k' ∈ keys', (k' == k) = true := by
  rw [← List.any_eq_true, ← hSame, List.any_eq_true]
  exact ⟨k, hk, BEq.refl k⟩

omit [BEq κ] in
theorem ByHash.mem_nilKey (h : ByHash nilKey others keys) (hk : k ∈ keys)
    (hNil : isNil k = true) : k ∈ nilKey := by
  rw [h.keys_eq, List.mem_append, Option.mem_toList] at hk
  rcases hk with hk | hk
  · exact hk
  · rw [h.not_isNil_of_mem k hk] at hNil
    cases hNil

omit [BEq κ] in
theorem ByHash.mem_others (h : ByHash nilKey others keys) (hk : k ∈ keys)
    (hNil : isNil k = false) : k ∈ others := by
  rw [h.keys_eq, List.mem_append, Option.mem_toList] at hk
  rcases hk with hk | hk
  · rw [h.isNil_of_mem k hk] at hNil
    cases hNil
  · exact hk

omit [BEq κ] in
theorem ByHash.mem_of_nilKey (h : ByHash nilKey others keys) (hk : k ∈ nilKey) : k ∈ keys := by
  rw [h.keys_eq]
  exact List.mem_append_left others (Option.mem_toList.mpr hk)

omit [BEq κ] in
theorem ByHash.mem_of_others (h : ByHash nilKey others keys) (hk : k ∈ others) : k ∈ keys := by
  rw [h.keys_eq]
  exact List.mem_append_right _ hk

variable [LawfulHashCode κ]

theorem ByHash.exists_nilKey (h : ByHash nilKey others keys) (h' : ByHash nilKey' others' keys')
    (hSame : ∀ key, keys.any (· == key) = keys'.any (· == key)) (hk : k ∈ nilKey) :
    ∃ k' ∈ nilKey', (k' == k) = true := by
  obtain ⟨k', hk', hEq⟩ := exists_beq_of_mem hSame (h.mem_of_nilKey hk)
  have hNil : isNil k' = true := by rw [LawfulHashCode.isNil_eq hEq, h.isNil_of_mem k hk]
  exact ⟨k', h'.mem_nilKey hk' hNil, hEq⟩

theorem ByHash.exists_others (h : ByHash nilKey others keys) (h' : ByHash nilKey' others' keys')
    (hSame : ∀ key, keys.any (· == key) = keys'.any (· == key)) (hk : k ∈ others) :
    ∃ k' ∈ others', (k' == k) = true := by
  obtain ⟨k', hk', hEq⟩ := exists_beq_of_mem hSame (h.mem_of_others hk)
  have hNil : isNil k' = false := by rw [LawfulHashCode.isNil_eq hEq, h.not_isNil_of_mem k hk]
  exact ⟨k', h'.mem_others hk' hNil, hEq⟩

/-- Both lists have a nil key or none has. -/
theorem ByHash.matching_nilKey (h : ByHash nilKey others keys)
    (h' : ByHash nilKey' others' keys')
    (hSame : ∀ key, keys.any (· == key) = keys'.any (· == key)) :
    List.Forall₂ (fun a b => (a == b) = true) nilKey.toList nilKey'.toList := by
  cases nilKey with
  | none =>
    cases nilKey' with
    | none => exact .nil
    | some b =>
      obtain ⟨a, ha, -⟩ := h'.exists_nilKey h (fun key => (hSame key).symm) (k := b) rfl
      cases ha
  | some a =>
    obtain ⟨b, hb, hEq⟩ := h.exists_nilKey h' hSame (k := a) rfl
    cases hb
    exact .cons (BEq.symm hEq) .nil

/-- Keys that share no hash stand in the order of their hashes only, so two lists of the same keys
have the same hashes in the same order. -/
theorem ByHash.map_hashCode_eq (h : ByHash nilKey others keys) (h' : ByHash nilKey' others' keys')
    (hSame : ∀ key, keys.any (· == key) = keys'.any (· == key))
    (hApart : (others.map hashCode).Nodup) (hApart' : (others'.map hashCode).Nodup) :
    others.map hashCode = others'.map hashCode := by
  have hMem : ∀ hash, hash ∈ others.map hashCode ↔ hash ∈ others'.map hashCode := by
    intro hash
    rw [List.mem_map, List.mem_map]
    constructor
    · rintro ⟨k, hk, rfl⟩
      obtain ⟨k', hk', hEq⟩ := h.exists_others h' hSame hk
      exact ⟨k', hk', LawfulHashCode.hashCode_eq hEq⟩
    · rintro ⟨k, hk, rfl⟩
      obtain ⟨k', hk', hEq⟩ := h'.exists_others h (fun key => (hSame key).symm) hk
      exact ⟨k', hk', LawfulHashCode.hashCode_eq hEq⟩
  have hPerm := (List.perm_ext_iff_of_nodup hApart hApart').mpr hMem
  have hOrdered : (others.map hashCode).Pairwise fun a b => digitsOf a ≤ digitsOf b :=
    List.pairwise_map.mpr h.ordered
  have hOrdered' : (others'.map hashCode).Pairwise fun a b => digitsOf a ≤ digitsOf b :=
    List.pairwise_map.mpr h'.ordered
  apply List.Perm.eq_of_pairwise _ hOrdered hOrdered' hPerm
  exact fun _ _ _ _ hab hba => digitsOf_inj (le_antisymm hab hba)

omit [LawfulHashCode κ] in
/-- Of different keys that are not nil and share no hash, the hashes are different. -/
theorem ByHash.nodup (h : ByHash nilKey others keys)
    (hDistinct : keys.Pairwise fun a b => (a == b) = false)
    (hApart : ∀ a ∈ keys, ∀ b ∈ keys, isNil a = isNil b → hashCode a = hashCode b →
      (a == b) = true) :
    (others.map hashCode).Nodup := by
  rw [h.keys_eq, List.pairwise_append] at hDistinct
  rw [List.nodup_iff_pairwise_ne, List.pairwise_map]
  apply hDistinct.2.1.imp_of_mem
  intro a b ha hb hab hEq
  have hNil : isNil a = isNil b := (h.not_isNil_of_mem a ha).trans (h.not_isNil_of_mem b hb).symm
  rw [hApart a (h.mem_of_others ha) b (h.mem_of_others hb) hNil hEq] at hab
  cases hab

/-- Tries with the same keys list them alike, if no two of the keys share a hash; the nil key may
share its hash with another one. -/
theorem ByHash.matching (h : ByHash nilKey others keys) (h' : ByHash nilKey' others' keys')
    (hSame : ∀ key, keys.any (· == key) = keys'.any (· == key))
    (hDistinct : keys.Pairwise fun a b => (a == b) = false)
    (hDistinct' : keys'.Pairwise fun a b => (a == b) = false)
    (hApart : ∀ a ∈ keys, ∀ b ∈ keys, isNil a = isNil b → hashCode a = hashCode b →
      (a == b) = true) :
    List.Forall₂ (fun a b => (a == b) = true) keys keys' := by
  -- A key of one list and a key of the other with the same hash are equal too.
  have hAcross : ∀ a ∈ keys, ∀ b ∈ keys', isNil a = isNil b → hashCode a = hashCode b →
      (a == b) = true := by
    intro a ha b hb hNil hHash
    obtain ⟨c, hc, hEq⟩ := exists_beq_of_mem (fun key => (hSame key).symm) hb
    rw [← LawfulHashCode.isNil_eq hEq] at hNil
    rw [← LawfulHashCode.hashCode_eq hEq] at hHash
    exact BEq.trans (hApart a ha c hc hNil hHash) hEq
  have hApart' : ∀ a ∈ keys', ∀ b ∈ keys', isNil a = isNil b → hashCode a = hashCode b →
      (a == b) = true := by
    intro a ha b hb hNil hHash
    obtain ⟨c, hc, hEq⟩ := exists_beq_of_mem (fun key => (hSame key).symm) ha
    rw [← LawfulHashCode.isNil_eq hEq] at hNil
    rw [← LawfulHashCode.hashCode_eq hEq] at hHash
    exact BEq.trans (BEq.symm hEq) (hAcross c hc b hb hNil hHash)
  have hHashes := h.map_hashCode_eq h' hSame (h.nodup hDistinct hApart)
    (h'.nodup hDistinct' hApart')
  have hOthers : List.Forall₂ (fun a b => (a == b) = true) others others' := by
    rw [← List.forall₂_eq_eq_eq, List.forall₂_map_left_iff, List.forall₂_map_right_iff,
      List.forall₂_iff_zip] at hHashes
    rw [List.forall₂_iff_zip]
    refine ⟨hHashes.1, fun {a b} hab => ?_⟩
    obtain ⟨ha, hb⟩ := List.of_mem_zip hab
    have hNil : isNil a = isNil b :=
      (h.not_isNil_of_mem a ha).trans (h'.not_isNil_of_mem b hb).symm
    exact hAcross a (h.mem_of_others ha) b (h'.mem_of_others hb) hNil (hHashes.2 hab)
  rw [h.keys_eq, h'.keys_eq]
  exact List.rel_append (h.matching_nilKey h' hSame) hOthers

end Matching

/-- Two tries that contain the same keys list them alike, if no two of the keys share a hash. -/
theorem Tracks.matching_keys [LawfulHashCode κ] {edits edits' : List (Edit κ)} (h : Tracks m edits)
    (h' : Tracks m' edits') (hTrie : ¬ m.IsFlat) (hTrie' : ¬ m'.IsFlat)
    (hSame : ∀ key, m.contains key = m'.contains key)
    (hApart : ∀ a b, m.contains a = .ok true → m.contains b = .ok true → isNil a = isNil b →
      hashCode a = hashCode b → (a == b) = true) :
    List.Forall₂ (fun a b => (a == b) = true) m.keys m'.keys := by
  obtain ⟨nilKey, others, hByHash⟩ := h.listed.trie hTrie
  obtain ⟨nilKey', others', hByHash'⟩ := h'.listed.trie hTrie'
  have hContained : ∀ a ∈ m.keys, m.contains a = .ok true := by
    intro a ha
    have hAny : m.keys.any (· == a) = true := List.any_eq_true.mpr ⟨a, ha, BEq.refl a⟩
    rw [h.wellFormed.contains_eq_any, hAny]
  have hKeys : ∀ key, m.keys.any (· == key) = m'.keys.any (· == key) := by
    intro key
    have hEq := hSame key
    rw [h.wellFormed.contains_eq_any, h'.wellFormed.contains_eq_any] at hEq
    exact Except.ok.inj hEq
  apply hByHash.matching hByHash' hKeys h.wellFormed.pairwise_keys h'.wellFormed.pairwise_keys
  exact fun a ha b hb => hApart a b (hContained a ha) (hContained b hb)

end Lawful

/-! ## What can be reached -/

section

variable [BEq κ] [HashCode κ] [HashCode ν] [LawfulHashCode κ]

/-- Every map that can be reached comes from the empty one by some edits. Whatever the edits were,
the map lists the keys that they leave: in the order of arrival if there were at most eight of them
all the time, for then it is flat, and in the order of a trie otherwise. Two tries that contain the
same keys list them alike, if no two of the keys share a hash; the nil key may share its hash with
another one. -/
theorem iteration_order :
    (∀ {s : Mode} (held : Held κ ν s), Arises (.hashMap held) → ∃ edits, Built held edits) ∧
    (∀ {s : Mode} (held : Held κ ν s) (edits : List (Edit κ)), Built held edits →
      Listed held.content edits) ∧
    ∀ m m' : HashTrieMap κ ν, Arises (.hashMap (s := .frozen) m) →
      Arises (.hashMap (s := .frozen) m') → ¬ m.IsFlat → ¬ m'.IsFlat →
      (∀ key, m.contains key = m'.contains key) →
      (∀ a b, m.contains a = .ok true → m.contains b = .ok true → isNil a = isNil b →
        hashCode a = hashCode b → (a == b) = true) →
      List.Forall₂ (fun a b => (a == b) = true) m.keys m'.keys := by
  refine ⟨fun held h => Arises.edited h, fun held edits h => h.tracks.listed, ?_⟩
  intro m m' h h' hTrie hTrie' hSame hApart
  obtain ⟨edits, hBuilt⟩ := Arises.edited h
  obtain ⟨edits', hBuilt'⟩ := Arises.edited h'
  have hTracks : Tracks m edits := hBuilt.tracks
  have hTracks' : Tracks m' edits' := hBuilt'.tracks
  exact hTracks.matching_keys hTracks' hTrie hTrie' hSame hApart

end

/-- A key comes back after it was removed, and another one gets a new value. -/
def comeBack : Calls (Option UInt8) UInt8 .frozen .frozen :=
  .cons (.insert (some 1) 10) (.cons (.insert (some 2) 20) (.cons (.insert none 30)
    (.cons (.insert (some 2) 21) (.cons (.erase (some 1)) (.cons (.insert (some 1) 11) .nil)))))

/-- A nil key and eleven others, whose hashes begin with different digits. -/
def twelveKeys : List (Option UInt8) :=
  [none, some 0, some 1, some 2, some 3, some 4, some 5, some 6, some 9, some 10, some 11, some 12]

/-- Six more keys, with which the root of a trie becomes an array. -/
def sixMore : List (Option UInt8) := [some 13, some 14, some 15, some 16, some 17, some 26]

def inOneGo : Calls (Option UInt8) UInt8 .frozen .frozen :=
  .cons .transient (.cons (.extend (twelveKeys.map fun key => (key, 0))) (.cons .freeze .nil))

/-- The six keys come first and are removed again, which leaves the array as it is. -/
def withSixMore : Calls (Option UInt8) UInt8 .frozen .frozen :=
  .cons .transient (.cons (.extend ((twelveKeys ++ sixMore).reverse.map fun key => (key, 1)))
    (.cons .freeze (sixMore.foldr (fun key calls => .cons (.erase key) calls) .nil)))

theorem iteration_order_twoTries : LawfulHashCode (Option UInt8) ∧
    (Succeeds (comeBack.run HashTrieMap.empty) fun r =>
      HashTrieMap.keys r.2 = [some 2, none, some 1]) ∧
    Succeeds (inOneGo.run HashTrieMap.empty) fun r =>
      Succeeds (withSixMore.run HashTrieMap.empty) fun r' =>
        ¬ HashTrieMap.IsFlat r.2 ∧ ¬ HashTrieMap.IsFlat r'.2 ∧
          List.Forall₂ (fun a b => (a == b) = true) (HashTrieMap.keys r.2)
            (HashTrieMap.keys r'.2) := by
  obtain ⟨-, hListed, hMatching⟩ := iteration_order (κ := Option UInt8) (ν := UInt8)
  refine ⟨inferInstance, ?_, ?_⟩
  · obtain ⟨events, r, hYields, -, hBuilt⟩ := run_edited comeBack
    have hFlat := (hListed r.2 _ hBuilt).isFlat_iff.mpr (by decide)
    exact ⟨events, r, hYields, (hListed r.2 _ hBuilt).flat hFlat⟩
  · obtain ⟨events, r, hYields, hArises, hBuilt⟩ := run_edited inOneGo
    obtain ⟨events', r', hYields', hArises', hBuilt'⟩ := run_edited withSixMore
    have hKeys := (hListed r.2 _ hBuilt).contains
    have hKeys' := (hListed r'.2 _ hBuilt').contains
    have hTrie : ¬ HashTrieMap.IsFlat r.2 := fun h =>
      (hListed r.2 _ hBuilt).isFlat_iff.mp h (by decide)
    have hTrie' : ¬ HashTrieMap.IsFlat r'.2 := fun h =>
      (hListed r'.2 _ hBuilt').isFlat_iff.mp h (by decide)
    have hMem : ∀ a, HashTrieMap.contains r.2 a = .ok true → a ∈ arrivals inOneGo.edits := by
      intro a ha
      have hAny : (arrivals inOneGo.edits).any (· == a) = true :=
        Except.ok.inj ((hKeys a).symm.trans ha)
      obtain ⟨k, hk, hEq⟩ := List.any_eq_true.mp hAny
      exact eq_of_beq hEq ▸ hk
    have hHashes : ∀ a ∈ arrivals inOneGo.edits, ∀ b ∈ arrivals inOneGo.edits,
        isNil a = isNil b → hashCode a = hashCode b → (a == b) = true := by
      decide +kernel
    have hReverse : arrivals withSixMore.edits = (arrivals inOneGo.edits).reverse := by decide
    refine ⟨events, r, hYields, events', r', hYields', hTrie, hTrie',
      hMatching r.2 r'.2 hArises hArises' hTrie hTrie' ?_ ?_⟩
    · intro key
      refine (hKeys key).trans (Eq.trans ?_ (hKeys' key).symm)
      rw [hReverse, List.any_reverse]
    · exact fun a b ha hb => hHashes a (hMem a ha) b (hMem b hb)

end PersistentCollections.HashTrieMap
