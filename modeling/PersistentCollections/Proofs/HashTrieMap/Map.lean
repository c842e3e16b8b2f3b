import PersistentCollections.HashTrieMap.Transient
import PersistentCollections.Proofs.HashTrieMap.Erase
import PersistentCollections.Proofs.HashTrieMap.Insert

/-!
# Well-formed hash maps

`HashTrieMap.WellFormed` is the invariant of a whole map. A flat map has few entries, with distinct
keys. In a trie the root is well-formed, the entry of a nil key is kept next to it, and no other key
is nil. In both forms the size is the number of entries.

What can be read of a well-formed map is the function `valueAt` from keys to values
(`get?_eq`, `contains_eq`). Every operation succeeds on a well-formed map, gives a well-formed map
back, and changes `valueAt` at one key at most (`exchange_yields`, `take_yields`).
-/

namespace PersistentCollections.HashTrieMap

open Entries

variable {κ ν : Type} [BEq κ] [HashCode κ] {m m' : HashTrieMap κ ν} {key : κ} {value : ν}
  {root : Node κ ν} {nilEntry : Option (κ × ν)} {es : List (κ × ν)}

/-! ## The invariant -/

/-- The entries of a trie, in the order of iteration. -/
def trieEntries (root : Node κ ν) (nilEntry : Option (κ × ν)) : List (κ × ν) :=
  nilEntry.toList ++ root.entries

/-- The entries of a map, in the order of iteration. -/
def entries (m : HashTrieMap κ ν) : List (κ × ν) :=
  match m.shape with
  | .flat entries => entries
  | .trie root nilEntry => trieEntries root nilEntry

/-- The invariant of a trie. -/
structure TrieWellFormed (root : Node κ ν) (nilEntry : Option (κ × ν)) : Prop where
  wellFormed : root.WellFormed digits
  shaped : root.Shaped
  nil : ∀ e ∈ nilEntry, isNil e.1 = true
  others : ∀ e ∈ root.entries, isNil e.1 = false

/-- The invariant of the two forms of a map. -/
def Shape.WellFormed : Shape κ ν → Prop
  | .flat entries => entries.length ≤ mostFlat ∧ Distinct entries
  | .trie root nilEntry => TrieWellFormed root nilEntry

/-- The invariant of a map. -/
structure WellFormed (m : HashTrieMap κ ν) : Prop where
  shape : m.shape.WellFormed
  size : m.size = m.entries.length

/-- The value of a key. -/
def valueAt (m : HashTrieMap κ ν) (key : κ) : Option ν := (Entries.find? key m.entries).map (·.2)

/-- The second map is well-formed, and has at `key` what is given and at all other keys what the
first map has. -/
structure Changed (m : HashTrieMap κ ν) (key : κ) (value : Option ν) (m' : HashTrieMap κ ν) :
    Prop where
  wellFormed : m'.WellFormed
  valueAt : ∀ k, m'.valueAt k = if (key == k) = true then value else m.valueAt k

omit [BEq κ] [HashCode κ] in
@[simp] theorem entries_flat (size : Nat) (es : List (κ × ν)) (cache : Option UInt32)
    (stamp : Nat) : (HashTrieMap.mk size (.flat es) cache stamp).entries = es := rfl

omit [BEq κ] [HashCode κ] in
@[simp] theorem entries_trie (size : Nat) (root : Node κ ν) (nilEntry : Option (κ × ν))
    (cache : Option UInt32) (stamp : Nat) :
    (HashTrieMap.mk size (.trie root nilEntry) cache stamp).entries = trieEntries root nilEntry :=
  rfl

theorem wellFormed_empty : (HashTrieMap.empty : HashTrieMap κ ν).WellFormed :=
  ⟨⟨Nat.zero_le _, List.Pairwise.nil⟩, rfl⟩

omit [HashCode κ] in
theorem valueAt_empty (k : κ) : (HashTrieMap.empty : HashTrieMap κ ν).valueAt k = none := rfl

section Lawful

variable [LawfulHashCode κ]

omit [LawfulHashCode κ] in
theorem isNil_of_mem_nilEntry {e : κ × ν} (h : TrieWellFormed root nilEntry)
    (he : e ∈ nilEntry.toList) : isNil e.1 = true :=
  h.nil e (Option.mem_toList.mp he)

theorem key_ne_of_isNil {a b : κ} (ha : isNil a = true) (hb : isNil b = false) :
    (a == b) = false := by
  rw [Bool.eq_false_iff]
  intro h
  rw [LawfulHashCode.isNil_eq h, hb] at ha
  cases ha

/-- A nil key is not in the root. -/
theorem TrieWellFormed.lacks_root (h : TrieWellFormed root nilEntry) (hk : isNil key = true) :
    Lacks key root.entries := fun e he => key_ne_symm (key_ne_of_isNil hk (h.others e he))

/-- A key that is not nil is in the root if anywhere. -/
theorem TrieWellFormed.lacks_nilEntry (h : TrieWellFormed root nilEntry)
    (hk : isNil key = false) : Lacks key nilEntry.toList :=
  fun _ he => key_ne_of_isNil (isNil_of_mem_nilEntry h he) hk

theorem TrieWellFormed.distinct (h : TrieWellFormed root nilEntry) :
    Distinct (trieEntries root nilEntry) := by
  refine distinct_append.mpr ⟨?_, h.wellFormed.distinct, fun e he => ?_⟩
  · cases nilEntry with
    | none => exact List.Pairwise.nil
    | some e => exact List.pairwise_singleton _ _
  · exact h.lacks_root (isNil_of_mem_nilEntry h he)

theorem WellFormed.distinct (h : m.WellFormed) : Distinct m.entries := by
  obtain ⟨size, shape, cache, stamp⟩ := m
  cases shape with
  | flat es => exact h.shape.2
  | trie root nilEntry => exact TrieWellFormed.distinct h.shape

/-! ## Reading -/

theorem find?_trieEntries_of_nil (h : TrieWellFormed root nilEntry) (hk : isNil key = true) :
    Entries.find? key (trieEntries root nilEntry) = nilEntry := by
  cases nilEntry with
  | none => exact find?_of_lacks (h.lacks_root hk)
  | some e =>
    have he : (e.1 == key) = true := LawfulHashCode.nil_unique (h.nil e rfl) hk
    exact find?_split (lacks_nil key) he

theorem find?_trieEntries (h : TrieWellFormed root nilEntry) (hk : isNil key = false) :
    Entries.find? key (trieEntries root nilEntry) = Entries.find? key root.entries :=
  find?_append (h.lacks_nilEntry hk)

/-- A lookup finds the entry of the key among the entries of the map. -/
theorem entryAt?_eq (h : m.WellFormed) (key : κ) :
    m.entryAt? key = .ok (Entries.find? key m.entries) := by
  obtain ⟨size, shape, cache, stamp⟩ := m
  cases shape with
  | flat es => rfl
  | trie root nilEntry =>
    have ht : TrieWellFormed root nilEntry := h.shape
    simp only [entryAt?, entries_trie]
    by_cases hk : isNil key = true
    · rw [if_pos hk, find?_trieEntries_of_nil ht hk]
    · rw [if_neg hk, find?_trieEntries ht (Bool.eq_false_iff.mpr hk), Node.find?_eq ht.wellFormed]

theorem get?_eq (h : m.WellFormed) (key : κ) : m.get? key = .ok (m.valueAt key) := by
  rw [get?, entryAt?_eq h]
  rfl

theorem getD_eq (h : m.WellFormed) (key : κ) (fallback : ν) :
    m.getD key fallback = .ok ((m.valueAt key).getD fallback) := by
  rw [getD, get?_eq h]
  rfl

theorem contains_eq (h : m.WellFormed) (key : κ) :
    m.contains key = .ok (m.valueAt key).isSome := by
  rw [contains, entryAt?_eq h, valueAt, Option.isSome_map]
  rfl

omit [LawfulHashCode κ] in
theorem isEmpty_eq (h : m.WellFormed) : m.isEmpty = m.entries.isEmpty := by
  rw [isEmpty, h.size]
  cases m.entries with
  | nil => rfl
  | cons e es => rfl

theorem valueAt_congr {key' : κ} (h : (key == key') = true) (m : HashTrieMap κ ν) :
    m.valueAt key = m.valueAt key' := by
  rw [valueAt, valueAt, find?_congr h]

/-! ## Tries -/

/-- A key that is not nil goes into the root. -/
theorem TrieWellFormed.insert (h : TrieWellFormed root nilEntry) (hk : isNil key = false)
    (now : Nat) (value : ν) :
    ∃ r, root.insert now digits (key, value) (hashCode key) = .ok r ∧
      TrieWellFormed r.node nilEntry ∧
      Put key value (trieEntries root nilEntry) r.replaced (trieEntries r.node nilEntry) := by
  obtain ⟨r, hr, ha⟩ := Node.insert_accepts now digits root key value h.wellFormed
    (Or.inl h.shaped) fun e _ => meets_digits _ _
  refine ⟨r, hr, ⟨ha.wellFormed, ha.shaped h.shaped, h.nil, fun e he => ?_⟩, ?_⟩
  · rcases ha.put.key_mem he with he | ⟨e', he', he⟩
    · rw [he, hk]
    · rw [← he, h.others e' he']
  · have hp := ha.put.within (h.lacks_nilEntry hk) (lacks_nil key) fun e he => by cases he
    rwa [List.append_nil, List.append_nil] at hp

/-- A new entry goes into a trie under construction. -/
theorem add_spec {p : Promotion κ ν} {e : κ × ν} (now : Nat)
    (h : TrieWellFormed p.root p.nilEntry) (hl : Lacks e.1 (trieEntries p.root p.nilEntry)) :
    ∃ p', p.add now e = .ok p' ∧ TrieWellFormed p'.root p'.nilEntry ∧
      (trieEntries p'.root p'.nilEntry).Perm (e :: trieEntries p.root p.nilEntry) := by
  obtain ⟨root, nilEntry, events⟩ := p
  rw [Promotion.add]
  by_cases hk : isNil e.1 = true
  · have hNone : nilEntry = none := by
      cases hn : nilEntry with
      | none => rfl
      | some e' =>
        have he := hl e' (by simp [trieEntries, hn])
        rw [LawfulHashCode.nil_unique (h.nil e' hn) hk] at he
        cases he
    subst hNone
    rw [if_pos hk]
    refine ⟨_, rfl, ⟨h.wellFormed, h.shaped, fun e' he' => ?_, h.others⟩, List.Perm.refl _⟩
    cases he'
    exact hk
  · obtain ⟨r, hr, hw, hp⟩ := h.insert (Bool.eq_false_iff.mpr hk) now e.2
    rw [if_neg hk]
    exact ⟨⟨r.node, nilEntry, events ++ r.events⟩, by rw [hr]; rfl, hw, hp.perm hl⟩

omit [LawfulHashCode κ] in
theorem trieWellFormed_empty (now : Nat) : TrieWellFormed (Node.empty now : Node κ ν) none := by
  have hNone : ∀ q, (Node.empty now : Node κ ν).slotAt q = none := by
    intro q
    rw [Node.empty, Node.slotAt, Bitmap.has_empty]
    rfl
  have hs : (Node.empty now : Node κ ν).Shaped := ⟨(Bitmap.rank_empty width).symm, Nat.zero_le _⟩
  refine ⟨Node.Branch.wellFormed ⟨hs, fun q slot hq => ?_⟩, hs, fun _ he => (by cases he), ?_⟩
  · rw [hNone] at hq
    cases hq
  · rw [Node.empty, Node.entries_bitmap]
    intro e he
    cases he

theorem foldlM_add_spec {p : Promotion κ ν} (now : Nat) (es : List (κ × ν))
    (h : TrieWellFormed p.root p.nilEntry) (hd : Distinct (trieEntries p.root p.nilEntry ++ es)) :
    ∃ p', es.foldlM (Promotion.add now) p = .ok p' ∧ TrieWellFormed p'.root p'.nilEntry ∧
      (trieEntries p'.root p'.nilEntry).Perm (trieEntries p.root p.nilEntry ++ es) := by
  induction es generalizing p with
  | nil => exact ⟨p, rfl, h, by rw [List.append_nil]⟩
  | cons e es ih =>
    have hMove : (trieEntries p.root p.nilEntry ++ e :: es).Perm
        (e :: trieEntries p.root p.nilEntry ++ es) := List.perm_middle
    have hl := (distinct_cons.mp (hd.perm hMove)).1
    obtain ⟨p', hp', hw, hPerm⟩ := add_spec now h (lacks_append.mp hl).1
    obtain ⟨p'', hp'', hw', hPerm'⟩ := ih hw (hd.perm (hMove.trans (hPerm.symm.append_right es)))
    refine ⟨p'', ?_, hw', hPerm'.trans ((hPerm.append_right es).trans hMove.symm)⟩
    rw [List.foldlM_cons, hp', Result.bind_ok, hp'']

/-- A list of entries with distinct keys becomes a trie with the same entries. -/
theorem promote_spec (now : Nat) (hd : Distinct es) :
    ∃ p, promote now es = .ok p ∧ TrieWellFormed p.root p.nilEntry ∧
      (trieEntries p.root p.nilEntry).Perm es := by
  have hNil : trieEntries (Node.empty now : Node κ ν) none = [] := by
    rw [trieEntries, Node.empty, Node.entries_bitmap]
    rfl
  have hs := foldlM_add_spec (p := ⟨.empty now, none, []⟩) now es (trieWellFormed_empty now)
  simp only [hNil, List.nil_append] at hs
  exact hs hd

/-! ## Changes -/

theorem changed_of_put {es' : List (κ × ν)} {old : Option ν} (h : m.WellFormed)
    (hput : Put key value m.entries old es') (hw : m'.WellFormed) (hp : m'.entries.Perm es') :
    Changed m key (some value) m' := by
  refine ⟨hw, fun k => ?_⟩
  rw [HashTrieMap.valueAt, find?_perm hw.distinct hp, hput.find?_map h.distinct k]
  rfl

theorem changed_of_perm {taken : κ × ν} (h : m.WellFormed)
    (hp : m.entries.Perm (taken :: m'.entries)) (ht : (taken.1 == key) = true)
    (hw : m'.WellFormed) : Changed m key none m' := by
  refine ⟨hw, fun k => ?_⟩
  rw [HashTrieMap.valueAt, find?_of_perm_cons h.distinct hp ht k]
  split
  · rfl
  · rfl

/-- A removal of a key that is not there. -/
theorem changed_of_lacks (hl : Lacks key m.entries) (hw : m'.WellFormed)
    (he : m'.entries = m.entries) : Changed m key none m' := by
  refine ⟨hw, fun k => ?_⟩
  have hk : m'.valueAt k = m.valueAt k := by rw [HashTrieMap.valueAt, he]; rfl
  split
  · next h => rw [hk, ← valueAt_congr h, HashTrieMap.valueAt, find?_of_lacks hl]; rfl
  · exact hk

/-- A change of the entry next to the trie. -/
theorem changed_of_nil {size size' stamp stamp' : Nat} {cache cache' : Option UInt32}
    {nilEntry' : Option (κ × ν)} {value : Option ν} (h : TrieWellFormed root nilEntry)
    (hk : isNil key = true) (hn : ∀ e ∈ nilEntry', isNil e.1 = true)
    (hv : nilEntry'.map (·.2) = value) (hs : size' = (trieEntries root nilEntry').length) :
    Changed ⟨size, .trie root nilEntry, cache, stamp⟩ key value
      ⟨size', .trie root nilEntry', cache', stamp'⟩ := by
  have hw : TrieWellFormed root nilEntry' := ⟨h.wellFormed, h.shaped, hn, h.others⟩
  subst hv
  refine ⟨⟨hw, hs⟩, fun k => ?_⟩
  simp only [valueAt, entries_trie]
  by_cases hk' : isNil k = true
  · rw [if_pos (LawfulHashCode.nil_unique hk hk'), find?_trieEntries_of_nil hw hk']
  · have hk' : isNil k = false := Bool.eq_false_iff.mpr hk'
    rw [key_ne_of_isNil hk hk', find?_trieEntries hw hk', find?_trieEntries h hk']
    rfl

/-- A flat map takes a new entry, or turns into a trie with it. -/
theorem grow_yields {e : κ × ν} (h : m.WellFormed) (hflat : m.shape = .flat es)
    (hl : Lacks e.1 es) :
    ∃ events m', Yields (m.grow es e) events m' ∧ m'.WellFormed ∧ m'.entries.Perm (es ++ [e]) := by
  obtain ⟨size, shape, cache, stamp⟩ := m
  cases hflat
  have hd : Distinct (es ++ [e]) :=
    (distinct_cons.mpr ⟨hl, h.distinct⟩).perm (List.perm_append_singleton e es).symm
  have hsize : size + 1 = (es ++ [e]).length := by
    have hs : size = es.length := h.size
    rw [List.length_append, hs]
    rfl
  rw [grow]
  by_cases hlt : es.length < mostFlat
  · have hle : (es ++ [e]).length ≤ mostFlat := by
      rw [List.length_append, List.length_singleton]
      exact hlt
    rw [if_pos hlt]
    exact ⟨_, _, yields_pure _, ⟨⟨hle, hd⟩, hsize⟩, List.Perm.refl _⟩
  · obtain ⟨p, hp, hw, hperm⟩ := promote_spec stamp hd
    rw [if_neg hlt]
    refine ⟨_, _, (yields_lift hp).pass ((yields_recordAll _).bind
      ((yields_record _).bind (yields_pure _))), ⟨hw, ?_⟩, hperm⟩
    rw [entries_trie, hperm.length_eq, hsize]

/-- Giving a key a value succeeds, answers the value that it had, and changes that value only. -/
theorem exchange_yields (h : m.WellFormed) (key : κ) (value : ν) :
    ∃ events m', Yields (m.exchange key value) events (m.valueAt key, m') ∧
      Changed m key (some value) m' := by
  obtain ⟨size, shape, cache, stamp⟩ := m
  have hsize := h.size
  cases shape with
  | flat es =>
    simp only [exchange, valueAt, entries_flat] at hsize ⊢
    rcases lacks_or_split key es with hl | ⟨before, e, after, rfl, hl, he⟩
    · obtain ⟨events, m', hy, hw, hp⟩ := grow_yields (e := (key, value)) h rfl hl
      rw [setValue?_of_lacks hl, find?_of_lacks hl]
      exact ⟨events, m', hy.map fun m => (none, m), changed_of_put h (put_last key value hl) hw hp⟩
    · have hput : Put key value (before ++ e :: after) (some e.2)
          (before ++ (e.1, value) :: after) := Put.overwrite hl he
      rw [setValue?_split hl he, find?_split hl he]
      refine ⟨_, _, yields_pure _, changed_of_put h hput ⟨⟨?_, ?_⟩, ?_⟩ (List.Perm.refl _)⟩
      · simpa using h.shape.1
      · exact hput.distinct h.distinct
      · simpa using hsize
  | trie root nilEntry =>
    have ht : TrieWellFormed root nilEntry := h.shape
    simp only [exchange, valueAt, entries_trie] at hsize ⊢
    by_cases hk : isNil key = true
    · rw [if_pos hk, find?_trieEntries_of_nil ht hk]
      refine ⟨_, _, yields_pure _, changed_of_nil ht hk (fun e he => ?_) rfl ?_⟩
      · cases he
        exact hk
      · cases nilEntry with
        | none => simpa [trieEntries] using hsize
        | some e => simpa [trieEntries] using hsize
    · have hk : isNil key = false := Bool.eq_false_iff.mpr hk
      obtain ⟨r, hr, hw, hp⟩ := ht.insert hk stamp value
      rw [if_neg (by simp [hk]), ← hp.replaced]
      refine ⟨_, _, (yields_lift hr).pass ((yields_recordAll _).map _),
        changed_of_put h hp ⟨hw, ?_⟩ (List.Perm.refl _)⟩
      rw [entries_trie, hp.length, hsize]

omit [BEq κ] [HashCode κ] [LawfulHashCode κ] in
theorem sizeWithout_eq {n : Nat} (h : m.size = n + 1) : m.sizeWithout = .ok n := by
  rw [sizeWithout, if_neg (by omega), h]
  rfl

/-- Taking a key that is not nil out of a trie: it is not there, and the nodes on its way are
written anew, or its entry comes out. -/
theorem TrieWellFormed.erase (h : TrieWellFormed root nilEntry) (hk : isNil key = false)
    (stamp : Nat) (sole : Sharing) :
    (root.erase stamp sole key (hashCode key) digits = .ok none ∧
      Lacks key (trieEntries root nilEntry) ∧
      TrieWellFormed (root.touch stamp (hashCode key) digits) nilEntry ∧
      trieEntries (root.touch stamp (hashCode key) digits) nilEntry = trieEntries root nilEntry) ∨
    ∃ r, root.erase stamp sole key (hashCode key) digits = .ok (some r) ∧
      TrieWellFormed r.node nilEntry ∧ (r.entry.1 == key) = true ∧
      (trieEntries root nilEntry).Perm (r.entry :: trieEntries r.node nilEntry) := by
  have ha := Node.erase_answers stamp sole key digits root h.wellFormed
  cases hErase : root.erase stamp sole key (hashCode key) digits with
  | error e =>
    rw [hErase] at ha
    cases ha
  | ok answer =>
    rw [hErase] at ha
    cases ha with
    | absent hl =>
      obtain ⟨hw, hs, he⟩ := Node.touch_renews stamp (hashCode key) digits root h.wellFormed
      refine .inl ⟨rfl, lacks_append.mpr ⟨h.lacks_nilEntry hk, hl⟩, ?_, ?_⟩
      · exact ⟨hw, hs h.shaped, h.nil, he ▸ h.others⟩
      · rw [trieEntries, he, trieEntries]
    | @taken r hr =>
      refine .inr ⟨r, rfl, ⟨hr.wellFormed, hr.shaped h.shaped, h.nil, fun e he => ?_⟩,
        hr.cut.key_eq, (hr.cut.perm.append_left nilEntry.toList).trans List.perm_middle⟩
      exact h.others e (hr.cut.perm.mem_iff.mpr (List.mem_cons_of_mem _ he))

/-- Taking a key out succeeds, whichever nodes have other owners. It answers the entry that the key
had, and changes the value of that key only. -/
theorem take_yields (h : m.WellFormed) (sole : Sharing) (key : κ) :
    ∃ events m', Yields (m.take sole key) events (Entries.find? key m.entries, m') ∧
      Changed m key none m' := by
  obtain ⟨size, shape, cache, stamp⟩ := m
  have hsize := h.size
  cases shape with
  | flat es =>
    simp only [take, entries_flat] at hsize ⊢
    rcases lacks_or_split key es with hl | ⟨before, e, after, rfl, hl, he⟩
    · rw [take?_of_lacks hl, find?_of_lacks hl]
      exact ⟨_, _, yields_pure _, changed_of_lacks hl h rfl⟩
    · have hp : (before ++ e :: after).Perm (e :: (before ++ after)) := List.perm_middle
      have hn : size = (before ++ after).length + 1 := hsize.trans hp.length_eq
      have hd := (distinct_cons.mp (h.distinct.perm hp)).2
      rw [take?_split hl he, find?_split hl he]
      refine ⟨_, _, (yields_lift (sizeWithout_eq hn)).pass (yields_pure _),
        changed_of_perm h hp he ⟨⟨?_, hd⟩, rfl⟩⟩
      have hle : (before ++ e :: after).length ≤ mostFlat := h.shape.1
      omega
  | trie root nilEntry =>
    have ht : TrieWellFormed root nilEntry := h.shape
    simp only [take, entries_trie] at hsize ⊢
    by_cases hk : isNil key = true
    · rw [if_pos hk, find?_trieEntries_of_nil ht hk]
      cases nilEntry with
      | none => exact ⟨_, _, yields_pure _, changed_of_lacks (ht.lacks_root hk) h rfl⟩
      | some e =>
        have hn : size = root.entries.length + 1 := hsize
        exact ⟨_, _, (yields_lift (sizeWithout_eq hn)).pass (yields_pure _),
          changed_of_nil ht hk (fun e he => nomatch he) rfl rfl⟩
    · have hk : isNil key = false := Bool.eq_false_iff.mpr hk
      rw [if_neg (by simp [hk])]
      rcases ht.erase hk stamp sole with ⟨hErase, hl, ht', he⟩ | ⟨r, hErase, ht', hKey, hp⟩
      · rw [find?_of_lacks hl]
        refine ⟨_, _, (yields_lift hErase).pass (yields_pure _), changed_of_lacks hl ⟨ht', ?_⟩ he⟩
        rw [entries_trie, he]
        exact hsize
      · have hn : size = (trieEntries r.node nilEntry).length + 1 := hsize.trans hp.length_eq
        have hFind : Entries.find? key (trieEntries root nilEntry) = some r.entry :=
          (find?_eq_some_iff h.distinct).mpr ⟨hp.mem_iff.mpr List.mem_cons_self, hKey⟩
        rw [hFind]
        refine ⟨_, ⟨(trieEntries r.node nilEntry).length, .trie r.node nilEntry, none, stamp⟩,
          (yields_lift hErase).pass ((yields_recordAll _).bind
            ((yields_lift (sizeWithout_eq hn)).pass (yields_pure _))), ?_⟩
        exact changed_of_perm h hp hKey ⟨ht', rfl⟩

end Lawful

end PersistentCollections.HashTrieMap
