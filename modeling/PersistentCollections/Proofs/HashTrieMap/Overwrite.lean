import Mathlib
import PersistentCollections.Proofs.HashTrieMap.IterationOrder

/-!
# Overwriting an entry

A key that is given a value need not be the stored key that it is equal to. `Overwrites` is the
frame: the stored key stays in its place and gets the value, and the other entries, the order, the
size and the form of the map are as they were. Every way to give a key a value overwrites, records
nothing and tells the value that was there, whatever the entry is kept in (`exchange_stored`).

The one exception is the entry of a nil key next to a trie, which is exchanged as a whole: there the
given key is stored. It departs from the flat form, where the same nil key keeps its place
(`Entries.setValue?`), and from the leaves and collisions of the trie, which keep theirs
(`Node.insert`). So `Keeps` does not say of the two equal keys which one is stored there, and that
it is the given one is shown in `exceptions_to_overwriting`.

A merge gives the keys of the one map the values of the other. `Blends` says what that makes of the
entries of a key in the two maps; where no key is new, the keys stay as they are (`extend_stored`).
-/

namespace PersistentCollections.HashTrieMap

open Entries

variable {κ ν : Type} [BEq κ] [HashCode κ] {m m' m'' other : HashTrieMap κ ν}

/-- After a stored key was overwritten it is still there, in a flat map and in a node. Of a nil key
next to a trie no more is said than that an equal one is there: the trie stores the given key, where
the flat form and `Node.insert` keep the stored one. -/
structure Keeps (m : HashTrieMap κ ν) (stored kept : κ) : Prop where
  same : (stored == kept) = true
  kept_eq : m.IsFlat ∨ isNil stored = false → kept = stored

/-- The second map has the entry `e'` in the place of the entry `e` of the first one, and nothing
else is different. -/
structure Overwrites (m : HashTrieMap κ ν) (e e' : κ × ν) (m' : HashTrieMap κ ν) : Prop where
  keeps : m'.Keeps e.1 e'.1
  inPlace : ∃ before after, m.toList = before ++ e :: after ∧ m'.toList = before ++ e' :: after
  size : m'.size = m.size
  isFlat : m'.IsFlat ↔ m.IsFlat
  entryAt?_same : ∀ key, (e.1 == key) = true → m'.entryAt? key = .ok (some e')
  entryAt?_other : ∀ key, (e.1 == key) = false → m'.entryAt? key = m.entryAt? key

/-- What a merge makes of the entries of a key in the two maps: that of one of them, or the stored
key of the first one with the value of the second. -/
inductive Blends (m : HashTrieMap κ ν) :
    Option (κ × ν) → Option (κ × ν) → Option (κ × ν) → Prop
  | first (o : Option (κ × ν)) : Blends m o none o
  | second (e : κ × ν) : Blends m none (some e) (some e)
  | both {stored kept key : κ} {old value : ν} :
      m.Keeps stored kept → Blends m (some (stored, old)) (some (key, value)) (some (kept, value))

section

variable {stored kept : κ}

theorem Keeps.refl [ReflBEq κ] (m : HashTrieMap κ ν) (stored : κ) : m.Keeps stored stored :=
  ⟨BEq.rfl, fun _ => rfl⟩

/-- It is no longer open which key is stored if it is not in the earlier map. -/
theorem Keeps.mono (h : m.Keeps stored kept) (hFlat : m'.IsFlat → m.IsFlat) :
    m'.Keeps stored kept :=
  ⟨h.same, fun hKept => h.kept_eq (hKept.imp_left hFlat)⟩

theorem Blends.mono {o p q : Option (κ × ν)} (h : Blends m o p q) (hFlat : m'.IsFlat → m.IsFlat) :
    Blends m' o p q := by
  cases h with
  | first => exact .first _
  | second => exact .second _
  | both hKeeps => exact .both (hKeeps.mono hFlat)

theorem Blends.eq_first {o q : Option (κ × ν)} (h : Blends m o none q) : q = o := by
  cases h with
  | first => rfl

end

section Lawful

variable [LawfulHashCode κ] {key stored kept kept' : κ} {old value : ν} {root : Node κ ν}
  {nilEntry : Option (κ × ν)} {es before after : List (κ × ν)} {t : Transient κ ν}

theorem Keeps.trans (h : m.Keeps stored kept) (h' : m.Keeps kept kept') : m.Keeps stored kept' := by
  refine ⟨BEq.trans h.same h'.same, fun hKept => ?_⟩
  have hKept' : m.IsFlat ∨ isNil kept = false := by rwa [← LawfulHashCode.isNil_eq h.same]
  exact (h'.kept_eq hKept').trans (h.kept_eq hKept)

/-! ## One entry -/

/-- Overwriting a key in the root of a trie: the stored key stays where it is, and there is nothing
to record. -/
theorem TrieWellFormed.overwrite (h : TrieWellFormed root nilEntry) (hk : isNil key = false)
    (hMem : (stored, old) ∈ trieEntries root nilEntry) (hKey : (stored == key) = true) (now : Nat)
    (value : ν) :
    ∃ node before after,
      root.insert now digits (key, value) (hashCode key) = .ok ⟨node, some old, []⟩ ∧
      trieEntries root nilEntry = before ++ (stored, old) :: after ∧
      trieEntries node nilEntry = before ++ (stored, value) :: after := by
  obtain ⟨r, hr, -, hPut⟩ := h.insert hk now value
  obtain ⟨hOld, before, after, hEntries, hEntries'⟩ := hPut.of_mem h.distinct hMem hKey
  have hRoot : (stored, old) ∈ root.entries := by
    refine (List.mem_append.mp hMem).resolve_left fun hNil => ?_
    rw [h.lacks_nilEntry hk _ hNil] at hKey
    cases hKey
  have hReshapes := Node.insert_promotes now digits root key value r h.wellFormed
    (Or.inl h.shaped) hr
  have hNone : promotion digits root.arrayAt root.entries (hashCode key) = none :=
    promotion_of_mem hRoot (LawfulHashCode.hashCode_eq hKey) digits _
  have hEvents : r.events = [] := by
    rw [hReshapes.events_eq, hNone]
    rfl
  refine ⟨r.node, before, after, ?_, hEntries, hEntries'⟩
  rw [hr, ← hOld, ← hEvents]

/-- An exchange at a stored key, in each of the places that an entry can be in. -/
theorem exchange_inPlace (h : m.WellFormed) (hMem : (stored, old) ∈ m.entries)
    (hKey : (stored == key) = true) (value : ν) :
    ∃ kept m' before after, Yields (m.exchange key value) [] (some old, m') ∧
      m'.Keeps stored kept ∧ (m'.IsFlat ↔ m.IsFlat) ∧
      m.entries = before ++ (stored, old) :: after ∧
      m'.entries = before ++ (kept, value) :: after := by
  have hFind := (find?_eq_some_iff h.distinct).mpr ⟨hMem, hKey⟩
  obtain ⟨size, shape, cache, stamp⟩ := m
  cases shape with
  | flat es =>
    rw [entries_flat] at hFind
    rcases lacks_or_split key es with hl | ⟨before, e, after, rfl, hl, he⟩
    · rw [find?_of_lacks hl] at hFind
      cases hFind
    · rw [find?_split hl he] at hFind
      cases hFind
      refine ⟨stored, ⟨size, .flat (before ++ (stored, value) :: after), none, stamp⟩, before,
        after, ?_, .refl _ _, Iff.rfl, rfl, rfl⟩
      simp only [exchange, setValue?_split hl he]
      exact yields_pure _
  | trie root nilEntry =>
    have ht : TrieWellFormed root nilEntry := h.shape
    simp only [exchange]
    by_cases hk : isNil key = true
    · rw [entries_trie, find?_trieEntries_of_nil ht hk] at hFind
      subst hFind
      rw [if_pos hk]
      -- the key goes in along with the value, and only `==` ties it to the stored one
      refine ⟨key, _, [], root.entries, yields_pure _, ⟨hKey, ?_⟩, Iff.rfl, rfl, rfl⟩
      rintro (hFlat | hOther)
      · exact hFlat.elim
      · rw [LawfulHashCode.isNil_eq hKey, hk] at hOther
        cases hOther
    · rw [if_neg hk]
      obtain ⟨node, before, after, hInsert, hEntries, hEntries'⟩ :=
        ht.overwrite (Bool.eq_false_iff.mpr hk) hMem hKey stamp value
      exact ⟨stored, _, before, after, (yields_lift hInsert).pass ((yields_recordAll _).map _),
        .refl _ _, Iff.rfl, hEntries, hEntries'⟩

/-- An exchange at a new key. -/
theorem exchange_new (h : m.WellFormed) (hl : Lacks key m.entries) (value : ν) :
    ∃ events m', Yields (m.exchange key value) events (none, m') ∧
      m'.entries.Perm ((key, value) :: m.entries) ∧ (m'.IsFlat → m.IsFlat) := by
  obtain ⟨size, shape, cache, stamp⟩ := m
  simp only [exchange]
  cases shape with
  | flat es =>
    obtain ⟨events, m', hYields, -, hPerm⟩ := grow_yields (e := (key, value)) h rfl hl
    have hLacks : Lacks key es := hl
    simp only [setValue?_of_lacks hLacks]
    exact ⟨events, m', hYields.map fun m => (none, m),
      hPerm.trans (List.perm_append_singleton _ es), fun _ => trivial⟩
  | trie root nilEntry =>
    have ht : TrieWellFormed root nilEntry := h.shape
    by_cases hk : isNil key = true
    · have hNone : nilEntry = none := by
        rw [← find?_trieEntries_of_nil ht hk]
        exact find?_of_lacks hl
      subst hNone
      simp only [if_pos hk]
      exact ⟨[], _, yields_pure _, .refl _, id⟩
    · obtain ⟨⟨node, replaced, events⟩, hr, -, hPut⟩ :=
        ht.insert (Bool.eq_false_iff.mpr hk) stamp value
      obtain rfl : replaced = none := hPut.replaced.trans (congrArg _ (find?_of_lacks hl))
      simp only [if_neg hk]
      exact ⟨events, ⟨size + 1, .trie node nilEntry, none, stamp⟩,
        (yields_lift hr).pass ((yields_recordAll events).map _), hPut.perm hl, id⟩

theorem WellFormed.of_exchange {events : List Event} {answer : Option ν} (h : m.WellFormed)
    (hYields : Yields (m.exchange key value) events (answer, m')) : m'.WellFormed := by
  obtain ⟨_, _, hYields', hChanged⟩ := exchange_yields h key value
  cases (hYields.unique hYields').2
  exact hChanged.wellFormed

/-- An exchange at a stored key overwrites its entry. It records nothing and answers the value that
was there. -/
theorem exchange_stored (h : m.WellFormed) (hMem : (stored, old) ∈ m.toList)
    (hKey : (stored == key) = true) (value : ν) :
    ∃ kept m', Yields (m.exchange key value) [] (some old, m') ∧ m'.WellFormed ∧
      Overwrites m (stored, old) (kept, value) m' := by
  rw [toList_eq_entries] at hMem
  obtain ⟨kept, m', before, after, hYields, hKeeps, hFlat, hEntries, hEntries'⟩ :=
    exchange_inPlace h hMem hKey value
  have h' : m'.WellFormed := h.of_exchange hYields
  refine ⟨kept, m', hYields, h', hKeeps, ⟨before, after, ?_⟩, ?_, hFlat, fun k hk => ?_,
    fun k hk => ?_⟩
  · rw [toList_eq_entries, toList_eq_entries]
    exact ⟨hEntries, hEntries'⟩
  · rw [h.size, h'.size, hEntries, hEntries', List.length_append, List.length_append]
    rfl
  · have hKept : (kept == k) = true := by rw [← BEq.congr_left hKeeps.same, hk]
    have hMem' : (kept, value) ∈ m'.entries :=
      hEntries' ▸ List.mem_append_right before List.mem_cons_self
    rw [entryAt?_eq h', (find?_eq_some_iff h'.distinct).mpr ⟨hMem', hKept⟩]
  · have hKept : (kept == k) = false := by rw [← BEq.congr_left hKeeps.same, hk]
    rw [entryAt?_eq h, entryAt?_eq h', hEntries, hEntries', find?_skip hk, find?_skip hKept]

theorem insert_stored (h : m.WellFormed) (hMem : (stored, old) ∈ m.toList)
    (hKey : (stored == key) = true) (value : ν) :
    ∃ kept m', Yields (m.insert key value) [] m' ∧ Overwrites m (stored, old) (kept, value) m' := by
  obtain ⟨kept, m', hYields, -, hOver⟩ := exchange_stored h hMem hKey value
  exact ⟨kept, m', hYields.map _, hOver⟩

/-- An update at a stored key reads its value first. -/
theorem update_stored (h : m.WellFormed) (hMem : (stored, old) ∈ m.toList)
    (hKey : (stored == key) = true) (f : Option ν → ν) :
    ∃ kept m', Yields (m.update key f) [] m' ∧
      Overwrites m (stored, old) (kept, f (some old)) m' := by
  obtain ⟨kept, m', hYields, hOver⟩ := insert_stored h hMem hKey (f (some old))
  have hValue : m.get? key = .ok (some old) := by
    rw [toList_eq_entries] at hMem
    rw [get?_eq h, (valueAt_eq_some_iff h).mpr ⟨_, hMem, hKey, rfl⟩]
  exact ⟨kept, m', (yields_lift hValue).pass hYields, hOver⟩

theorem exchange_transient_stored (h : t.map.WellFormed) (hMem : (stored, old) ∈ t.map.toList)
    (hKey : (stored == key) = true) (value : ν) :
    ∃ kept t', Yields (t.exchange key value) [] (some old, t') ∧
      Yields (t.insert key value) [] t' ∧ t'.map.WellFormed ∧
      Overwrites t.map (stored, old) (kept, value) t'.map := by
  obtain ⟨kept, m', hYields, h', hOver⟩ := exchange_stored h hMem hKey value
  have hExchange : Yields (t.exchange key value) [] (some old, ⟨m'⟩) := hYields.map _
  exact ⟨kept, ⟨m'⟩, hExchange, hExchange.map _, h', hOver⟩

/-! ## Many entries -/

/-- The second map has the entries of the first one, and the listed ones on top of them. -/
structure Blended (m : HashTrieMap κ ν) (es : List (κ × ν)) (m' : HashTrieMap κ ν) : Prop where
  wellFormed : m'.WellFormed
  isFlat : m'.IsFlat → m.IsFlat
  blends : ∀ k, Blends m' (Entries.find? k m.entries) (Entries.find? k es)
    (Entries.find? k m'.entries)

omit [LawfulHashCode κ] in
theorem Blended.of_stamped {stamp : Nat} (h : Blended (m.stamped stamp) es m') :
    Blended m es m' := ⟨h.wellFormed, h.isFlat, h.blends⟩

/-- One more entry on top of what is there. -/
theorem exchange_blended (h : m.WellFormed) (key : κ) (value : ν) :
    Succeeds (m.exchange key value) fun r => Blended m [(key, value)] r.2 := by
  rcases lacks_or_split key m.entries with hl | ⟨before, ⟨stored, old⟩, after, hEntries, -, hKey⟩
  · obtain ⟨events, m', hYields, hPerm, hFlat⟩ := exchange_new h hl value
    have h' : m'.WellFormed := h.of_exchange hYields
    refine ⟨events, _, hYields, h', hFlat, fun k => ?_⟩
    rw [find?_perm h'.distinct hPerm]
    cases hk : key == k with
    | true =>
      rw [find?_of_lacks (hl.congr hk), find?_cons_same hk, find?_cons_same hk]
      exact .second _
    | false =>
      rw [find?_cons_other hk, find?_cons_other hk]
      exact .first _
  · have hMem : (stored, old) ∈ m.entries :=
      hEntries ▸ List.mem_append_right before List.mem_cons_self
    obtain ⟨kept, m', hYields, h', hOver⟩ :=
      exchange_stored h (toList_eq_entries m ▸ hMem) hKey value
    refine ⟨[], _, hYields, h', hOver.isFlat.mp, fun k => ?_⟩
    cases hk : key == k with
    | true =>
      have hStored : (stored == k) = true := BEq.trans hKey hk
      have hFind := hOver.entryAt?_same k hStored
      rw [entryAt?_eq h', Except.ok.injEq] at hFind
      rw [(find?_eq_some_iff h.distinct).mpr ⟨hMem, hStored⟩, find?_cons_same hk, hFind]
      exact .both hOver.keeps
    | false =>
      have hFind := hOver.entryAt?_other k ((BEq.congr_left hKey).trans hk)
      rw [entryAt?_eq h', entryAt?_eq h, Except.ok.injEq] at hFind
      rw [hFind, find?_cons_other hk]
      exact .first _

theorem Blended.cons {e : κ × ν} (h : Blended m [e] m') (h' : Blended m' es m'')
    (hl : Lacks e.1 es) : Blended m (e :: es) m'' := by
  refine ⟨h'.wellFormed, h.isFlat ∘ h'.isFlat, fun k => ?_⟩
  -- the keys of the entries differ, so one of the two steps leaves `k` alone
  have hFirst := h.blends k
  have hRest := h'.blends k
  cases hk : e.1 == k with
  | true =>
    rw [find?_cons_same hk] at hFirst ⊢
    rw [find?_of_lacks (hl.congr hk)] at hRest
    rw [hRest.eq_first]
    exact hFirst.mono h'.isFlat
  | false =>
    rw [find?_cons_other hk] at hFirst ⊢
    rwa [← hFirst.eq_first]

/-- Entries with different keys are put on top of what is there. -/
theorem extend_blended (h : t.map.WellFormed) (hd : Distinct es) :
    Succeeds (t.extend es) fun t' => Blended t.map es t'.map := by
  induction es generalizing t with
  | nil => exact succeeds_pure ⟨h, id, fun k => .first _⟩
  | cons e es ih =>
    obtain ⟨hl, hd⟩ := distinct_cons.mp hd
    have hExchange : Succeeds (t.exchange e.1 e.2) fun r => Blended t.map [e] r.2.map :=
      (exchange_blended h e.1 e.2).bind fun _ hr => succeeds_pure hr
    have hInsert : Succeeds (t.insert e.1 e.2) fun t' => Blended t.map [e] t'.map :=
      hExchange.bind fun _ hr => succeeds_pure hr
    rw [Transient.extend, List.foldlM_cons]
    refine hInsert.bind fun t' ht' => ?_
    obtain ⟨events, t'', hYields, ht''⟩ := ih ht'.wellFormed hd
    exact ⟨events, t'', hYields, ht'.cons ht'' hl⟩

/-! ## No new keys -/

/-- The maps have one form, and the second one has the keys of the first one in their order. -/
structure Aligned (m m' : HashTrieMap κ ν) : Prop where
  size : m'.size = m.size
  isFlat : m'.IsFlat ↔ m.IsFlat
  keys : List.Forall₂ (fun e e' => m'.Keeps e.1 e'.1) m.toList m'.toList

omit [LawfulHashCode κ] in
theorem Aligned.refl [ReflBEq κ] (m : HashTrieMap κ ν) : Aligned m m :=
  ⟨rfl, Iff.rfl, List.forall₂_same.mpr fun e _ => .refl m e.1⟩

omit [LawfulHashCode κ] in
theorem Aligned.of_stamped {stamp : Nat} (h : Aligned (m.stamped stamp) m') : Aligned m m' :=
  ⟨h.size, h.isFlat, h.keys⟩

theorem Aligned.trans (h : Aligned m m') (h' : Aligned m' m'') : Aligned m m'' := by
  refine ⟨h'.size.trans h.size, h'.isFlat.trans h.isFlat,
    forall₂_trans (fun _ _ _ hKeeps hKeeps' => ?_) h.keys h'.keys⟩
  exact (hKeeps.mono h'.isFlat.mp).trans hKeeps'

omit [LawfulHashCode κ] in
theorem Overwrites.aligned [ReflBEq κ] {e e' : κ × ν} (h : Overwrites m e e' m') :
    Aligned m m' := by
  obtain ⟨before, after, hList, hList'⟩ := h.inPlace
  have hSame : ∀ es : List (κ × ν), List.Forall₂ (fun e e' => m'.Keeps e.1 e'.1) es es :=
    fun es => List.forall₂_same.mpr fun e _ => .refl m' e.1
  refine ⟨h.size, h.isFlat, ?_⟩
  rw [hList, hList']
  exact List.rel_append (hSame before) (.cons h.keeps (hSame after))

omit [LawfulHashCode κ] in
theorem Overwrites.contains {e e' : κ × ν} (h : Overwrites m e e' m')
    (hContains : m.contains key = .ok true) : m'.contains key = .ok true := by
  rw [HashTrieMap.contains] at hContains ⊢
  cases hKey : e.1 == key with
  | true =>
    rw [h.entryAt?_same key hKey]
    rfl
  | false => rwa [h.entryAt?_other key hKey]

/-- A key that a map contains is stored in it. -/
theorem exists_stored (h : m.WellFormed) (hContains : m.contains key = .ok true) :
    ∃ e ∈ m.toList, (e.1 == key) = true := by
  rw [contains_eq h, Except.ok.injEq, valueAt, Option.isSome_map, Option.isSome_iff_exists]
    at hContains
  obtain ⟨e, hFind⟩ := hContains
  rw [toList_eq_entries]
  exact ⟨e, (find?_eq_some_iff h.distinct).mp hFind⟩

/-- Entries whose keys are stored only overwrite, and leave no records. -/
theorem extend_stored (h : t.map.WellFormed)
    (hStored : ∀ e ∈ es, t.map.contains e.1 = .ok true) :
    ∃ t', Yields (t.extend es) [] t' ∧ Aligned t.map t'.map := by
  induction es generalizing t with
  | nil => exact ⟨t, yields_pure t, .refl _⟩
  | cons e es ih =>
    obtain ⟨he, hStored⟩ := List.forall_mem_cons.mp hStored
    obtain ⟨⟨stored, old⟩, hMem, hKey⟩ := exists_stored h he
    obtain ⟨kept, t', -, hInsert, h', hOver⟩ := exchange_transient_stored h hMem hKey e.2
    obtain ⟨t'', hYields, hAligned⟩ := ih h' fun e he => hOver.contains (hStored e he)
    refine ⟨t'', ?_, hOver.aligned.trans hAligned⟩
    rw [Transient.extend, List.foldlM_cons]
    exact hInsert.pass hYields

/-! ## Merges -/

/-- A merge puts the entries of the second map on top of those of the first one. If none of its keys
is new, the only record is that of the end of the building. -/
theorem merge_blended (h : m.WellFormed) (h' : other.WellFormed) :
    ∃ events m', Yields (m.merge other) events m' ∧ Blended m other.entries m' ∧
      ((∀ key, other.contains key = .ok true → m.contains key = .ok true) →
        events = (if other.isEmpty then [] else [.mapFrozen m.size]) ∧ Aligned m m') := by
  unfold HashTrieMap.merge
  by_cases hEmpty : other.isEmpty = true
  · have hNone : other.entries = [] := by rwa [isEmpty_eq h', List.isEmpty_iff] at hEmpty
    simp only [if_pos hEmpty, hNone]
    exact ⟨[], m, yields_pure m, ⟨h, id, fun k => .first _⟩, fun _ => ⟨rfl, .refl m⟩⟩
  · have hm : m.transient.map.WellFormed := ⟨h.shape, h.size⟩
    obtain ⟨events, t, hYields, hBlended⟩ := extend_blended (t := m.transient) hm h'.distinct
    have hFreeze : Yields t.freeze [.mapFrozen t.size] t.map := (yields_record _).map _
    simp only [if_neg hEmpty, toList_eq_entries]
    refine ⟨_, t.map, hYields.bind hFreeze, hBlended.of_stamped, fun hStored => ?_⟩
    have hEach : ∀ e ∈ other.entries, m.transient.map.contains e.1 = .ok true := by
      intro e he
      refine hStored e.1 ?_
      rw [contains_eq h', valueAt_of_mem h' he]
      rfl
    obtain ⟨t', hYields', hAligned⟩ := extend_stored hm hEach
    obtain ⟨rfl, rfl⟩ := hYields.unique hYields'
    refine ⟨?_, hAligned.of_stamped⟩
    rw [Transient.size, hAligned.size]
    rfl

/-- The second map has the keys of the first one in their order, each with its value in the other
map if it has one there. -/
structure Overlays (m other m' : HashTrieMap κ ν) : Prop where
  size : m'.size = m.size
  isFlat : m'.IsFlat ↔ m.IsFlat
  inPlace : List.Forall₂ (fun e e' => m'.Keeps e.1 e'.1 ∧ other.getD e.1 e.2 = .ok e'.2)
    m.toList m'.toList

theorem Blended.overlays (hBlended : Blended m other.entries m') (hAligned : Aligned m m')
    (h : m.WellFormed) (h' : other.WellFormed) : Overlays m other m' := by
  obtain ⟨hLength, hKeys⟩ := List.forall₂_iff_zip.mp hAligned.keys
  refine ⟨hAligned.size, hAligned.isFlat, List.forall₂_iff_zip.mpr ⟨hLength, fun {e e'} hZip => ?_⟩⟩
  have hKeeps := hKeys hZip
  refine ⟨hKeeps, ?_⟩
  obtain ⟨hMem, hMem'⟩ := List.of_mem_zip hZip
  rw [toList_eq_entries] at hMem hMem'
  have hBlends := hBlended.blends e.1
  rw [(find?_eq_some_iff h.distinct).mpr ⟨hMem, BEq.rfl⟩,
    (find?_eq_some_iff hBlended.wellFormed.distinct).mpr ⟨hMem', BEq.symm hKeeps.same⟩] at hBlends
  rw [getD_eq h', valueAt]
  generalize Entries.find? e.1 other.entries = o at hBlends ⊢
  cases hBlends with
  | first => rfl
  | both => rfl

/-! ## Whatever arises -/

theorem wellFormed_of_arises [HashCode ν] {s : Mode} {held : Held κ ν s}
    (h : Arises (.hashMap held)) : held.content.WellFormed := by
  obtain ⟨⟨f, hModels⟩, -⟩ := h.sound
  exact hModels.wellFormed

end Lawful

/-! ## Keys that are equal and can be told apart -/

/-- A key with a label that equality does not look at. The number zero plays the part of nil. -/
structure Labelled where
  number : UInt8
  label : String

instance : BEq Labelled := ⟨fun a b => a.number == b.number⟩

instance : HashCode Labelled := ⟨fun a => a.number.toUInt32, fun a => a.number == 0⟩

theorem Labelled.beq_iff {a b : Labelled} : (a == b) = true ↔ a.number = b.number :=
  beq_iff_eq (a := a.number) (b := b.number)

instance : LawfulHashCode Labelled where
  rfl := Labelled.beq_iff.mpr rfl
  symm h := Labelled.beq_iff.mpr (Labelled.beq_iff.mp h).symm
  trans h h' := Labelled.beq_iff.mpr ((Labelled.beq_iff.mp h).trans (Labelled.beq_iff.mp h'))
  hashCode_eq h := congrArg UInt8.toUInt32 (Labelled.beq_iff.mp h)
  isNil_eq h := congrArg (· == (0 : UInt8)) (Labelled.beq_iff.mp h)
  nil_unique ha hb := Labelled.beq_iff.mpr ((eq_of_beq ha).trans (eq_of_beq hb).symm)

/-- What a transient collects arises, and so does the map that it is frozen to. -/
theorem arises_extend [HashCode ν] {es : List (κ × ν)} {events : List Event} {t : Transient κ ν}
    (h : Yields (Transient.empty.extend es) events t) :
    Arises (.hashMap (s := .building) t) ∧ Arises (.hashMap (s := .frozen) t.map) := by
  have hEmpty : Arises (.hashMap (s := .frozen) .empty : Version κ ν) := Makes.emptyMap.arises .refl
  obtain ⟨store, hReached, hx⟩ := hEmpty
  have hThaw : Arises (.hashMap (s := .building) .empty : Version κ ν) :=
    (Makes.mapCall .thaw hx (yields_pure _)).arises hReached
  obtain ⟨store', hReached', hx'⟩ := hThaw
  have hExtend : Arises (.hashMap (s := .building) t : Version κ ν) :=
    (Makes.mapCall (.extend es) hx' (h.map _)).arises hReached'
  have hHeld := hExtend
  obtain ⟨store'', hReached'', hx''⟩ := hHeld
  have hFreeze : Yields t.freeze [.mapFrozen t.size] t.map := (yields_record _).map _
  exact ⟨hExtend, (Makes.mapCall .freeze hx'' (hFreeze.map _)).arises hReached''⟩

/-- Nine entries, one of them with a nil key. -/
def nineLabelled : List (Labelled × UInt8) := (List.range 9).map fun n => (⟨n.toUInt8, "a"⟩, 0)

/-- The trie of nine entries. -/
def labelledTrie : HashTrieMap Labelled UInt8 :=
  ⟨9, .trie (.bitmap 0 0x1FE#32 (nineLabelled.tail.map .leaf)) (some (⟨0, "a"⟩, 0)), none, 0⟩

theorem extend_nineLabelled :
    Yields (Transient.empty.extend nineLabelled) [.mapPromoted 9] ⟨labelledTrie⟩ := by
  intro log
  cbv

/-- A flat map with a key that is in the trie under another label. -/
def labelledThree : HashTrieMap Labelled UInt8 := ⟨1, .flat [(⟨3, "b"⟩, 5)], none, 0⟩

theorem extend_labelledThree :
    Yields (Transient.empty.extend [(⟨3, "b"⟩, 5)]) [] ⟨labelledThree⟩ := by
  intro log
  cbv

theorem contains_of_labelledThree {key : Labelled} (h : labelledThree.contains key = .ok true) :
    labelledTrie.contains key = .ok true := by
  have hWell : labelledThree.WellFormed := ⟨⟨by decide, List.pairwise_singleton _ _⟩, rfl⟩
  obtain ⟨e, hMem, hKey⟩ := exists_stored hWell h
  rw [toList_eq_entries] at hMem
  obtain rfl := List.mem_singleton.mp hMem
  obtain ⟨number, label⟩ := key
  obtain rfl : 3 = number := Labelled.beq_iff.mp hKey
  cbv

/-- A flat map with the nil key alone. -/
def labelledNil : HashTrieMap Labelled UInt8 := ⟨1, .flat [(⟨0, "a"⟩, 0)], none, 0⟩

theorem extend_labelledNil :
    Yields (Transient.empty.extend [(⟨0, "a"⟩, 0)]) [] ⟨labelledNil⟩ := by
  intro log
  cbv

/-- A key that brings its own hash, so that equal keys may have different hashes. -/
structure SelfHashed where
  number : UInt8
  hash : UInt32

instance : BEq SelfHashed := ⟨fun a b => a.number == b.number⟩

instance : HashCode SelfHashed := ⟨SelfHashed.hash, fun _ => false⟩

def nineSelfHashed : List (SelfHashed × UInt8) :=
  (List.range 9).map fun n => (⟨n.toUInt8, n.toUInt32⟩, 0)

def selfHashedTrie : HashTrieMap SelfHashed UInt8 :=
  ⟨9, .trie (.bitmap 0 0x1FF#32 (nineSelfHashed.map .leaf)) none, none, 0⟩

theorem extend_nineSelfHashed :
    Yields (Transient.empty.extend nineSelfHashed) [.mapPromoted 9] ⟨selfHashedTrie⟩ := by
  intro log
  cbv

end PersistentCollections.HashTrieMap
