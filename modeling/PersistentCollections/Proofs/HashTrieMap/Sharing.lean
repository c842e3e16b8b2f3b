import PersistentCollections.Proofs.HashTrieMap.History
import PersistentCollections.Proofs.HashTrieMap.Iterator
import PersistentCollections.Proofs.HashTrieMap.Records

/-!
# Sharing of nodes cannot be observed

Two runs of the same changes may differ in the nodes that they own: one keeps every version alive,
the other works in place. Their tries can have different shapes then. The `Outline` of a map is what
the two have in common: the entries in order, and the paths that lead to array nodes. It has
operations of its own, which know no nodes and no owners, and every change of a map follows them
(`Change.run_follows`), with the same answer and the same records. So does every run
(`runIn_follows`), and what can be read of a map is a function of its outline.
-/

namespace PersistentCollections.HashTrieMap

open Entries

variable {κ ν : Type}

/-! ## Changes -/

/-- A change of a map. -/
inductive Change (κ ν : Type) where
  | put (key : κ) (value : ν)
  | drop (key : κ)

/-- What a change answers: the value that was replaced, or the entry that was removed. -/
inductive Answer (κ ν : Type) where
  | replaced (old : Option ν)
  | removed (entry : Option (κ × ν))

/-- How a run goes about a change, with the stamp for what it writes: the map before the change
stays alive, or the change is made in place, where `sole` tells the nodes without another owner. -/
inductive Manner where
  | persistent (stamp : Nat)
  | inPlace (stamp : Nat) (sole : Sharing)

def Manner.stamp : Manner → Nat
  | .persistent stamp | .inPlace stamp _ => stamp

section Run

variable [BEq κ] [HashCode κ]

/-- Take out the entry of a key, if it is there, and tell it. -/
def Manner.remove (m : HashTrieMap κ ν) (key : κ) :
    Manner → Logged (Option (κ × ν) × HashTrieMap κ ν)
  | .persistent stamp => do return (← m.entryAt? key, ← (m.stamped stamp).erase key)
  | .inPlace stamp sole => (m.stamped stamp).take sole key

/-- Make a change in a manner. -/
def Change.run (manner : Manner) (m : HashTrieMap κ ν) :
    Change κ ν → Logged (Answer κ ν × HashTrieMap κ ν)
  | .put key value => do
    let (old, m) ← (m.stamped manner.stamp).exchange key value
    return (.replaced old, m)
  | .drop key => do
    let (entry, m) ← manner.remove m key
    return (.removed entry, m)

/-- Make changes in order, each in a manner of its own, and collect the answers. -/
def runIn (manners : Nat → Manner) (m : HashTrieMap κ ν) :
    List (Change κ ν) → Logged (List (Answer κ ν) × HashTrieMap κ ν)
  | [] => return ([], m)
  | change :: changes => do
    let (answer, m) ← change.run (manners 0) m
    let (answers, m) ← runIn (fun i => manners (i + 1)) m changes
    return (answer :: answers, m)

end Run

/-! ## Outlines -/

/-- What is left of a trie without its nodes: the entries in order, and the paths that lead to array
nodes. -/
structure TrieOutline (κ ν : Type) where
  nilEntry : Option (κ × ν)
  entries : List (κ × ν)
  arrays : Arrays

inductive Outline (κ ν : Type) where
  | flat (entries : List (κ × ν))
  | trie (outline : TrieOutline κ ν)

def trieOutline (root : Node κ ν) (nilEntry : Option (κ × ν)) : TrieOutline κ ν :=
  ⟨nilEntry, root.entries, root.arrayAt⟩

def outline (m : HashTrieMap κ ν) : Outline κ ν :=
  match m.shape with
  | .flat entries => .flat entries
  | .trie root nilEntry => .trie (trieOutline root nilEntry)

/-- What an operation answers and records, and the outline after it. -/
structure Outcome (α σ : Type) where
  answer : α
  events : List Event
  outline : σ

section Reference

variable [BEq κ] [HashCode κ]

def TrieOutline.put (t : TrieOutline κ ν) (key : κ) (value : ν) :
    Outcome (Option ν) (TrieOutline κ ν) :=
  if isNil key then ⟨t.nilEntry.map (·.2), [], { t with nilEntry := some (key, value) }⟩
  else
    let (old, entries) := insertOrdered key value t.entries
    let target := promotion digits t.arrays t.entries (hashCode key)
    ⟨old, records digits target, { t with entries, arrays := t.arrays.flip target }⟩

def TrieOutline.drop (t : TrieOutline κ ν) (key : κ) :
    Outcome (Option (κ × ν)) (TrieOutline κ ν) :=
  if isNil key then ⟨t.nilEntry, [], { t with nilEntry := none }⟩
  else match takeOrdered? key t.entries with
    | none => ⟨none, [], t⟩
    | some (entry, entries) =>
      let target := packing digits t.arrays t.entries (hashCode key)
      ⟨some entry, records digits target, { t with entries, arrays := t.arrays.flip target }⟩

/-- Put one more entry into a trie, and append its records. -/
def Outcome.add (r : Outcome Unit (TrieOutline κ ν)) (e : κ × ν) :
    Outcome Unit (TrieOutline κ ν) :=
  let s := r.outline.put e.1 e.2
  ⟨(), r.events ++ s.events, s.outline⟩

/-- The trie that holds the given entries. -/
def TrieOutline.promote (entries : List (κ × ν)) : Outcome Unit (TrieOutline κ ν) :=
  entries.foldl Outcome.add ⟨(), [], ⟨none, [], .none⟩⟩

def Outline.put (o : Outline κ ν) (key : κ) (value : ν) : Outcome (Option ν) (Outline κ ν) :=
  match o with
  | .flat entries =>
    match setValue? key value entries with
    | some (old, entries) => ⟨some old, [], .flat entries⟩
    | none =>
      if entries.length < mostFlat then ⟨none, [], .flat (entries ++ [(key, value)])⟩
      else
        let r := TrieOutline.promote (entries ++ [(key, value)])
        ⟨none, r.events ++ [.mapPromoted (entries.length + 1)], .trie r.outline⟩
  | .trie t =>
    let r := t.put key value
    ⟨r.answer, r.events, .trie r.outline⟩

def Outline.drop (o : Outline κ ν) (key : κ) : Outcome (Option (κ × ν)) (Outline κ ν) :=
  match o with
  | .flat entries =>
    match take? key entries with
    | none => ⟨none, [], .flat entries⟩
    | some (entry, entries) => ⟨some entry, [], .flat entries⟩
  | .trie t =>
    let r := t.drop key
    ⟨r.answer, r.events, .trie r.outline⟩

def Change.reference (o : Outline κ ν) : Change κ ν → Outcome (Answer κ ν) (Outline κ ν)
  | .put key value =>
    let r := o.put key value
    ⟨.replaced r.answer, r.events, r.outline⟩
  | .drop key =>
    let r := o.drop key
    ⟨.removed r.answer, r.events, r.outline⟩

/-- The answers and the records of changes in order. -/
def reference (o : Outline κ ν) :
    List (Change κ ν) → Outcome (List (Answer κ ν)) (Outline κ ν)
  | [] => ⟨[], [], o⟩
  | change :: changes =>
    let r := change.reference o
    let rs := reference r.outline changes
    ⟨r.answer :: rs.answer, r.events ++ rs.events, rs.outline⟩

end Reference

/-! ## Operations follow the outline -/

section Lawful

variable [BEq κ] [HashCode κ] {α β : Type} {m m' : HashTrieMap κ ν} {key : κ}
  {value : ν} {root : Node κ ν} {nilEntry : Option (κ × ν)} {es : List (κ × ν)}

/-- An operation answers and records what an outcome tells, and gives a well-formed map with the
outline of the outcome. -/
def Follows (x : Logged (α × HashTrieMap κ ν)) (r : Outcome α (Outline κ ν)) : Prop :=
  ∃ m, Yields x r.events (r.answer, m) ∧ m.WellFormed ∧ m.outline = r.outline

theorem follows_of_yields {x : Logged (α × HashTrieMap κ ν)} {r : Outcome α (Outline κ ν)}
    {events : List Event} {a : α} (hy : Yields x events (a, m))
    (hw : Succeeds x fun p => p.2.WellFormed) (hr : r = ⟨a, events, m.outline⟩) : Follows x r := by
  obtain ⟨events', ⟨a', m'⟩, hy', hw⟩ := hw
  obtain ⟨-, hEq⟩ := hy.unique hy'
  cases hEq
  subst hr
  exact ⟨m, hy, hw, rfl⟩

theorem Follows.map {x : Logged (α × HashTrieMap κ ν)} {r : Outcome α (Outline κ ν)}
    (h : Follows x r) (f : α → β) :
    Follows (do let (a, m) ← x; return (f a, m)) ⟨f r.answer, r.events, r.outline⟩ := by
  obtain ⟨m, hy, hw, ho⟩ := h
  exact ⟨m, hy.map fun p => (f p.1, p.2), hw, ho⟩

variable [LawfulHashCode κ]

/-- An insertion into the root of a trie. -/
theorem TrieWellFormed.insert_follows {r : Node.Inserted κ ν} (h : TrieWellFormed root nilEntry)
    (hk : isNil key = false) (now : Nat)
    (hr : root.insert now digits (key, value) (hashCode key) = .ok r) :
    (trieOutline root nilEntry).put key value =
      ⟨r.replaced, r.events, trieOutline r.node nilEntry⟩ := by
  obtain ⟨r', hr', ha⟩ := Node.insert_accepts now digits root key value h.wellFormed
    (Or.inl h.shaped) fun e _ => meets_digits _ _
  cases hr.symm.trans hr'
  have hEntries := ha.put.eq_insertOrdered ha.wellFormed.ordered
  have hReshapes := Node.insert_promotes now digits root key value r h.wellFormed
    (Or.inl h.shaped) hr
  simp only [TrieOutline.put, trieOutline, hk, Bool.false_eq_true, if_false, hEntries,
    hReshapes.events_eq, hReshapes.arrays_eq]

theorem add_follows {p p' : Promotion κ ν} {e : κ × ν} (now : Nat)
    (h : TrieWellFormed p.root p.nilEntry) (hp : p.add now e = .ok p') :
    Outcome.add ⟨(), p.events, trieOutline p.root p.nilEntry⟩ e =
      ⟨(), p'.events, trieOutline p'.root p'.nilEntry⟩ := by
  rw [Promotion.add] at hp
  by_cases hk : isNil e.1 = true
  · rw [if_pos hk] at hp
    cases hp
    simp [Outcome.add, TrieOutline.put, hk, trieOutline]
  · rw [if_neg hk] at hp
    obtain ⟨r, hr, hp⟩ := Result.bind_eq_ok.mp hp
    cases hp
    simp only [Outcome.add, h.insert_follows (Bool.eq_false_iff.mpr hk) now hr]

theorem foldlM_add_follows {p p' : Promotion κ ν} (now : Nat) (es : List (κ × ν))
    (h : TrieWellFormed p.root p.nilEntry) (hd : Distinct (trieEntries p.root p.nilEntry ++ es))
    (hp : es.foldlM (Promotion.add now) p = .ok p') :
    es.foldl Outcome.add ⟨(), p.events, trieOutline p.root p.nilEntry⟩ =
      ⟨(), p'.events, trieOutline p'.root p'.nilEntry⟩ := by
  induction es generalizing p with
  | nil =>
    cases hp
    rfl
  | cons e es ih =>
    have hMove : (trieEntries p.root p.nilEntry ++ e :: es).Perm
        (e :: trieEntries p.root p.nilEntry ++ es) := List.perm_middle
    have hl := (distinct_cons.mp (hd.perm hMove)).1
    obtain ⟨q, hAdd, hw, hPerm⟩ := add_spec now h (lacks_append.mp hl).1
    rw [List.foldlM_cons, hAdd, Result.bind_ok] at hp
    rw [List.foldl_cons, add_follows now h hAdd]
    exact ih hw (hd.perm (hMove.trans (hPerm.symm.append_right es))) hp

/-- Turning a list of entries with distinct keys into a trie. -/
theorem promote_follows {p : Promotion κ ν} (now : Nat) (hd : Distinct es)
    (hp : promote now es = .ok p) :
    TrieOutline.promote es = ⟨(), p.events, trieOutline p.root p.nilEntry⟩ := by
  have hEntries : (Node.empty now : Node κ ν).entries = [] := by
    rw [Node.empty, Node.entries_bitmap]
    rfl
  have hWell := trieWellFormed_empty (κ := κ) (ν := ν) now
  have hArrays : (Node.empty now : Node κ ν).arrayAt = .none := by
    apply Node.arrayAt_of_length_le_one hWell.wellFormed
    rw [hEntries]
    exact Nat.zero_le 1
  have hOutline : trieOutline (Node.empty now : Node κ ν) none = ⟨none, [], .none⟩ := by
    rw [trieOutline, hEntries, hArrays]
  rw [TrieOutline.promote, ← hOutline]
  refine foldlM_add_follows (p := ⟨.empty now, none, []⟩) now es hWell ?_ hp
  rw [trieEntries, hEntries]
  exact hd

theorem exchange_follows (h : m.WellFormed) (key : κ) (value : ν) :
    Follows (m.exchange key value) (m.outline.put key value) := by
  have hWell : Succeeds (m.exchange key value) fun r => r.2.WellFormed := by
    obtain ⟨events, m', hy, hc⟩ := exchange_yields h key value
    exact ⟨events, _, hy, hc.wellFormed⟩
  obtain ⟨size, shape, cache, stamp⟩ := m
  have hsize := h.size
  cases shape with
  | flat es =>
    simp only [exchange, entries_flat] at hsize hWell ⊢
    rw [outline, Outline.put]
    rcases lacks_or_split key es with hl | ⟨before, e, after, rfl, hl, he⟩
    · simp only [setValue?_of_lacks hl] at hWell ⊢
      by_cases hlt : es.length < mostFlat
      · have hy : Yields (grow ⟨size, .flat es, cache, stamp⟩ es (key, value)) []
            ⟨size + 1, .flat (es ++ [(key, value)]), none, stamp⟩ := by
          rw [grow, if_pos hlt]
          exact yields_pure _
        rw [if_pos hlt]
        exact follows_of_yields (hy.map _) hWell rfl
      · have hd : Distinct (es ++ [(key, value)]) :=
          (distinct_cons.mpr ⟨hl, h.distinct⟩).perm (List.perm_append_singleton _ es).symm
        obtain ⟨p, hp, -, -⟩ := promote_spec stamp hd
        have hy : Yields (grow ⟨size, .flat es, cache, stamp⟩ es (key, value))
            (p.events ++ [.mapPromoted (size + 1)])
            ⟨size + 1, .trie p.root p.nilEntry, none, stamp⟩ := by
          rw [grow, if_neg hlt]
          exact (yields_lift hp).pass ((yields_recordAll _).bind ((yields_record _).map _))
        rw [if_neg hlt, promote_follows stamp hd hp]
        refine follows_of_yields (hy.map _) hWell ?_
        rw [hsize]
        rfl
    · simp only [setValue?_split hl he] at hWell ⊢
      exact follows_of_yields (yields_pure _) hWell rfl
  | trie root nilEntry =>
    have ht : TrieWellFormed root nilEntry := h.shape
    simp only [exchange] at hWell ⊢
    rw [outline, Outline.put]
    by_cases hk : isNil key = true
    · simp only [hk, if_true] at hWell ⊢
      refine follows_of_yields (yields_pure _) hWell ?_
      simp [TrieOutline.put, hk, trieOutline, outline]
    · obtain ⟨r, hr, -, -⟩ := ht.insert (Bool.eq_false_iff.mpr hk) stamp value
      simp only [hk, Bool.false_eq_true, if_false] at hWell ⊢
      refine follows_of_yields ((yields_lift hr).pass ((yields_recordAll _).map _)) hWell ?_
      rw [ht.insert_follows (Bool.eq_false_iff.mpr hk) stamp hr]
      rfl

/-- A removal from the root of a trie. -/
theorem TrieWellFormed.erase_follows {r : Node.Erased κ ν} {sole : Sharing}
    (h : TrieWellFormed root nilEntry) (hk : isNil key = false) (now : Nat)
    (hr : root.erase now sole key (hashCode key) digits = .ok (some r)) :
    (trieOutline root nilEntry).drop key =
      ⟨some r.entry, r.events, trieOutline r.node nilEntry⟩ := by
  have hRemoves := Node.removes_of_erase h.wellFormed hr
  have hEntries := hRemoves.cut.eq_takeOrdered h.wellFormed.ordered
  have hReshapes := Node.erase_packs now sole key digits root r h.wellFormed hr
  simp only [TrieOutline.drop, trieOutline, hk, Bool.false_eq_true, if_false, hEntries,
    hReshapes.events_eq, hReshapes.arrays_eq]

theorem take_follows (h : m.WellFormed) (sole : Sharing) (key : κ) :
    Follows (m.take sole key) (m.outline.drop key) := by
  have hWell : Succeeds (m.take sole key) fun r => r.2.WellFormed := by
    obtain ⟨events, m', hy, hc⟩ := take_yields h sole key
    exact ⟨events, _, hy, hc.wellFormed⟩
  obtain ⟨size, shape, cache, stamp⟩ := m
  have hsize := h.size
  cases shape with
  | flat es =>
    simp only [take, entries_flat] at hsize hWell ⊢
    rw [outline, Outline.drop]
    rcases lacks_or_split key es with hl | ⟨before, e, after, rfl, hl, he⟩
    · simp only [take?_of_lacks hl] at hWell ⊢
      exact follows_of_yields (yields_pure _) hWell rfl
    · have hn : size = (before ++ after).length + 1 := by
        rw [hsize]
        exact List.perm_middle.length_eq
      simp only [take?_split hl he] at hWell ⊢
      exact follows_of_yields ((yields_lift (sizeWithout_eq hn)).pass (yields_pure _)) hWell rfl
  | trie root nilEntry =>
    have ht : TrieWellFormed root nilEntry := h.shape
    simp only [take, entries_trie] at hsize hWell ⊢
    rw [outline, Outline.drop]
    by_cases hk : isNil key = true
    · simp only [hk, if_true] at hWell ⊢
      cases nilEntry with
      | none =>
        refine follows_of_yields (yields_pure _) hWell ?_
        simp [TrieOutline.drop, hk, trieOutline, outline]
      | some e =>
        have hn : size = root.entries.length + 1 := hsize
        refine follows_of_yields ((yields_lift (sizeWithout_eq hn)).pass (yields_pure _)) hWell ?_
        simp [TrieOutline.drop, hk, trieOutline, outline]
    · have hk : isNil key = false := Bool.eq_false_iff.mpr hk
      simp only [hk, Bool.false_eq_true, if_false] at hWell ⊢
      rcases ht.erase hk stamp sole with ⟨hErase, hl, -, -⟩ | ⟨r, hErase, -, -, hp⟩
      · refine follows_of_yields ((yields_lift hErase).pass (yields_pure _)) hWell ?_
        have hRenews := Node.touch_renews stamp (hashCode key) digits root ht.wellFormed
        have hArrays := Node.arrayAt_touch stamp (hashCode key) digits root ht.wellFormed
        simp only [TrieOutline.drop, trieOutline, outline, hk, Bool.false_eq_true, if_false,
          takeOrdered?_of_lacks (lacks_append.mp hl).2, hRenews.entries, hArrays]
      · have hn : size = (trieEntries r.node nilEntry).length + 1 := hsize.trans hp.length_eq
        refine follows_of_yields ((yields_lift hErase).pass ((yields_recordAll _).bind
          ((yields_lift (sizeWithout_eq hn)).pass (yields_pure _)))) hWell ?_
        rw [ht.erase_follows hk stamp hErase, List.append_nil]
        rfl

omit [LawfulHashCode κ] in
/-- A removal that takes nothing changes nothing. -/
theorem Outline.drop_eq_of_none {o : Outline κ ν} (h : (o.drop key).answer = none) :
    o.drop key = ⟨none, [], o⟩ := by
  cases o with
  | flat es =>
    rw [drop] at h ⊢
    cases hTake : take? key es with
    | none => rfl
    | some r =>
      rw [hTake] at h
      cases h
  | trie t =>
    rw [drop, TrieOutline.drop] at h ⊢
    by_cases hk : isNil key = true
    · rw [if_pos hk] at h ⊢
      have hNone : t.nilEntry = none := h
      rw [hNone, ← hNone]
    · rw [if_neg hk] at h ⊢
      cases hTake : takeOrdered? key t.entries with
      | none => rfl
      | some r =>
        rw [hTake] at h
        cases h

/-- A removal from a map that stays alive, with the entry that was there. -/
theorem erase_follows (h : m.WellFormed) (key : κ) :
    Follows (do return (← m.entryAt? key, ← m.erase key)) (m.outline.drop key) := by
  obtain ⟨m', hy, hw, ho⟩ := take_follows h .shared key
  obtain ⟨events, m'', hy', -⟩ := take_yields h .shared key
  have hAnswer : (m.outline.drop key).answer = Entries.find? key m.entries := by
    have hEq := (hy.unique hy').2
    exact congrArg Prod.fst hEq
  have hContains : m.contains key = .ok (Entries.find? key m.entries).isSome := by
    rw [contains_eq h, valueAt, Option.isSome_map]
  cases hFind : Entries.find? key m.entries with
  | none =>
    have hErase : Yields (HashTrieMap.erase m key) [] m := by
      rw [hFind] at hContains
      exact (yields_lift hContains).pass (yields_pure m)
    rw [Outline.drop_eq_of_none (hAnswer.trans hFind)]
    refine ⟨m, (yields_lift ?_).pass (hErase.map _), h, rfl⟩
    rw [entryAt?_eq h, hFind]
  | some e =>
    have hErase : Yields (HashTrieMap.erase m key) (m.outline.drop key).events m' := by
      rw [hFind] at hContains
      exact (yields_lift hContains).pass (hy.map _)
    refine ⟨m', (yields_lift ?_).pass (hErase.map _), hw, ho⟩
    rw [entryAt?_eq h, hAnswer]

/-! ## Runs -/

theorem Change.run_follows (h : m.WellFormed) (manner : Manner) (change : Change κ ν) :
    Follows (change.run manner m) (change.reference m.outline) := by
  have hStamped : ∀ stamp, (m.stamped stamp).WellFormed := fun _ => ⟨h.shape, h.size⟩
  cases change with
  | put key value => exact (exchange_follows (hStamped manner.stamp) key value).map Answer.replaced
  | drop key =>
    have hRemove : Follows (manner.remove m key) (m.outline.drop key) := by
      cases manner with
      | persistent stamp => exact erase_follows (hStamped stamp) key
      | inPlace stamp sole => exact take_follows (hStamped stamp) sole key
    exact hRemove.map Answer.removed

theorem runIn_follows (h : m.WellFormed) (manners : Nat → Manner) (changes : List (Change κ ν)) :
    Follows (runIn manners m changes) (reference m.outline changes) := by
  induction changes generalizing m manners with
  | nil => exact ⟨m, yields_pure _, h, rfl⟩
  | cons change changes ih =>
    obtain ⟨m', hy, hw, ho⟩ := change.run_follows h (manners 0)
    obtain ⟨m'', hys, hws, hos⟩ := ih hw fun i => manners (i + 1)
    rw [ho] at hys hos
    exact ⟨m'', hy.bind (hys.map fun r => (_ :: r.1, r.2)), hws, hos⟩

omit [BEq κ] [HashCode κ] [LawfulHashCode κ] in
theorem entries_eq_of_outline (h : m.outline = m'.outline) : m.entries = m'.entries := by
  obtain ⟨size, shape, cache, stamp⟩ := m
  obtain ⟨size', shape', cache', stamp'⟩ := m'
  cases shape with
  | flat es =>
    cases shape' with
    | flat es' => exact Outline.flat.inj h
    | trie => cases h
  | trie root nilEntry =>
    cases shape' with
    | flat => cases h
    | trie root' nilEntry' =>
      obtain ⟨hNil, hEntries, -⟩ := TrieOutline.mk.inj (Outline.trie.inj h)
      rw [entries_trie, entries_trie, trieEntries, trieEntries, hNil, hEntries]

/-- Two runs of the same changes from the empty map, each in its own manners, leave the same records
and give the same answers. The maps they end with have the same size, the same list of entries and
the same value for every key. -/
theorem runIn_agrees (changes : List (Change κ ν)) (manners manners' : Nat → Manner) :
    ∃ events answers m m', Yields (runIn manners empty changes) events (answers, m) ∧
      Yields (runIn manners' empty changes) events (answers, m') ∧ m.size = m'.size ∧
      m.toList = m'.toList ∧ ∀ key, ∃ value, m.get? key = .ok value ∧ m'.get? key = .ok value := by
  obtain ⟨m, hy, hw, ho⟩ := runIn_follows wellFormed_empty manners changes
  obtain ⟨m', hy', hw', ho'⟩ := runIn_follows wellFormed_empty manners' changes
  have hEntries := entries_eq_of_outline (ho.trans ho'.symm)
  refine ⟨_, _, m, m', hy, hy', ?_, ?_, fun key => ⟨m.valueAt key, get?_eq hw key, ?_⟩⟩
  · rw [hw.size, hw'.size, hEntries]
  · rw [toList_eq_entries, toList_eq_entries, hEntries]
  · rw [get?_eq hw', valueAt, valueAt, hEntries]

end Lawful

/-- A map that gets an array node, loses it again, and then gets more keys. -/
def growPackAndGrow : List (Change (Option UInt8) Nat) :=
  (List.range 40).map (fun i => .put (some i.toUInt8) i) ++
    (List.range 36).map (fun i => .drop (some i.toUInt8)) ++
    [.put (some 7) 0, .put none 1, .drop none]

/-- The same changes to maps that stay alive, and in place by an owner of all nodes. -/
theorem runIn_agrees_growPackAndGrow : LawfulHashCode (Option UInt8) ∧
    ∃ events answers m m',
      Yields (runIn (fun _ => .persistent 0) empty growPackAndGrow) events (answers, m) ∧
      Yields (runIn (fun i => .inPlace i fun _ _ _ => true) empty growPackAndGrow) events
        (answers, m') ∧ m.size = m'.size ∧ m.toList = m'.toList ∧
      ∀ key, ∃ value, m.get? key = .ok value ∧ m'.get? key = .ok value :=
  ⟨inferInstance, runIn_agrees growPackAndGrow _ _⟩

end PersistentCollections.HashTrieMap
