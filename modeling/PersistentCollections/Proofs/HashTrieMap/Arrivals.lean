import Mathlib.Data.List.Infix
import PersistentCollections.Proofs.HashTrieMap.Sharing
import PersistentCollections.Proofs.Versions

/-!
# The keys of a history

What a history does to the keys of a map are its edits: keys are added and removed. `arrivals` are
the keys that are left, in the order in which each of them was last added while it was absent, and a
history is `Crowded` if there ever were more than eight of them.

`Built m edits` says that a map comes from the empty one by these edits, whatever calls,
conversions, merges and selections they were made by. Every map that can be reached is built in some
way (`Arises.edited`). The invariant is `Tracks`: the map has the keys that are left, it is a trie
if and only if the history is crowded, and as long as it is flat its entries stand in the order of
arrival (`Built.tracks`).
-/

namespace PersistentCollections.HashTrieMap

open Entries

variable {κ ν : Type}

/-! ## Edits -/

/-- A change of the keys of a map. -/
inductive Edit (κ : Type) where
  | add (key : κ)
  | remove (key : κ)

/-- What a call does to the keys. -/
def Call.edits {s t : Mode} : Call κ ν s t → List (Edit κ)
  | .insert key _ | .update key _ | .exchange key _ | .put key _ => [.add key]
  | .erase key | .take _ key | .drop key => [.remove key]
  | .extend entries => entries.map fun e => .add e.1
  | .transient | .thaw | .freeze => []

def Calls.edits : {s t : Mode} → Calls κ ν s t → List (Edit κ)
  | _, _, .nil => []
  | _, _, .cons call calls => call.edits ++ calls.edits

section

variable [BEq κ]

/-- A key that is added while it is absent comes last; one that is there stays in its place. -/
def Edit.apply (keys : List κ) : Edit κ → List κ
  | .add key => if keys.any (· == key) then keys else keys ++ [key]
  | .remove key => keys.filter fun k => !(k == key)

/-- The keys that are left, in the order in which each was last added while absent. -/
def arrivals (edits : List (Edit κ)) : List κ := edits.foldl Edit.apply []

/-- At some time there were more than eight keys. -/
def Crowded (edits : List (Edit κ)) : Prop :=
  ∃ before ∈ edits.inits, 8 < (arrivals before).length

instance (edits : List (Edit κ)) : Decidable (Crowded edits) :=
  inferInstanceAs (Decidable (∃ before ∈ edits.inits, 8 < (arrivals before).length))

variable {edits more : List (Edit κ)} {edit : Edit κ} {keys : List κ} {key : κ}

theorem Edit.apply_add_present (h : keys.any (· == key) = true) :
    Edit.apply keys (.add key) = keys := if_pos h

theorem Edit.apply_add_absent (h : ¬ keys.any (· == key) = true) :
    Edit.apply keys (.add key) = keys ++ [key] := if_neg h

theorem arrivals_concat (edits : List (Edit κ)) (edit : Edit κ) :
    arrivals (edits ++ [edit]) = edit.apply (arrivals edits) :=
  List.foldl_concat Edit.apply [] edit edits

theorem not_crowded_nil : ¬ Crowded ([] : List (Edit κ)) := by
  rintro ⟨before, hBefore, hMany⟩
  rw [List.mem_inits, List.prefix_nil] at hBefore
  subst hBefore
  exact Nat.not_lt_zero 8 hMany

theorem Crowded.append (h : Crowded edits) (more : List (Edit κ)) : Crowded (edits ++ more) := by
  obtain ⟨before, hBefore, hMany⟩ := h
  rw [List.mem_inits] at hBefore
  exact ⟨before, (List.mem_inits _ _).mpr (hBefore.trans (List.prefix_append edits more)), hMany⟩

theorem crowded_concat :
    Crowded (edits ++ [edit]) ↔ Crowded edits ∨ 8 < (edit.apply (arrivals edits)).length := by
  simp only [Crowded, List.mem_inits, List.prefix_concat_iff, or_and_right, exists_or,
    exists_eq_left, arrivals_concat]
  exact or_comm

theorem not_crowded_concat (h : ¬ Crowded edits)
    (hFew : (edit.apply (arrivals edits)).length ≤ 8) : ¬ Crowded (edits ++ [edit]) := by
  rw [crowded_concat]
  rintro (hCrowded | hMany)
  · exact h hCrowded
  · omega

theorem length_arrivals_le (h : ¬ Crowded edits) : (arrivals edits).length ≤ 8 := by
  rw [← Nat.not_lt]
  intro hMany
  exact h ⟨edits, (List.mem_inits _ _).mpr (List.prefix_refl edits), hMany⟩

variable [EquivBEq κ]

theorem any_apply_add (keys : List κ) (key k : κ) :
    (Edit.apply keys (.add key)).any (· == k) = (keys.any (· == k) || key == k) := by
  by_cases hKey : (keys.any (· == key)) = true
  · rw [Edit.apply_add_present hKey]
    by_cases hk : (key == k) = true
    · have hSame : (fun a : κ => a == k) = fun a => a == key :=
        funext fun a => (BEq.congr_right hk).symm
      rw [hSame, hKey, Bool.true_or]
    · rw [Bool.not_eq_true] at hk
      rw [hk, Bool.or_false]
  · rw [Edit.apply_add_absent hKey, List.any_append, List.any_cons, List.any_nil, Bool.or_false]

theorem any_apply_remove (keys : List κ) (key k : κ) :
    (Edit.apply keys (.remove key)).any (· == k) = (keys.any (· == k) && !(key == k)) := by
  unfold Edit.apply
  rw [List.any_filter]
  by_cases hk : (key == k) = true
  · have hNone : (fun a : κ => !(a == key) && a == k) = fun _ => false := by
      funext a
      rw [BEq.congr_right (a := a) hk]
      cases a == k <;> rfl
    rw [hNone, hk, Bool.not_true, Bool.and_false, List.any_eq_false]
    exact fun _ _ => Bool.false_ne_true
  · rw [Bool.not_eq_true] at hk
    have hSame : (fun a : κ => !(a == key) && a == k) = fun a => a == k := by
      funext a
      cases ha : a == k with
      | false => exact Bool.and_false _
      | true =>
        have hOther : (a == key) = false := by
          rw [BEq.congr_left (c := key) ha, BEq.comm, hk]
        rw [hOther]
        rfl
    rw [hSame, hk, Bool.not_false, Bool.and_true]

end

/-! ## The invariant -/

section

variable [BEq κ]

/-- A flat map has the keys in the order of arrival and the history was never crowded; for a trie it
was. -/
def Outline.Fits (edits : List (Edit κ)) : Outline κ ν → Prop
  | .flat es => es.map (·.1) = arrivals edits ∧ ¬ Crowded edits
  | .trie _ => Crowded edits

/-- A map follows a history. -/
structure Tracks [HashCode κ] (m : HashTrieMap κ ν) (edits : List (Edit κ)) : Prop where
  wellFormed : m.WellFormed
  holds : ∀ key, (m.valueAt key).isSome = (arrivals edits).any (· == key)
  fits : m.outline.Fits edits

end

section

variable [BEq κ] {key : κ} {es : List (κ × ν)}

theorem any_keys_of_lacks (h : Lacks key es) : ¬ (es.map (·.1)).any (· == key) = true := by
  rw [List.any_map, List.any_eq_true]
  rintro ⟨e, he, hKey⟩
  rw [Function.comp_apply, h e he] at hKey
  cases hKey

theorem filter_keys_of_lacks (h : Lacks key es) :
    (es.map (·.1)).filter (fun k => !(k == key)) = es.map (·.1) := by
  rw [List.filter_eq_self]
  intro k hk
  obtain ⟨e, he, rfl⟩ := List.mem_map.mp hk
  rw [h e he]
  rfl

end

section Lawful

variable [BEq κ] [HashCode κ] [LawfulHashCode κ] {m m' other : HashTrieMap κ ν}
  {t : Transient κ ν} {o : Outline κ ν} {edits edits' : List (Edit κ)} {key : κ} {value : ν}

omit [LawfulHashCode κ] in
/-- A key that is given a value is added. -/
theorem Outline.Fits.put (h : o.Fits edits) (key : κ) (value : ν) :
    (o.put key value).outline.Fits (edits ++ [.add key]) := by
  cases o with
  | trie t => exact Crowded.append h [.add key]
  | flat es =>
    obtain ⟨hKeys, hFew⟩ := h
    have hLength : (es.map (·.1)).length ≤ 8 := hKeys ▸ length_arrivals_le hFew
    rw [List.length_map] at hLength
    rw [Outline.put]
    rcases lacks_or_split key es with hl | ⟨before, e, after, rfl, hl, he⟩
    · have hArrivals : (Edit.add key).apply (arrivals edits) = es.map (·.1) ++ [key] := by
        rw [← hKeys, Edit.apply_add_absent (any_keys_of_lacks hl)]
      rw [setValue?_of_lacks hl]
      by_cases hLt : es.length < 8
      · have hFlat : es.length < mostFlat := hLt
        simp only [if_pos hFlat]
        refine ⟨?_, not_crowded_concat hFew ?_⟩
        · rw [arrivals_concat, hArrivals, List.map_append]
          rfl
        · rw [hArrivals, List.length_append, List.length_map, List.length_singleton]
          omega
      · have hTrie : ¬ es.length < mostFlat := hLt
        simp only [if_neg hTrie]
        show Crowded (edits ++ [.add key])
        rw [crowded_concat, hArrivals, List.length_append, List.length_map, List.length_singleton]
        right
        omega
    · have hArrivals : (Edit.add key).apply (arrivals edits) = arrivals edits := by
        apply Edit.apply_add_present
        rw [← hKeys, List.any_map, List.any_eq_true]
        exact ⟨e, List.mem_append_right before List.mem_cons_self, he⟩
      rw [setValue?_split hl he]
      refine ⟨?_, not_crowded_concat hFew ?_⟩
      · rw [arrivals_concat, hArrivals, ← hKeys, List.map_append, List.map_append]
        rfl
      · rw [hArrivals]
        exact length_arrivals_le hFew

/-- A key whose entry is taken out is removed. -/
theorem Outline.Fits.drop (h : o.Fits edits) (hd : ∀ es, o = .flat es → Distinct es) (key : κ) :
    (o.drop key).outline.Fits (edits ++ [.remove key]) := by
  cases o with
  | trie t => exact Crowded.append h [.remove key]
  | flat es =>
    obtain ⟨hKeys, hFew⟩ := h
    have hArrivals : (Edit.remove key).apply (arrivals edits) =
        (es.map (·.1)).filter fun k => !(k == key) := by
      rw [← hKeys]
      rfl
    have hCrowded : ¬ Crowded (edits ++ [.remove key]) :=
      not_crowded_concat hFew
        ((List.length_filter_le _ _).trans (length_arrivals_le hFew))
    rw [Outline.drop]
    rcases lacks_or_split key es with hl | ⟨before, e, after, rfl, hl, he⟩
    · rw [take?_of_lacks hl]
      refine ⟨?_, hCrowded⟩
      rw [arrivals_concat, hArrivals, filter_keys_of_lacks hl]
    · have hAfter : Lacks key after :=
        (distinct_cons.mp (distinct_append.mp (hd _ rfl)).2.1).1.congr he
      have hOut : ¬ (!(e.1 == key)) = true := by
        rw [he]
        exact Bool.false_ne_true
      rw [take?_split hl he]
      refine ⟨?_, hCrowded⟩
      rw [arrivals_concat, hArrivals, List.map_append, List.map_append, List.map_cons,
        List.filter_append, List.filter_cons_of_neg (p := fun k => !(k == key)) hOut,
        filter_keys_of_lacks hl, filter_keys_of_lacks hAfter]

/-! ## Operations -/

omit [LawfulHashCode κ] in
theorem tracks_empty : Tracks (HashTrieMap.empty : HashTrieMap κ ν) [] :=
  ⟨wellFormed_empty, fun _ => rfl, rfl, not_crowded_nil⟩

omit [LawfulHashCode κ] in
theorem Tracks.stamped (h : Tracks m edits) (stamp : Nat) : Tracks (m.stamped stamp) edits :=
  ⟨⟨h.wellFormed.shape, h.wellFormed.size⟩, h.holds, h.fits⟩

theorem Tracks.exchange (h : Tracks m edits) (key : κ) (value : ν) :
    Succeeds (m.exchange key value) fun r => Tracks r.2 (edits ++ [.add key]) := by
  obtain ⟨m', hYields, -, hOutline⟩ := exchange_follows h.wellFormed key value
  obtain ⟨events, m'', hYields', hChanged⟩ := exchange_yields h.wellFormed key value
  obtain ⟨-, hEq⟩ := hYields.unique hYields'
  obtain rfl : m' = m'' := congrArg Prod.snd hEq
  refine ⟨_, _, hYields, hChanged.wellFormed, ?_, ?_⟩
  · intro k
    rw [arrivals_concat, any_apply_add, hChanged.valueAt, ← h.holds]
    cases key == k with
    | true => exact (Bool.or_true _).symm
    | false => exact (Bool.or_false _).symm
  · rw [hOutline]
    exact h.fits.put key value

omit [LawfulHashCode κ] in
/-- The entries of a flat map have different keys. -/
theorem distinct_of_outline (h : m.WellFormed) {es : List (κ × ν)} (ho : m.outline = .flat es) :
    Distinct es := by
  obtain ⟨size, shape, cache, stamp⟩ := m
  cases shape with
  | flat es' =>
    cases ho
    exact h.shape.2
  | trie root nilEntry => cases ho

theorem Tracks.removed (h : Tracks m edits) (hChanged : Changed m key none m')
    (hOutline : m'.outline = (m.outline.drop key).outline) :
    Tracks m' (edits ++ [.remove key]) := by
  refine ⟨hChanged.wellFormed, ?_, ?_⟩
  · intro k
    rw [arrivals_concat, any_apply_remove, hChanged.valueAt, ← h.holds]
    cases key == k with
    | true => exact (Bool.and_false _).symm
    | false => exact (Bool.and_true _).symm
  · rw [hOutline]
    exact h.fits.drop (fun _ => distinct_of_outline h.wellFormed) key

theorem Tracks.take (h : Tracks m edits) (sole : Sharing) (key : κ) :
    Succeeds (m.take sole key) fun r => Tracks r.2 (edits ++ [.remove key]) := by
  obtain ⟨m', hYields, -, hOutline⟩ := take_follows h.wellFormed sole key
  obtain ⟨events, m'', hYields', hChanged⟩ := take_yields h.wellFormed sole key
  obtain ⟨-, hEq⟩ := hYields.unique hYields'
  obtain rfl : m' = m'' := congrArg Prod.snd hEq
  refine ⟨_, _, hYields, h.removed hChanged hOutline⟩

/-- A key that is not there may be removed. -/
theorem Tracks.remove_absent (h : Tracks m edits) (hNone : m.valueAt key = none) :
    Tracks m (edits ++ [.remove key]) := by
  have hl : Lacks key m.entries := find?_eq_none_iff.mp (Option.map_eq_none_iff.mp hNone)
  obtain ⟨m', hYields, -, -⟩ := take_follows h.wellFormed .shared key
  obtain ⟨events, m'', hYields', -⟩ := take_yields h.wellFormed .shared key
  have hAnswer : (m.outline.drop key).answer = find? key m.entries :=
    congrArg Prod.fst (hYields.unique hYields').2
  have hSame : (m.outline.drop key).outline = m.outline := by
    rw [Outline.drop_eq_of_none (hAnswer.trans (Option.map_eq_none_iff.mp hNone))]
  exact h.removed (changed_of_lacks hl h.wellFormed rfl) hSame.symm

theorem Tracks.insert (h : Tracks m edits) (key : κ) (value : ν) :
    Succeeds (m.insert key value) fun m' => Tracks m' (edits ++ [.add key]) :=
  (h.exchange key value).bind fun _ hr => succeeds_pure hr

theorem Tracks.update (h : Tracks m edits) (key : κ) (f : Option ν → ν) :
    Succeeds (m.update key f) fun m' => Tracks m' (edits ++ [.add key]) :=
  (succeeds_lift (P := fun _ => True) (get?_eq h.wellFormed key) trivial).bind
    fun _ _ => h.insert key _

theorem Tracks.erase (h : Tracks m edits) (key : κ) :
    Succeeds (HashTrieMap.erase m key) fun m' => Tracks m' (edits ++ [.remove key]) := by
  apply (succeeds_lift (contains_eq h.wellFormed key) rfl).bind
  rintro _ rfl
  split
  · exact (h.take .shared key).bind fun _ hr => succeeds_pure hr
  · next hAbsent =>
    exact succeeds_pure (h.remove_absent (Option.not_isSome_iff_eq_none.mp hAbsent))

theorem Tracks.exchange_transient (h : Tracks t.map edits) (key : κ) (value : ν) :
    Succeeds (t.exchange key value) fun r => Tracks r.2.map (edits ++ [.add key]) :=
  (h.exchange key value).bind fun _ hr => succeeds_pure hr

theorem Tracks.insert_transient (h : Tracks t.map edits) (key : κ) (value : ν) :
    Succeeds (t.insert key value) fun t' => Tracks t'.map (edits ++ [.add key]) :=
  (h.exchange_transient key value).bind fun _ hr => succeeds_pure hr

theorem Tracks.take_transient (h : Tracks t.map edits) (sole : Sharing) (key : κ) :
    Succeeds (t.takeWith sole key) fun r => Tracks r.2.map (edits ++ [.remove key]) :=
  (h.take sole key).bind fun _ hr => succeeds_pure hr

theorem Tracks.erase_transient (h : Tracks t.map edits) (key : κ) :
    Succeeds (t.erase key) fun t' => Tracks t'.map (edits ++ [.remove key]) :=
  (h.take_transient _ key).bind fun _ hr => succeeds_pure hr

theorem Tracks.extend (h : Tracks t.map edits) (es : List (κ × ν)) :
    Succeeds (t.extend es) fun t' => Tracks t'.map (edits ++ es.map fun e => .add e.1) := by
  induction es generalizing t edits with
  | nil =>
    rw [List.map_nil, List.append_nil]
    exact succeeds_pure h
  | cons e es ih =>
    rw [List.map_cons, List.append_cons]
    exact (h.insert_transient e.1 e.2).bind fun _ ht => ih ht

omit [LawfulHashCode κ] in
theorem Tracks.freeze (h : Tracks t.map edits) : Succeeds t.freeze fun m' => Tracks m' edits :=
  (succeeds_record _).bind fun _ _ => succeeds_pure h

/-! ## Calls -/

theorem Call.run_tracks {s t : Mode} (call : Call κ ν s t) {held : Held κ ν s}
    (h : Tracks held.content edits) :
    Succeeds (call.run held) fun r => Tracks r.2.content (edits ++ call.edits) := by
  cases call with
  | insert key value => exact (h.insert key value).bind fun _ hm => succeeds_pure hm
  | erase key => exact (h.erase key).bind fun _ hm => succeeds_pure hm
  | update key f => exact (h.update key f).bind fun _ hm => succeeds_pure hm
  | exchange key value =>
    exact (Tracks.exchange_transient h key value).bind fun _ hr => succeeds_pure hr
  | put key value =>
    exact (Tracks.insert_transient h key value).bind fun _ ht => succeeds_pure ht
  | take sole key =>
    exact (Tracks.take_transient h sole key).bind fun _ hr => succeeds_pure hr
  | drop key => exact (Tracks.erase_transient h key).bind fun _ ht => succeeds_pure ht
  | extend es => exact (Tracks.extend h es).bind fun _ ht => succeeds_pure ht
  | transient =>
    rw [Call.edits, List.append_nil]
    exact succeeds_pure (h.stamped _)
  | thaw =>
    rw [Call.edits, List.append_nil]
    exact succeeds_pure h
  | freeze =>
    rw [Call.edits, List.append_nil]
    exact (Tracks.freeze h).bind fun _ hm => succeeds_pure hm

/-! ## Merges and selections -/

theorem Tracks.merge (h : Tracks m edits) (h' : Tracks other edits') :
    Succeeds (m.merge other) fun m' => Tracks m' (edits ++ other.keys.map .add) := by
  unfold HashTrieMap.merge
  rw [keys, List.map_map]
  split
  · next hEmpty =>
    have hNone : other.toList = [] := by
      rw [toList_eq_entries, ← List.length_eq_zero_iff, ← h'.wellFormed.size]
      exact beq_iff_eq.mp hEmpty
    rw [hNone, List.map_nil, List.append_nil]
    exact succeeds_pure h
  · have hTransient : Tracks m.transient.map edits := h.stamped _
    exact (hTransient.extend other.toList).bind fun _ ht => ht.freeze

/-- The keys of a map that are equal to listed ones, in the order of the list. -/
def chosen (m : HashTrieMap κ ν) (listed : List κ) : List κ :=
  listed.filterMap fun key => m.keys.find? (· == key)

omit [HashCode κ] [LawfulHashCode κ] in
theorem chosen_cons (m : HashTrieMap κ ν) (key : κ) (listed : List κ) :
    m.chosen (key :: listed) = ((find? key m.entries).map (·.1)).toList ++ m.chosen listed := by
  have hFind : m.keys.find? (· == key) = (find? key m.entries).map (·.1) := by
    rw [keys, toList_eq_entries, List.find?_map]
    rfl
  rw [chosen, List.filterMap_cons, hFind, chosen]
  cases (find? key m.entries).map (·.1) <;> rfl

theorem Tracks.select (hw : m.WellFormed) (listed : List κ) (ht : Tracks t.map edits) :
    Succeeds (listed.foldlM m.selectStep t) fun t' =>
      Tracks t'.map (edits ++ (m.chosen listed).map .add) := by
  induction listed generalizing t edits with
  | nil =>
    rw [chosen, List.filterMap_nil, List.map_nil, List.append_nil]
    exact succeeds_pure ht
  | cons key listed ih =>
    have hStep : Succeeds (m.selectStep t key) fun t' =>
        Tracks t'.map (edits ++ ((find? key m.entries).map (·.1)).toList.map .add) := by
      apply (succeeds_lift (entryAt?_eq hw key) rfl).bind
      rintro _ rfl
      cases find? key m.entries with
      | none =>
        rw [Option.map_none, Option.toList_none, List.map_nil, List.append_nil]
        exact succeeds_pure ht
      | some e => exact ht.insert_transient e.1 e.2
    rw [List.foldlM_cons, chosen_cons, List.map_append, ← List.append_assoc]
    exact hStep.bind fun _ ht' => ih ht'

theorem Tracks.selectKeys (h : Tracks m edits) (listed : List κ) :
    Succeeds (m.selectKeys listed) fun m' => Tracks m' ((m.chosen listed).map .add) := by
  have hEmpty : Tracks (HashTrieMap.empty.stamped m.stamp : HashTrieMap κ ν) [] :=
    tracks_empty.stamped m.stamp
  exact (Tracks.select h.wellFormed listed hEmpty).bind fun _ ht => ht.freeze

/-! ## Histories -/

variable [HashCode ν]

omit [LawfulHashCode κ] in
/-- What comes from the empty map by edits. -/
inductive Built : {s : Mode} → Held κ ν s → List (Edit κ) → Prop
  | empty : Built (s := .frozen) HashTrieMap.empty []
  | call {s t : Mode} {held : Held κ ν s} {held' : Held κ ν t} {edits : List (Edit κ)}
    {events : List Event} {answers : List (Option ν)} (call : Call κ ν s t) :
    Built held edits → Yields (call.run held) events (answers, held') →
    Built held' (edits ++ call.edits)
  | merge {m other m' : HashTrieMap κ ν} {edits edits' : List (Edit κ)} {events : List Event} :
    Built (s := .frozen) m edits → Built (s := .frozen) other edits' →
    Yields (m.merge other) events m' → Built (s := .frozen) m' (edits ++ other.keys.map .add)
  | selectKeys {m m' : HashTrieMap κ ν} {edits : List (Edit κ)} {events : List Event}
    (listed : List κ) :
    Built (s := .frozen) m edits → Yields (m.selectKeys listed) events m' →
    Built (s := .frozen) m' ((m.chosen listed).map .add)
  | stamped {m : HashTrieMap κ ν} {edits : List (Edit κ)} (stamp : Nat) :
    Built (s := .frozen) m edits → Built (s := .frozen) (m.stamped stamp) edits
  | hashed {m : HashTrieMap κ ν} {edits : List (Edit κ)} :
    Built (s := .frozen) m edits → Built (s := .frozen) m.hashed edits

theorem Built.tracks {s : Mode} {held : Held κ ν s} (h : Built held edits) :
    Tracks held.content edits := by
  induction h with
  | empty => exact tracks_empty
  | call call _ hYields ih => exact (call.run_tracks ih).ensures.of_yields hYields
  | merge _ _ hYields ih ih' => exact (Tracks.merge ih ih').ensures.of_yields hYields
  | selectKeys listed _ hYields ih =>
    exact (Tracks.selectKeys ih listed).ensures.of_yields hYields
  | stamped stamp _ ih => exact Tracks.stamped ih stamp
  | hashed _ ih => exact ⟨⟨ih.wellFormed.shape, ih.wellFormed.size⟩, ih.holds, ih.fits⟩

theorem Built.run {s t : Mode} (calls : Calls κ ν s t) {held : Held κ ν s}
    (h : Built held edits) :
    Succeeds (calls.run held) fun r => Built r.2 (edits ++ calls.edits) := by
  induction calls generalizing edits with
  | nil =>
    rw [Calls.edits, List.append_nil]
    exact succeeds_pure h
  | cons call calls ih =>
    obtain ⟨events, r, hYields, -⟩ := call.run_tracks h.tracks
    obtain ⟨events', r', hYields', h'⟩ := ih (h.call call hYields)
    rw [List.append_assoc] at h'
    exact ⟨_, _, hYields.bind (hYields'.bind (yields_pure _)), h'⟩

end Lawful

/-- A version of a hash map comes from the empty one by some edits. -/
def Version.Edited [BEq κ] [HashCode κ] [HashCode ν] : Version κ ν → Prop
  | .hashMap held => ∃ edits, Built held edits
  | _ => True

theorem Arises.edited [BEq κ] [HashCode κ] [HashCode ν] {x : Version κ ν} (h : Arises x) :
    Version.Edited x := by
  apply h.elim
  intro store hs x hMakes
  cases hMakes with
  | copy hx => exact hs _ hx
  | emptyMap => exact ⟨[], .empty⟩
  | mapCall call hx hYields =>
    obtain ⟨edits, h⟩ := hs _ hx
    exact ⟨_, h.call call hYields⟩
  | merge hx hy hYields =>
    obtain ⟨edits, h⟩ := hs _ hx
    obtain ⟨edits', h'⟩ := hs _ hy
    exact ⟨_, h.merge h' hYields⟩
  | selectKeys listed hx hYields =>
    obtain ⟨edits, h⟩ := hs _ hx
    exact ⟨_, h.selectKeys listed hYields⟩
  | mapStamped stamp hx =>
    obtain ⟨edits, h⟩ := hs _ hx
    exact ⟨edits, h.stamped stamp⟩
  | mapHashed hx =>
    obtain ⟨edits, h⟩ := hs _ hx
    exact ⟨edits, h.hashed⟩
  | _ => trivial

/-- A history of the empty map, with what it does to the keys. -/
theorem run_edited [BEq κ] [HashCode κ] [LawfulHashCode κ] [HashCode ν] {s : Mode}
    (calls : Calls κ ν .frozen s) :
    Succeeds (calls.run HashTrieMap.empty) fun r =>
      Arises (.hashMap r.2) ∧ Built r.2 calls.edits := by
  have hEmpty : Arises (.hashMap (s := .frozen) .empty : Version κ ν) :=
    Makes.emptyMap.arises .refl
  obtain ⟨events, r, hYields, hArises⟩ := hEmpty.run calls
  obtain ⟨events', r', hYields', hBuilt⟩ := (Built.empty (κ := κ) (ν := ν)).run calls
  obtain rfl := (hYields.unique hYields').2
  exact ⟨events, r, hYields, hArises, hBuilt⟩

end PersistentCollections.HashTrieMap
