import Mathlib.Data.Finmap
import PersistentCollections.Proofs.HashCode
import PersistentCollections.Proofs.HashTrieMap.Map

/-!
# Histories of a hash map

A history starts at the empty map and goes on with any calls: updates of a map, conversions between
maps and transients, updates of a transient. The reference for what such a history answers is a
finite map whose keys are taken up to `==`.

`Models m f` says that a well-formed map has the entries of a finite map. The empty map models the
empty finite map, every call keeps that (`Call.run_models`), and so does every history
(`run_models`). What can be asked about a map that models a finite map is answered from the finite
map (`Models.agrees`).

A removal from a transient is a call with an argument of its own for the nodes that have no other
owner: the answers are the same for all of them.
-/

namespace PersistentCollections.HashTrieMap

open Entries

variable {κ ν : Type}

/-! ## Calls -/

/-- What is held in a mode. -/
@[reducible] def Held (κ ν : Type) : Mode → Type
  | .frozen => HashTrieMap κ ν
  | .building => Transient κ ν

/-- The map that is held. -/
def Held.content : {s : Mode} → Held κ ν s → HashTrieMap κ ν
  | .frozen, m => m
  | .building, t => Transient.map t

/-- A call, with the mode that it starts from and the one that it leads to. -/
inductive Call (κ ν : Type) : Mode → Mode → Type
  | insert (key : κ) (value : ν) : Call κ ν .frozen .frozen
  | erase (key : κ) : Call κ ν .frozen .frozen
  | update (key : κ) (f : Option ν → ν) : Call κ ν .frozen .frozen
  | transient : Call κ ν .frozen .building
  | thaw : Call κ ν .frozen .building
  | exchange (key : κ) (value : ν) : Call κ ν .building .building
  | put (key : κ) (value : ν) : Call κ ν .building .building
  | take (sole : Sharing) (key : κ) : Call κ ν .building .building
  | drop (key : κ) : Call κ ν .building .building
  | extend (entries : List (κ × ν)) : Call κ ν .building .building
  | freeze : Call κ ν .building .frozen

/-- Any calls, one after the other. -/
inductive Calls (κ ν : Type) : Mode → Mode → Type
  | nil {s : Mode} : Calls κ ν s s
  | cons {s t u : Mode} (call : Call κ ν s t) (calls : Calls κ ν t u) : Calls κ ν s u

section Run

variable [BEq κ] [HashCode κ]

/-- Make a call. An exchange and a removal from a transient answer the value that the key had. -/
def Call.run : {s t : Mode} → Call κ ν s t → Held κ ν s → Logged (List (Option ν) × Held κ ν t)
  | _, _, .insert key value, m => return ([], ← HashTrieMap.insert m key value)
  | _, _, .erase key, m => return ([], ← HashTrieMap.erase m key)
  | _, _, .update key f, m => return ([], ← HashTrieMap.update m key f)
  | _, _, .transient, m => return ([], HashTrieMap.transient m)
  | _, _, .thaw, m => return ([], HashTrieMap.thaw m)
  | _, _, .exchange key value, t => do
    let (old, t) ← Transient.exchange t key value
    return ([old], t)
  | _, _, .put key value, t => return ([], ← Transient.insert t key value)
  | _, _, .take sole key, t => do
    let (old, t) ← Transient.takeWith sole t key
    return ([old], t)
  | _, _, .drop key, t => return ([], ← Transient.erase t key)
  | _, _, .extend entries, t => return ([], ← Transient.extend t entries)
  | _, _, .freeze, t => return ([], ← Transient.freeze t)

/-- Make calls in order, and collect the answers. -/
def Calls.run : {s t : Mode} → Calls κ ν s t → Held κ ν s → Logged (List (Option ν) × Held κ ν t)
  | _, _, .nil, held => return ([], held)
  | _, _, .cons call calls, held => do
    let (answers, held) ← call.run held
    let (more, held) ← calls.run held
    return (answers ++ more, held)

end Run

/-! ## The reference -/

section Reference

variable [BEq κ] [EquivBEq κ]

/-- Two keys are the same if `==` says so. -/
def keySetoid (κ : Type) [BEq κ] [EquivBEq κ] : Setoid κ where
  r a b := (a == b) = true
  iseqv := ⟨fun a => BEq.refl a, BEq.symm, BEq.trans⟩

/-- Keys up to `==`. -/
def KeyClass (κ : Type) [BEq κ] [EquivBEq κ] : Type := Quotient (keySetoid κ)

instance : DecidableEq (KeyClass κ) :=
  @Quotient.decidableEq κ (keySetoid κ) fun a b => inferInstanceAs (Decidable ((a == b) = true))

/-- The class of a key. -/
def KeyClass.of (key : κ) : KeyClass κ := Quotient.mk (keySetoid κ) key

theorem KeyClass.of_eq_of {a b : κ} : KeyClass.of a = KeyClass.of b ↔ (a == b) = true :=
  ⟨fun h => Quotient.exact h, fun h => Quotient.sound h⟩

/-- If `==` is equality, each key is a class of its own. -/
theorem KeyClass.of_injective {α : Type} [BEq α] [LawfulBEq α] :
    Function.Injective (KeyClass.of : α → KeyClass α) :=
  fun _ _ h => eq_of_beq (KeyClass.of_eq_of.mp h)

/-- A finite map on keys up to `==`. -/
abbrev FiniteMap (κ ν : Type) [BEq κ] [EquivBEq κ] : Type := Finmap fun _ : KeyClass κ => ν

/-- What a call does to a finite map, and what it answers. -/
def Call.reference {s t : Mode} (call : Call κ ν s t) (f : FiniteMap κ ν) :
    List (Option ν) × FiniteMap κ ν :=
  match call with
  | .insert key value | .put key value => ([], f.insert (.of key) value)
  | .erase key | .drop key => ([], f.erase (.of key))
  | .update key g => ([], f.insert (.of key) (g (f.lookup (.of key))))
  | .exchange key value => ([f.lookup (.of key)], f.insert (.of key) value)
  | .take _ key => ([f.lookup (.of key)], f.erase (.of key))
  | .extend entries => ([], entries.foldl (fun f e => f.insert (.of e.1) e.2) f)
  | .transient | .thaw | .freeze => ([], f)

def Calls.reference : {s t : Mode} → Calls κ ν s t → FiniteMap κ ν →
    List (Option ν) × FiniteMap κ ν
  | _, _, .nil, f => ([], f)
  | _, _, .cons call calls, f =>
    let (answers, f) := call.reference f
    let (more, f) := calls.reference f
    (answers ++ more, f)

end Reference

section Lawful

variable [BEq κ] [HashCode κ] [LawfulHashCode κ] {m : HashTrieMap κ ν} {f : FiniteMap κ ν}

/-- Everything that can be asked about a map is answered from a finite map. -/
structure Agrees (m : HashTrieMap κ ν) (f : FiniteMap κ ν) : Prop where
  size : m.size = f.keys.card
  isEmpty : m.isEmpty = true ↔ f = ∅
  get? : ∀ key, m.get? key = .ok (f.lookup (.of key))
  getD : ∀ key fallback, m.getD key fallback = .ok ((f.lookup (.of key)).getD fallback)
  contains : ∀ key, m.contains key = .ok (f.lookup (.of key)).isSome

/-- A well-formed map has the entries of a finite map. -/
structure Models (m : HashTrieMap κ ν) (f : FiniteMap κ ν) : Prop where
  wellFormed : m.WellFormed
  valueAt : ∀ key, m.valueAt key = f.lookup (.of key)

theorem models_empty : Models (HashTrieMap.empty : HashTrieMap κ ν) ∅ :=
  ⟨wellFormed_empty, fun key => by rw [valueAt_empty, Finmap.lookup_empty]⟩

/-- The keys of the finite map are those of the entries. -/
theorem Models.keys_eq (h : Models m f) :
    f.keys = (m.entries.map fun e => KeyClass.of e.1).toFinset := by
  ext c
  induction c using Quotient.ind with
  | _ key =>
  have hc : Quotient.mk (keySetoid κ) key = KeyClass.of key := rfl
  rw [hc, Finmap.mem_keys, ← Finmap.lookup_isSome, ← h.valueAt, HashTrieMap.valueAt,
    Option.isSome_map, Entries.find?, List.find?_isSome, List.mem_toFinset, List.mem_map]
  simp only [KeyClass.of_eq_of]

/-- Each key has one entry. -/
theorem WellFormed.nodup_keys (h : m.WellFormed) :
    (m.entries.map fun e => KeyClass.of e.1).Nodup := by
  rw [List.nodup_iff_pairwise_ne, List.pairwise_map]
  refine h.distinct.imp fun {a b} hab he => ?_
  rw [KeyClass.of_eq_of.mp he] at hab
  cases hab

theorem Models.card_keys (h : Models m f) : f.keys.card = m.entries.length := by
  rw [h.keys_eq, List.toFinset_card_of_nodup h.wellFormed.nodup_keys, List.length_map]

/-- A map that models a finite map answers from it. -/
theorem Models.agrees (h : Models m f) : Agrees m f where
  size := by rw [h.card_keys, h.wellFormed.size]
  isEmpty := by
    rw [isEmpty, beq_iff_eq, h.wellFormed.size, ← h.card_keys, Finset.card_eq_zero]
    constructor
    · intro hk
      refine Finmap.ext_lookup fun c => ?_
      rw [Finmap.lookup_empty, Finmap.lookup_eq_none, ← Finmap.mem_keys, hk]
      exact Finset.notMem_empty c
    · rintro rfl
      exact Finmap.keys_empty
  get? key := by rw [get?_eq h.wellFormed, h.valueAt]
  getD key fallback := by rw [getD_eq h.wellFormed, h.valueAt]
  contains key := by rw [contains_eq h.wellFormed, h.valueAt]

/-! ## One call -/

theorem Models.insert {m' : HashTrieMap κ ν} {key : κ} {value : ν} (h : Models m f)
    (hc : Changed m key (some value) m') : Models m' (f.insert (.of key) value) := by
  refine ⟨hc.wellFormed, fun k => ?_⟩
  rw [hc.valueAt]
  split
  · next hk => rw [KeyClass.of_eq_of.mpr hk, Finmap.lookup_insert]
  · next hk =>
    rw [Finmap.lookup_insert_of_ne _ fun he => hk (KeyClass.of_eq_of.mp he.symm), h.valueAt]

theorem Models.erase {m' : HashTrieMap κ ν} {key : κ} (h : Models m f)
    (hc : Changed m key none m') : Models m' (f.erase (.of key)) := by
  refine ⟨hc.wellFormed, fun k => ?_⟩
  rw [hc.valueAt]
  split
  · next hk => rw [KeyClass.of_eq_of.mpr hk, Finmap.lookup_erase]
  · next hk =>
    rw [Finmap.lookup_erase_ne fun he => hk (KeyClass.of_eq_of.mp he.symm), h.valueAt]

theorem Models.stamped (h : Models m f) (stamp : Nat) : Models (m.stamped stamp) f :=
  ⟨⟨h.wellFormed.shape, h.wellFormed.size⟩, h.valueAt⟩

theorem Models.exchange (h : Models m f) (key : κ) (value : ν) :
    Succeeds (m.exchange key value) fun r =>
      r.1 = f.lookup (.of key) ∧ Models r.2 (f.insert (.of key) value) := by
  obtain ⟨events, m', hy, hc⟩ := exchange_yields h.wellFormed key value
  exact ⟨events, _, hy, h.valueAt key, h.insert hc⟩

theorem Models.take (h : Models m f) (sole : Sharing) (key : κ) :
    Succeeds (m.take sole key) fun r =>
      r.1.map (·.2) = f.lookup (.of key) ∧ Models r.2 (f.erase (.of key)) := by
  obtain ⟨events, m', hy, hc⟩ := take_yields h.wellFormed sole key
  exact ⟨events, _, hy, h.valueAt key, h.erase hc⟩

theorem Models.insert_succeeds (h : Models m f) (key : κ) (value : ν) :
    Succeeds (m.insert key value) fun m => Models m (f.insert (.of key) value) :=
  (h.exchange key value).bind fun _ hr => succeeds_pure hr.2

theorem Models.erase_succeeds (h : Models m f) (key : κ) :
    Succeeds (HashTrieMap.erase m key) fun m => Models m (f.erase (.of key)) := by
  refine (succeeds_lift (h.agrees.contains key) rfl).bind fun b hb => ?_
  subst hb
  split
  · exact (h.take .shared key).bind fun _ hr => succeeds_pure hr.2
  · next hn =>
    have hNone : m.valueAt key = none := by
      rw [h.valueAt]
      exact Option.not_isSome_iff_eq_none.mp hn
    have hl : Lacks key m.entries := find?_eq_none_iff.mp (Option.map_eq_none_iff.mp hNone)
    exact succeeds_pure (h.erase (changed_of_lacks hl h.wellFormed rfl))

theorem Models.update_succeeds (h : Models m f) (key : κ) (g : Option ν → ν) :
    Succeeds (m.update key g) fun m =>
      Models m (f.insert (.of key) (g (f.lookup (.of key)))) := by
  refine (succeeds_lift (h.agrees.get? key) rfl).bind fun old hOld => ?_
  subst hOld
  exact h.insert_succeeds key _

theorem Models.exchange_transient {t : Transient κ ν} (h : Models t.map f) (key : κ) (value : ν) :
    Succeeds (t.exchange key value) fun r =>
      r.1 = f.lookup (.of key) ∧ Models r.2.map (f.insert (.of key) value) :=
  (h.exchange key value).bind fun _ hr => succeeds_pure hr

theorem Models.insert_transient {t : Transient κ ν} (h : Models t.map f) (key : κ) (value : ν) :
    Succeeds (t.insert key value) fun t => Models t.map (f.insert (.of key) value) :=
  (h.exchange_transient key value).bind fun _ hr => succeeds_pure hr.2

theorem Models.take_transient {t : Transient κ ν} (h : Models t.map f) (sole : Sharing) (key : κ) :
    Succeeds (t.takeWith sole key) fun r =>
      r.1 = f.lookup (.of key) ∧ Models r.2.map (f.erase (.of key)) :=
  (h.take sole key).bind fun _ hr => succeeds_pure hr

theorem Models.erase_transient {t : Transient κ ν} (h : Models t.map f) (key : κ) :
    Succeeds (t.erase key) fun t => Models t.map (f.erase (.of key)) :=
  (h.take_transient _ key).bind fun _ hr => succeeds_pure hr.2

theorem Models.freeze {t : Transient κ ν} (h : Models t.map f) :
    Succeeds t.freeze fun m => Models m f :=
  (succeeds_record _).bind fun _ _ => succeeds_pure h

theorem Models.extend {t : Transient κ ν} (h : Models t.map f) (es : List (κ × ν)) :
    Succeeds (t.extend es) fun t =>
      Models t.map (es.foldl (fun f e => f.insert (.of e.1) e.2) f) :=
  succeeds_foldlM (R := fun (t : Transient κ ν) f => Models t.map f)
    (fun _ _ e ht => ht.insert_transient e.1 e.2) es h

/-- A call on what models a finite map succeeds, answers what the reference answers, and leads to
what models the finite map that the reference leads to. -/
theorem Call.run_models {s t : Mode} (call : Call κ ν s t) {held : Held κ ν s}
    (h : Models held.content f) :
    Succeeds (call.run held) fun r =>
      r.1 = (call.reference f).1 ∧ Models r.2.content (call.reference f).2 := by
  cases call with
  | insert key value =>
    exact (h.insert_succeeds key value).bind fun m hm => succeeds_pure ⟨rfl, hm⟩
  | erase key => exact (h.erase_succeeds key).bind fun m hm => succeeds_pure ⟨rfl, hm⟩
  | update key g => exact (h.update_succeeds key g).bind fun m hm => succeeds_pure ⟨rfl, hm⟩
  | transient => exact succeeds_pure ⟨rfl, h.stamped _⟩
  | thaw => exact succeeds_pure ⟨rfl, h⟩
  | exchange key value =>
    refine (Models.exchange_transient h key value).bind fun r hr => succeeds_pure ⟨?_, hr.2⟩
    rw [hr.1]
    rfl
  | put key value =>
    exact (Models.insert_transient h key value).bind fun t ht => succeeds_pure ⟨rfl, ht⟩
  | take sole key =>
    refine (Models.take_transient h sole key).bind fun r hr => succeeds_pure ⟨?_, hr.2⟩
    rw [hr.1]
    rfl
  | drop key =>
    exact (Models.erase_transient h key).bind fun t ht => succeeds_pure ⟨rfl, ht⟩
  | extend es => exact (Models.extend h es).bind fun t ht => succeeds_pure ⟨rfl, ht⟩
  | freeze => exact (Models.freeze h).bind fun m hm => succeeds_pure ⟨rfl, hm⟩

/-! ## Histories -/

theorem Calls.run_models {s t : Mode} (calls : Calls κ ν s t) {held : Held κ ν s}
    (h : Models held.content f) :
    Succeeds (calls.run held) fun r =>
      r.1 = (calls.reference f).1 ∧ Models r.2.content (calls.reference f).2 := by
  induction calls generalizing f with
  | nil => exact succeeds_pure ⟨rfl, h⟩
  | cons call calls ih =>
    refine (call.run_models h).bind fun r hr => ?_
    refine (ih hr.2).bind fun r' hr' => succeeds_pure ⟨?_, hr'.2⟩
    rw [hr.1, hr'.1]
    rfl

/-- Every history of the empty map succeeds. It answers what the same history of a finite map
answers, and so does the map that is held in the end, whatever it is asked. -/
theorem run_agrees {s : Mode} (calls : Calls κ ν .frozen s) :
    Succeeds (calls.run HashTrieMap.empty) fun r =>
      r.1 = (calls.reference ∅).1 ∧ Agrees r.2.content (calls.reference ∅).2 := by
  have hEmpty : Models (Held.content (s := .frozen) (HashTrieMap.empty : HashTrieMap κ ν)) ∅ :=
    models_empty
  obtain ⟨events, r, hy, ha, hm⟩ := calls.run_models hEmpty
  exact ⟨events, r, hy, ha, hm.agrees⟩

end Lawful

/-- A history in which one key is overwritten and a nil key is taken out. -/
def overwriteAndTake : Calls (Option UInt8) Nat .frozen .frozen :=
  .cons (.insert none 1) (.cons (.insert (some 3) 2) (.cons .transient
    (.cons (.exchange (some 3) 5) (.cons (.take .shared none) (.cons .freeze .nil)))))

theorem run_agrees_overwriteAndTake : LawfulHashCode (Option UInt8) ∧
    Succeeds (overwriteAndTake.run HashTrieMap.empty) fun r =>
      r.1 = [some 2, some 1] ∧ r.2.content.size = 1 ∧
        r.2.content.get? (some 3) = .ok (some 5) ∧ r.2.content.get? none = .ok none := by
  obtain ⟨events, r, hy, ha, hm⟩ := run_agrees overwriteAndTake
  exact ⟨inferInstance, events, r, hy, ha, hm.size, hm.get? (some 3), hm.get? none⟩

end PersistentCollections.HashTrieMap
