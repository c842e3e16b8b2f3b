import Mathlib.Data.List.Basic
import PersistentCollections.Hash.Code
import PersistentCollections.HashTrieMap.Entries

/-!
# Lists of entries with distinct keys

A list of entries either has no entry of a key (`Lacks`) or splits at the first one
(`lacks_or_split`); each operation on lists of entries is computed on these two forms. With distinct
keys the split is the only one, so a lookup depends only on which entries there are
(`find?_eq_some_iff`, `find?_perm`).

`Put` and `Cut` say what an insertion and a removal do to the entries of a larger structure, in the
order in which it lists them. A part of the list can be exchanged inside its surroundings
(`Put.within`, `Cut.within`), and what can be looked up afterwards follows from `Put` and `Cut`
alone (`Put.find?_map`, `Cut.perm` with `find?_of_perm_cons`).
-/

namespace PersistentCollections.HashTrieMap.Entries

variable {κ ν : Type} [BEq κ] {key : κ} {value : ν} {es es' before after : List (κ × ν)}
  {e : κ × ν}

/-- No entry has the key. -/
def Lacks (key : κ) (es : List (κ × ν)) : Prop := ∀ e ∈ es, (e.1 == key) = false

/-- The keys are pairwise different. -/
def Distinct (es : List (κ × ν)) : Prop := es.Pairwise fun a b => (a.1 == b.1) = false

theorem lacks_nil (key : κ) : Lacks key ([] : List (κ × ν)) := by
  intro e he
  cases he

theorem lacks_append : Lacks key (before ++ after) ↔ Lacks key before ∧ Lacks key after := by
  simp only [Lacks, List.mem_append, or_imp, forall_and]

theorem lacks_cons : Lacks key (e :: es) ↔ (e.1 == key) = false ∧ Lacks key es := by
  simp only [Lacks, List.mem_cons, or_imp, forall_and, forall_eq]

theorem Lacks.perm (h : Lacks key es) (hp : es.Perm es') : Lacks key es' :=
  fun e he => h e (hp.mem_iff.mpr he)

/-- Cut a list at the first entry of a key, if it has one. -/
theorem lacks_or_split (key : κ) (es : List (κ × ν)) :
    Lacks key es ∨ ∃ before e after, es = before ++ e :: after ∧ Lacks key before ∧
      (e.1 == key) = true := by
  induction es with
  | nil => exact Or.inl (lacks_nil key)
  | cons e es ih =>
    by_cases he : (e.1 == key) = true
    · exact Or.inr ⟨[], e, es, rfl, lacks_nil key, he⟩
    · rw [Bool.not_eq_true] at he
      rcases ih with h | ⟨before, e', after, rfl, hb, he'⟩
      · exact Or.inl (lacks_cons.mpr ⟨he, h⟩)
      · exact Or.inr ⟨e :: before, e', after, rfl, lacks_cons.mpr ⟨he, hb⟩, he'⟩

/-! ## The operations on the two forms -/

theorem find?_of_lacks (h : Lacks key es) : find? key es = none := by
  rw [find?, List.find?_eq_none]
  intro e he
  simp [h e he]

theorem find?_append (hb : Lacks key before) : find? key (before ++ es) = find? key es := by
  rw [find?, List.find?_append]
  have h : before.find? (·.1 == key) = none := find?_of_lacks hb
  rw [h, Option.none_or]
  rfl

theorem find?_split (hb : Lacks key before) (he : (e.1 == key) = true) :
    find? key (before ++ e :: after) = some e := by
  rw [find?_append hb, find?, List.find?_cons, he]

/-- A lookup goes past an entry with another key. -/
theorem find?_skip (he : (e.1 == key) = false) (before after : List (κ × ν)) :
    find? key (before ++ e :: after) = find? key (before ++ after) := by
  simp [find?, he]

theorem find?_cons_same (he : (e.1 == key) = true) (es : List (κ × ν)) :
    find? key (e :: es) = some e := find?_split (lacks_nil key) he

theorem find?_cons_other (he : (e.1 == key) = false) (es : List (κ × ν)) :
    find? key (e :: es) = find? key es := find?_skip he [] es

theorem find?_eq_none_iff : find? key es = none ↔ Lacks key es := by
  rw [find?, List.find?_eq_none]
  simp only [Bool.not_eq_true]
  rfl

/-- A lookup goes past what lacks the key, on either side. -/
theorem find?_within (hb : Lacks key before) (ha : Lacks key after) :
    find? key (before ++ es ++ after) = find? key es := by
  rw [List.append_assoc, find?_append hb, find?, List.find?_append]
  have h : after.find? (·.1 == key) = none := find?_of_lacks ha
  rw [h, Option.or_none]
  rfl

theorem setValue?_of_lacks (h : Lacks key es) : setValue? key value es = none := by
  induction es with
  | nil => rfl
  | cons e es ih =>
    obtain ⟨he, hes⟩ := lacks_cons.mp h
    simp [setValue?, he, ih hes]

theorem setValue?_split (hb : Lacks key before) (he : (e.1 == key) = true) :
    setValue? key value (before ++ e :: after) =
      some (e.2, before ++ (e.1, value) :: after) := by
  induction before with
  | nil => simp [setValue?, he]
  | cons b before ih =>
    obtain ⟨hb', hbs⟩ := lacks_cons.mp hb
    simp [setValue?, hb', ih hbs]

theorem take?_of_lacks (h : Lacks key es) : take? key es = none := by
  induction es with
  | nil => rfl
  | cons e es ih =>
    obtain ⟨he, hes⟩ := lacks_cons.mp h
    simp [take?, he, ih hes]

theorem take?_split (hb : Lacks key before) (he : (e.1 == key) = true) :
    take? key (before ++ e :: after) = some (e, before ++ after) := by
  induction before with
  | nil => simp [take?, he]
  | cons b before ih =>
    obtain ⟨hb', hbs⟩ := lacks_cons.mp hb
    simp [take?, hb', ih hbs]

theorem findIdx?_split (hb : Lacks key before) (he : (e.1 == key) = true) :
    (before ++ e :: after).findIdx? (·.1 == key) = some before.length := by
  induction before with
  | nil => simp [List.findIdx?_cons, he]
  | cons b before ih =>
    obtain ⟨hb', hbs⟩ := lacks_cons.mp hb
    simp [List.findIdx?_cons, hb', ih hbs]

theorem takeSwap?_of_lacks (h : Lacks key es) : takeSwap? key es = none := by
  have hi : es.findIdx? (·.1 == key) = none := by
    rw [List.findIdx?_eq_none_iff]
    exact h
  simp [takeSwap?, hi]

theorem takeSwap?_last (hb : Lacks key before) (he : (e.1 == key) = true) :
    takeSwap? key (before ++ [e]) = some (e, before) := by
  simp [takeSwap?, findIdx?_split hb he]

theorem takeSwap?_split {last : κ × ν} (hb : Lacks key before) (he : (e.1 == key) = true) :
    takeSwap? key (before ++ e :: (after ++ [last])) = some (e, before ++ last :: after) := by
  have hl : (e :: (after ++ [last])).getLast? = some last := by
    rw [← List.cons_append, List.getLast?_concat]
  have hd : (last :: (after ++ [last])).dropLast = last :: after := by
    rw [← List.cons_append, List.dropLast_concat]
  simp [takeSwap?, findIdx?_split hb he, hl, hd]

theorem exists_takeSwap? (hb : Lacks key before) (he : (e.1 == key) = true)
    (after : List (κ × ν)) : ∃ es', takeSwap? key (before ++ e :: after) = some (e, es') := by
  rcases List.eq_nil_or_concat after with rfl | ⟨after, last, rfl⟩
  · exact ⟨before, takeSwap?_last hb he⟩
  · rw [List.concat_eq_append]
    exact ⟨before ++ last :: after, takeSwap?_split hb he⟩

theorem takeSwap?_perm {taken : κ × ν} (h : takeSwap? key es = some (taken, es')) :
    (taken.1 == key) = true ∧ es.Perm (taken :: es') := by
  rcases lacks_or_split key es with hl | ⟨before, e, after, rfl, hb, he⟩
  · rw [takeSwap?_of_lacks hl] at h
    cases h
  · rcases List.eq_nil_or_concat after with rfl | ⟨after, last, rfl⟩
    · rw [takeSwap?_last hb he] at h
      cases h
      exact ⟨he, List.perm_append_singleton _ _⟩
    · rw [List.concat_eq_append] at h ⊢
      rw [takeSwap?_split hb he] at h
      cases h
      refine ⟨he, List.perm_middle.trans (List.Perm.cons _ ?_)⟩
      exact List.Perm.append_left before (List.perm_append_singleton _ _)

/-! ## Distinct keys -/

section Equivalence

variable [EquivBEq κ]

theorem key_ne_symm {a b : κ} (h : (a == b) = false) : (b == a) = false := by
  rw [BEq.comm, h]

theorem key_congr {a b c : κ} (h : (a == b) = true) : (c == a) = (c == b) := BEq.congr_right h

theorem Lacks.congr {key' : κ} (h : Lacks key es) (hk : (key == key') = true) : Lacks key' es :=
  fun e he => by rw [← key_congr hk, h e he]

theorem Distinct.perm (h : Distinct es) (hp : es.Perm es') : Distinct es' :=
  List.Pairwise.perm h hp key_ne_symm

theorem distinct_cons : Distinct (e :: es) ↔ Lacks e.1 es ∧ Distinct es := by
  rw [Distinct, List.pairwise_cons]
  refine and_congr_left fun _ => ?_
  exact ⟨fun h a ha => key_ne_symm (h a ha), fun h a ha => key_ne_symm (h a ha)⟩

theorem distinct_append :
    Distinct (before ++ after) ↔
      Distinct before ∧ Distinct after ∧ ∀ a ∈ before, Lacks a.1 after := by
  rw [Distinct, List.pairwise_append]
  refine and_congr_right fun _ => and_congr_right fun _ => ?_
  exact ⟨fun h a ha b hb => key_ne_symm (h a ha b hb),
    fun h a ha b hb => key_ne_symm (h a ha b hb)⟩

/-- With distinct keys a lookup finds the only entry of the key, wherever it is. -/
theorem find?_eq_some_iff (hd : Distinct es) :
    find? key es = some e ↔ e ∈ es ∧ (e.1 == key) = true := by
  constructor
  · intro h
    have hk := List.find?_some (p := fun e : κ × ν => e.1 == key) h
    exact ⟨List.mem_of_find?_eq_some h, hk⟩
  · rintro ⟨hm, he⟩
    obtain ⟨before, after, rfl⟩ := List.append_of_mem hm
    refine find?_split (fun a ha => ?_) he
    have hl := (distinct_append.mp hd).2.2 a ha e List.mem_cons_self
    rw [← key_congr he]
    exact key_ne_symm hl

theorem find?_perm (hd : Distinct es) (hp : es.Perm es') : find? key es = find? key es' := by
  ext e
  rw [find?_eq_some_iff hd, find?_eq_some_iff (hd.perm hp), hp.mem_iff]

theorem find?_congr {key' : κ} (h : (key == key') = true) (es : List (κ × ν)) :
    find? key es = find? key' es := by
  rw [find?, find?]
  congr 1
  funext e
  exact key_congr h

end Equivalence

/-! ## Insertion and removal in their surroundings -/

section Changes

variable [HashCode κ] {old : Option ν} {taken : κ × ν}

/-- What giving `key` the value `value` does to a list of entries, and the value that it replaces:
a stored key gets the value in its place; a new entry comes after every entry of the same hash. -/
inductive Put (key : κ) (value : ν) : List (κ × ν) → Option ν → List (κ × ν) → Prop
  | overwrite {before after : List (κ × ν)} {stored : κ} {old : ν} :
      Lacks key before → (stored == key) = true →
        Put key value (before ++ (stored, old) :: after) (some old)
          (before ++ (stored, value) :: after)
  | add {before after : List (κ × ν)} :
      Lacks key before → Lacks key after → (∀ e ∈ after, hashCode e.1 ≠ hashCode key) →
        Put key value (before ++ after) none (before ++ (key, value) :: after)

/-- What taking `taken` out by its key does to a list of entries. The entries of one hash stand
together, and the last of them moves into the place that becomes free. -/
inductive Cut (key : κ) : List (κ × ν) → κ × ν → List (κ × ν) → Prop
  | intro {before group group' after : List (κ × ν)} {taken : κ × ν} :
      takeSwap? key group = some (taken, group') → (∀ e ∈ group, hashCode e.1 = hashCode key) →
      (∀ e ∈ before ++ after, hashCode e.1 ≠ hashCode key) →
        Cut key (before ++ group ++ after) taken (before ++ group' ++ after)

theorem put_last (key : κ) (value : ν) (h : Lacks key es) :
    Put key value es none (es ++ [(key, value)]) := by
  have hp : Put key value (es ++ []) none (es ++ [(key, value)]) :=
    Put.add h (lacks_nil key) fun e he => by cases he
  rwa [List.append_nil] at hp

/-- An entry that stands alone is overwritten. -/
theorem put_single (value : ν) (he : (e.1 == key) = true) :
    Put key value [e] (some e.2) [(e.1, value)] := by
  have hp : Put key value ([] ++ (e.1, e.2) :: []) (some e.2) ([] ++ (e.1, value) :: []) :=
    Put.overwrite (lacks_nil key) he
  exact hp

/-- An entry that stands alone is taken out with nothing left. -/
theorem cut_single (he : (e.1 == key) = true) (hh : hashCode e.1 = hashCode key) :
    Cut key [e] e [] := by
  have ht : takeSwap? key ([] ++ [e]) = some (e, []) := takeSwap?_last (lacks_nil key) he
  have hc : Cut key ([] ++ [e] ++ []) e ([] ++ [] ++ []) := by
    refine Cut.intro ht (fun e' he' => ?_) fun e' he' => by cases he'
    rw [List.mem_singleton.mp he', hh]
  exact hc

theorem Put.within (h : Put key value es old es') (hb : Lacks key before) (ha : Lacks key after)
    (hh : ∀ e ∈ after, hashCode e.1 ≠ hashCode key) :
    Put key value (before ++ es ++ after) old (before ++ es' ++ after) := by
  cases h with
  | overwrite hb' hs =>
    simp only [List.append_assoc, List.cons_append]
    rw [← List.append_assoc before, ← List.append_assoc before]
    exact Put.overwrite (lacks_append.mpr ⟨hb, hb'⟩) hs
  | @add before' after' hb' ha' hh' =>
    simp only [List.append_assoc, List.cons_append]
    rw [← List.append_assoc before, ← List.append_assoc before]
    refine Put.add (lacks_append.mpr ⟨hb, hb'⟩) (lacks_append.mpr ⟨ha', ha⟩) fun e he => ?_
    rcases List.mem_append.mp he with he | he
    · exact hh' e he
    · exact hh e he

theorem Cut.within (h : Cut key es taken es') (hb : ∀ e ∈ before, hashCode e.1 ≠ hashCode key)
    (ha : ∀ e ∈ after, hashCode e.1 ≠ hashCode key) :
    Cut key (before ++ es ++ after) taken (before ++ es' ++ after) := by
  cases h with
  | @intro before' group group' after' _ ht hg ho =>
    have hs : ∀ g : List (κ × ν), before ++ (before' ++ g ++ after') ++ after =
        (before ++ before') ++ g ++ (after' ++ after) := by
      intro g
      simp only [List.append_assoc]
    rw [hs, hs]
    refine Cut.intro ht hg fun e he => ?_
    simp only [List.mem_append] at he ho
    grind

/-- An insertion brings in no key but its own. -/
theorem Put.key_mem (h : Put key value es old es') (he : e ∈ es') :
    e.1 = key ∨ ∃ e' ∈ es, e'.1 = e.1 := by
  cases h with
  | @overwrite before after stored old hb hs =>
    rcases List.mem_append.mp he with he | he
    · exact Or.inr ⟨e, List.mem_append_left _ he, rfl⟩
    · rcases List.mem_cons.mp he with rfl | he
      · exact Or.inr ⟨(stored, old), by simp, rfl⟩
      · exact Or.inr ⟨e, by simp [he], rfl⟩
  | @add before after hb ha hh =>
    rcases List.mem_append.mp he with he | he
    · exact Or.inr ⟨e, List.mem_append_left _ he, rfl⟩
    · rcases List.mem_cons.mp he with rfl | he
      · exact Or.inl rfl
      · exact Or.inr ⟨e, List.mem_append_right _ he, rfl⟩

theorem Put.ne_nil (h : Put key value es old es') : es' ≠ [] := by
  cases h with
  | overwrite => simp
  | add => simp

theorem Put.length (h : Put key value es old es') :
    es'.length = if old.isSome then es.length else es.length + 1 := by
  cases h with
  | overwrite => simp
  | add => simp [Nat.add_assoc]

/-- The answer of an insertion is the value that the key had. -/
theorem Put.replaced (h : Put key value es old es') : old = (find? key es).map (·.2) := by
  cases h with
  | overwrite hb hs => rw [find?_split hb hs]; rfl
  | add hb ha => rw [find?_of_lacks (lacks_append.mpr ⟨hb, ha⟩)]; rfl

/-- An insertion of a new key adds one entry. -/
theorem Put.perm (h : Put key value es old es') (hl : Lacks key es) :
    es'.Perm ((key, value) :: es) := by
  cases h with
  | @overwrite before after stored old hb hs =>
    rw [(lacks_cons.mp (lacks_append.mp hl).2).1] at hs
    cases hs
  | add hb ha hh => exact List.perm_middle

theorem Cut.perm (h : Cut key es taken es') : es.Perm (taken :: es') := by
  cases h with
  | @intro before group group' after _ ht =>
    have hp := (takeSwap?_perm ht).2
    have hm :
        (before ++ (taken :: group') ++ after).Perm (taken :: (before ++ group' ++ after)) := by
      rw [List.append_assoc, List.append_assoc]
      exact List.perm_middle
    exact ((hp.append_left before).append_right after).trans hm

theorem Cut.key_eq (h : Cut key es taken es') : (taken.1 == key) = true := by
  cases h with
  | intro ht => exact (takeSwap?_perm ht).1

section Lookup

variable [EquivBEq κ]

theorem Put.distinct (h : Put key value es old es') (hd : Distinct es) : Distinct es' := by
  cases h with
  | @overwrite before after stored old hb hs =>
    rw [Distinct, ← List.pairwise_map (f := Prod.fst) (R := fun a b => (a == b) = false)] at hd ⊢
    simpa using hd
  | @add before after hb ha hh =>
    have hn : Distinct ((key, value) :: (before ++ after)) :=
      distinct_cons.mpr ⟨lacks_append.mpr ⟨hb, ha⟩, hd⟩
    exact hn.perm List.perm_middle.symm

/-- A stored key is overwritten in its place. -/
theorem Put.of_mem {stored : κ} {v : ν} (h : Put key value es old es') (hd : Distinct es)
    (hMem : (stored, v) ∈ es) (hKey : (stored == key) = true) :
    old = some v ∧ ∃ before after, es = before ++ (stored, v) :: after ∧
      es' = before ++ (stored, value) :: after := by
  have hFind : find? key es = some (stored, v) := (find?_eq_some_iff hd).mpr ⟨hMem, hKey⟩
  cases h with
  | overwrite hb hs =>
    rw [find?_split hb hs] at hFind
    cases hFind
    exact ⟨rfl, _, _, rfl, rfl⟩
  | add hb ha =>
    rw [find?_of_lacks (lacks_append.mpr ⟨hb, ha⟩)] at hFind
    cases hFind

/-- After an insertion its key has the value, and every other key has what it had. -/
theorem Put.find?_map (h : Put key value es old es') (hd : Distinct es) (k : κ) :
    (find? k es').map (·.2) = if (key == k) = true then some value else (find? k es).map (·.2) := by
  cases h with
  | @overwrite before after stored old hb hs =>
    by_cases hk : (key == k) = true
    · rw [if_pos hk, ← find?_congr hk, find?_split hb hs]
      rfl
    · have hn : (stored == k) = false := by
        rw [BEq.congr_left hs, Bool.eq_false_iff]
        exact hk
      rw [if_neg hk, find?_skip hn, find?_skip hn]
  | @add before after hb ha hh =>
    by_cases hk : (key == k) = true
    · rw [if_pos hk, ← find?_congr hk, find?_split hb (BEq.refl key)]
      rfl
    · have hn : (key == k) = false := Bool.eq_false_iff.mpr hk
      rw [if_neg hk, find?_skip hn]

theorem Cut.distinct (h : Cut key es taken es') (hd : Distinct es) : Distinct es' :=
  (distinct_cons.mp (hd.perm h.perm)).2

omit [HashCode κ] in
/-- Taking an entry out, from wherever it is, leaves its key without one and every other key with
the one that it had. -/
theorem find?_of_perm_cons (hd : Distinct es) (hp : es.Perm (taken :: es'))
    (ht : (taken.1 == key) = true) (k : κ) :
    find? k es' = if (key == k) = true then none else find? k es := by
  have hd' : Distinct (taken :: es') := hd.perm hp
  rw [find?_perm hd hp]
  by_cases hk : (key == k) = true
  · rw [if_pos hk, find?_of_lacks]
    exact (distinct_cons.mp hd').1.congr (by rw [BEq.congr_left ht, hk])
  · have hne : (taken.1 == k) = false := by
      rw [BEq.congr_left ht, Bool.eq_false_iff]
      exact hk
    rw [if_neg hk, find?_cons_other hne]

end Lookup

end Changes

end PersistentCollections.HashTrieMap.Entries
