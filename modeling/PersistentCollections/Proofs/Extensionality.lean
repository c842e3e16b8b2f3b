import PersistentCollections.Proofs.Versions

/-!
# Equality of hash maps and of hash sets

Two hash maps that arise in stores, in the same or in different ones, are equal if a lookup of any
key answers the same in both, up to equality of values. Two hash sets are if they have the same
elements. So both equalities are equivalence relations, and equal maps and equal sets have the same
hash, whatever their histories and forms (`equals_extensional`).
-/

namespace PersistentCollections

/-- A comparison of what has a property decides whether it is the same, so it is an equivalence
relation, and a hash respects it. -/
structure Extensional {τ : Type} (P : τ → Prop) (equals : τ → τ → Result Bool)
    (Same : τ → τ → Prop) (hash : τ → UInt32) : Prop where
  verdict : ∀ a b, P a → P b → ∃ verdict, equals a b = .ok verdict ∧ (verdict = true ↔ Same a b)
  refl : ∀ a, P a → equals a a = .ok true
  symm : ∀ a b, P a → P b → equals a b = .ok true → equals b a = .ok true
  trans : ∀ a b d, P a → P b → P d →
    equals a b = .ok true → equals b d = .ok true → equals a d = .ok true
  hash : ∀ a b, P a → P b → equals a b = .ok true → hash a = hash b

/-- It is enough to look at what the comparison decides. -/
theorem Extensional.of_verdict {τ : Type} {P : τ → Prop} {equals : τ → τ → Result Bool}
    {Same : τ → τ → Prop} {hash : τ → UInt32}
    (hVerdict : ∀ a b, P a → P b →
      ∃ verdict, equals a b = .ok verdict ∧ (verdict = true ↔ Same a b))
    (hRefl : ∀ a, P a → Same a a) (hSymm : ∀ a b, P a → P b → Same a b → Same b a)
    (hTrans : ∀ a b d, P a → P b → P d → Same a b → Same b d → Same a d)
    (hHash : ∀ a b, P a → P b → Same a b → hash a = hash b) :
    Extensional P equals Same hash := by
  have hIff : ∀ {a b}, P a → P b → (equals a b = .ok true ↔ Same a b) := by
    intro a b ha hb
    obtain ⟨verdict, hEquals, hDecides⟩ := hVerdict a b ha hb
    rw [hEquals, ← hDecides, Except.ok.injEq]
  exact {
    verdict := hVerdict
    refl := fun a ha => (hIff ha ha).mpr (hRefl a ha)
    symm := fun a b ha hb h => (hIff hb ha).mpr (hSymm a b ha hb ((hIff ha hb).mp h))
    trans := fun a b d ha hb hd h h' =>
      (hIff ha hd).mpr (hTrans a b d ha hb hd ((hIff ha hb).mp h) ((hIff hb hd).mp h'))
    hash := fun a b ha hb h => hHash a b ha hb ((hIff ha hb).mp h) }

section

variable {κ ν : Type} [BEq κ] [HashCode κ] [LawfulHashCode κ]

/-! ## Maps -/

namespace HashTrieMap

variable [BEq ν] {a b : HashTrieMap κ ν}

/-- A lookup of any key finds nothing in both maps, or equal values. -/
def SameAnswers (a b : HashTrieMap κ ν) : Prop :=
  ∀ key, ∃ o o', a.get? key = .ok o ∧ b.get? key = .ok o' ∧
    Option.Rel (fun v w => (v == w) = true) o o'

theorem sameAnswers_iff (ha : a.WellFormed) (hb : b.WellFormed) :
    a.SameAnswers b ↔ a.SameValues b := by
  refine forall_congr' fun key => ?_
  rw [get?_eq ha, get?_eq hb]
  constructor
  · rintro ⟨o, o', ho, ho', hRel⟩
    cases ho
    cases ho'
    exact hRel
  · intro hRel
    exact ⟨_, _, rfl, rfl, hRel⟩

variable [EquivBEq ν] [HashCode ν]

theorem extensional (hValues : ∀ v w : ν, (v == w) = true → hashCode v = hashCode w) :
    Extensional (fun m : HashTrieMap κ ν => m.WellFormed ∧ m.Fresh) equals SameAnswers hash := by
  apply Extensional.of_verdict
  · rintro a b ⟨ha, hfa⟩ ⟨hb, hfb⟩
    rw [sameAnswers_iff ha hb]
    exact equals_verdict ha hb hfa hfb hValues
  · rintro a ⟨ha, -⟩
    rw [sameAnswers_iff ha ha]
    exact SameValues.refl a
  · rintro a b ⟨ha, -⟩ ⟨hb, -⟩ h
    rw [sameAnswers_iff ha hb] at h
    rw [sameAnswers_iff hb ha]
    exact h.symm
  · rintro a b d ⟨ha, -⟩ ⟨hb, -⟩ ⟨hd, -⟩ h h'
    rw [sameAnswers_iff ha hb] at h
    rw [sameAnswers_iff hb hd] at h'
    rw [sameAnswers_iff ha hd]
    exact h.trans h'
  · rintro a b ⟨ha, hfa⟩ ⟨hb, hfb⟩ h
    rw [hfa.hash_eq, hfb.hash_eq]
    exact ((sameAnswers_iff ha hb).mp h).contentHash_eq ha hb hValues

end HashTrieMap

/-! ## Sets -/

namespace HashTrieSet

variable {s other : HashTrieSet κ} {e e' : Finset (HashTrieMap.KeyClass κ)}

/-- Each element of one of the sets is one of the other. -/
def SameElements (s other : HashTrieSet κ) : Prop :=
  ∀ x, ∃ found, s.contains x = .ok found ∧ other.contains x = .ok found

theorem sameElements_iff (h : Holds s.map e) (h' : Holds other.map e') :
    s.SameElements other ↔ e = e' := by
  constructor
  · intro hSame
    ext c
    induction c using Quotient.ind with
    | _ x =>
    obtain ⟨found, hFound, hFound'⟩ := hSame x
    have hBoth := hFound.trans hFound'.symm
    rw [contains, contains, h.contains_eq, h'.contains_eq, Except.ok.injEq,
      decide_eq_decide] at hBoth
    exact hBoth
  · rintro rfl x
    exact ⟨_, h.contains_eq x, h'.contains_eq x⟩

theorem extensional : Extensional (fun s : HashTrieSet κ => (∃ e, Holds s.map e) ∧ s.Fresh) equals
    SameElements hash := by
  apply Extensional.of_verdict
  · rintro s other ⟨⟨e, hs⟩, -⟩ ⟨⟨e', ho⟩, -⟩
    rw [sameElements_iff hs ho]
    exact ⟨_, hs.equals_eq ho, decide_eq_true_iff⟩
  · rintro s ⟨⟨e, hs⟩, -⟩
    exact (sameElements_iff hs hs).mpr rfl
  · rintro s other ⟨⟨e, hs⟩, -⟩ ⟨⟨e', ho⟩, -⟩ h
    exact (sameElements_iff ho hs).mpr ((sameElements_iff hs ho).mp h).symm
  · rintro s other last ⟨⟨e, hs⟩, -⟩ ⟨⟨e', ho⟩, -⟩ ⟨⟨e'', hl⟩, -⟩ h h'
    exact (sameElements_iff hs hl).mpr
      (((sameElements_iff hs ho).mp h).trans ((sameElements_iff ho hl).mp h'))
  · rintro s other ⟨⟨e, hs⟩, hfs⟩ ⟨⟨e', ho⟩, hfo⟩ h
    rw [hfs.hash_eq, hfo.hash_eq, hs.contentHash_eq, ho.contentHash_eq,
      (sameElements_iff hs ho).mp h]

end HashTrieSet

/-! ## Whatever arises -/

theorem Extensional.weaken {τ : Type} {P P' : τ → Prop} {equals : τ → τ → Result Bool}
    {Same : τ → τ → Prop} {hash : τ → UInt32} (h : Extensional P equals Same hash)
    (hP : ∀ a, P' a → P a) : Extensional P' equals Same hash where
  verdict a b ha hb := h.verdict a b (hP a ha) (hP b hb)
  refl a ha := h.refl a (hP a ha)
  symm a b ha hb := h.symm a b (hP a ha) (hP b hb)
  trans a b d ha hb hd := h.trans a b d (hP a ha) (hP b hb) (hP d hd)
  hash a b ha hb := h.hash a b (hP a ha) (hP b hb)

/-- Hash maps that arise are equal if they have equal values at the same keys, and hash sets are if
they have the same elements. Both are equivalence relations, and the hashes respect them. -/
theorem equals_extensional [BEq ν] [EquivBEq ν] [HashCode ν]
    (hValues : ∀ v w : ν, (v == w) = true → hashCode v = hashCode w) :
    Extensional (fun m : HashTrieMap κ ν => Arises (.hashMap (s := .frozen) m)) HashTrieMap.equals
        HashTrieMap.SameAnswers HashTrieMap.hash ∧
      Extensional (fun s : HashTrieSet κ => Arises (.hashSet (s := .frozen) s : Version κ ν))
        HashTrieSet.equals HashTrieSet.SameElements HashTrieSet.hash := by
  constructor
  · refine (HashTrieMap.extensional hValues).weaken fun m hm => ?_
    obtain ⟨⟨f, hModels⟩, hf⟩ := hm.sound
    exact ⟨hModels.wellFormed, hf⟩
  · refine HashTrieSet.extensional.weaken fun s hs => ?_
    obtain ⟨hHolds, hf⟩ := hs.sound
    exact ⟨hHolds, hf⟩

end

/-- Eight entries of a flat map, and the same eight of a map that once had nine. -/
def eightEntries : HashTrieMap.Calls (Option UInt8) Int64 .frozen .frozen :=
  .cons .transient (.cons (.extend ((none, 9) :: (List.range 7).map fun i =>
    (some i.toUInt8, i.toInt64))) (.cons .freeze .nil))

def nineEntriesWithoutOne : HashTrieMap.Calls (Option UInt8) Int64 .frozen .frozen :=
  .cons .transient (.cons (.extend ((List.range 8).reverse.map fun i =>
    (some i.toUInt8, i.toInt64))) (.cons (.exchange none 9) (.cons (.drop (some 7))
      (.cons .freeze .nil))))

theorem equals_extensional_eightEntries :
    (∀ v w : Int64, (v == w) = true → hashCode v = hashCode w) ∧
    ∃ a b : HashTrieMap (Option UInt8) Int64, Arises (.hashMap (s := .frozen) a) ∧
      Arises (.hashMap (s := .frozen) b) ∧ a.size = 8 ∧ a.equals b = .ok true ∧
      b.equals a = .ok true ∧ a.hash = b.hash := by
  have hValues : ∀ v w : Int64, (v == w) = true → hashCode v = hashCode w :=
    fun _ _ h => LawfulHashCode.hashCode_eq h
  have hEmpty : Arises (.hashMap (s := .frozen) .empty : Version (Option UInt8) Int64) :=
    Makes.emptyMap.arises .refl
  have hModels : HashTrieMap.Models (HashTrieMap.Held.content (s := .frozen)
      (HashTrieMap.empty : HashTrieMap (Option UInt8) Int64)) ∅ := HashTrieMap.models_empty
  obtain ⟨es, ⟨answers, a⟩, hYields, ha⟩ := hEmpty.run eightEntries
  obtain ⟨es', ⟨answers', b⟩, hYields', hb⟩ := hEmpty.run nineEntriesWithoutOne
  obtain ⟨-, hma⟩ := (eightEntries.run_models hModels).ensures.of_yields hYields
  obtain ⟨-, hmb⟩ := (nineEntriesWithoutOne.run_models hModels).ensures.of_yields hYields'
  have hSame : (eightEntries.reference ∅).2 = (nineEntriesWithoutOne.reference ∅).2 := by
    decide +kernel
  obtain ⟨verdict, hEquals, hDecides⟩ := (equals_extensional hValues).1.verdict a b ha hb
  have hSameAnswers : HashTrieMap.SameAnswers a b := by
    intro key
    refine ⟨_, _, hma.agrees.get? key, hmb.agrees.get? key, ?_⟩
    rw [hSame]
    cases ((nineEntriesWithoutOne.reference ∅).2).lookup (.of key) with
    | none => exact Option.Rel.none
    | some v => exact Option.Rel.some BEq.rfl
  rw [hDecides.mpr hSameAnswers] at hEquals
  exact ⟨hValues, a, b, ha, hb, hma.agrees.size.trans (by decide +kernel), hEquals,
    (equals_extensional hValues).1.symm a b ha hb hEquals,
    (equals_extensional hValues).1.hash a b ha hb hEquals⟩

end PersistentCollections
