import Mathlib.Data.List.Forall2
import PersistentCollections.Bench.Input
import PersistentCollections.Bench.Progress
import PersistentCollections.Proofs.Outcome

/-!
# Workloads in lockstep

A workload that runs on two kinds of collections takes the same steps on both. `Lockstep R x y` says
that two computations both give a value and that the values are related, and it goes through
sequences and folds. What is related of two runs of a workload is in `Progress.Related`: the present
collections, the snapshots one by one, and the checksums, which are equal. A digest of contents does
not depend on their order.
-/

namespace PersistentCollections

/-! ## Results -/

/-- Both computations give a value, and the values are related. -/
def Lockstep {α β : Type} (R : α → β → Prop) (x : Result α) (y : Result β) : Prop :=
  ∃ a b, x = .ok a ∧ y = .ok b ∧ R a b

namespace Lockstep

variable {α β γ δ : Type} {R : α → β → Prop} {S : γ → δ → Prop} {x : Result α} {y : Result β}
  {a : α} {b : β}

theorem ok (h : R a b) : Lockstep R (.ok a) (.ok b) := ⟨a, b, rfl, rfl, h⟩

theorem bind {f : α → Result γ} {g : β → Result δ} (h : Lockstep R x y)
    (hNext : ∀ a b, R a b → Lockstep S (f a) (g b)) : Lockstep S (x >>= f) (y >>= g) := by
  obtain ⟨a, b, rfl, rfl, hab⟩ := h
  exact hNext a b hab

/-- Folds over two lists with related members, if each step keeps the accumulators related. -/
theorem foldlM {ε ζ : Type} {T : ε → ζ → Prop} {f : α → ε → Result α} {g : β → ζ → Result β}
    (hStep : ∀ a b e e', R a b → T e e' → Lockstep R (f a e) (g b e')) {es : List ε}
    {es' : List ζ} (hMembers : List.Forall₂ T es es') (hab : R a b) :
    Lockstep R (es.foldlM f a) (es'.foldlM g b) := by
  induction hMembers generalizing a b with
  | nil => exact ok hab
  | cons hMember _ ih =>
    rw [List.foldlM_cons, List.foldlM_cons]
    exact (hStep _ _ _ _ hab hMember).bind fun _ _ hNext => ih hNext

/-- Folds over the same list. -/
theorem foldlM_same {ε : Type} {f : α → ε → Result α} {g : β → ε → Result β}
    (hStep : ∀ a b e, R a b → Lockstep R (f a e) (g b e)) (es : List ε) (hab : R a b) :
    Lockstep R (es.foldlM f a) (es.foldlM g b) := by
  apply foldlM (T := Eq) _ (List.forall₂_refl es) hab
  rintro a b e _ hab rfl
  exact hStep a b e hab

/-- The first computation gives a value if the second does. -/
theorem ok_right (h : Lockstep R x (.ok b)) : ∃ a, x = .ok a ∧ R a b := by
  obtain ⟨a, b', hx, hb, hab⟩ := h
  cases hb
  exact ⟨a, hx, hab⟩

theorem of_succeeds {x : Logged α} (h : Succeeds x fun a => R a b) :
    Lockstep R x.value (.ok b) := by
  obtain ⟨a, ha, hab⟩ := h.value
  exact ⟨a, b, ha, rfl, hab⟩

theorem eq {x y : Result α} (h : Lockstep Eq x y) : x = y := by
  obtain ⟨a, _, hx, hy, rfl⟩ := h
  rw [hx, hy]

end Lockstep

/-! ## Digests -/

namespace Bench

theorem unorderedDigest_perm {words words' : List UInt64} (h : words.Perm words') :
    unorderedDigest words = unorderedDigest words' := by
  have hSum : words.foldl (fun sum x => sum + splitmix x) 0 =
      words'.foldl (fun sum x => sum + splitmix x) 0 := by
    apply h.foldl_eq'
    intro x _ y _ sum
    rw [UInt64.add_assoc, UInt64.add_comm (splitmix x), ← UInt64.add_assoc]
  unfold unorderedDigest
  rw [hSum, h.length_eq]

theorem entriesDigest_perm {es es' : List (UInt64 × UInt64)} (h : es.Perm es') :
    entriesDigest es = entriesDigest es' := by
  unfold entriesDigest
  rw [unorderedDigest_perm (h.map fun e => entryDigest e.1 e.2)]

end Bench

/-! ## Progress -/

namespace Bench.Progress

variable {σ τ σ' τ' : Type} {R : σ → σ' → Prop} {S : τ → τ' → Prop} {p : Progress σ τ}
  {q : Progress σ' τ'}

section

variable (p : Progress σ τ)

-- The progress is taken apart first: compared whole, it makes the checksums be computed.
@[simp] theorem observe_current (x : UInt64) : (p.observe x).current = p.current := by
  obtain ⟨current, snapshots, sum⟩ := p
  exact (rfl : (Progress.observe ⟨current, snapshots, sum⟩ x).current = current)

@[simp] theorem observe_snapshots (x : UInt64) : (p.observe x).snapshots = p.snapshots := by
  obtain ⟨current, snapshots, sum⟩ := p
  exact (rfl : (Progress.observe ⟨current, snapshots, sum⟩ x).snapshots = snapshots)

@[simp] theorem observe_sum (x : UInt64) : (p.observe x).sum = p.sum.mix x := by
  obtain ⟨current, snapshots, sum⟩ := p
  exact (rfl : (Progress.observe ⟨current, snapshots, sum⟩ x).sum = sum.mix x)

@[simp] theorem observeOption_current (x : Option UInt64) :
    (p.observeOption x).current = p.current := by
  obtain ⟨current, snapshots, sum⟩ := p
  exact (rfl : (Progress.observeOption ⟨current, snapshots, sum⟩ x).current = current)

@[simp] theorem observeOption_snapshots (x : Option UInt64) :
    (p.observeOption x).snapshots = p.snapshots := by
  obtain ⟨current, snapshots, sum⟩ := p
  exact (rfl : (Progress.observeOption ⟨current, snapshots, sum⟩ x).snapshots = snapshots)

@[simp] theorem observeOption_sum (x : Option UInt64) :
    (p.observeOption x).sum = p.sum.mixOption x := by
  obtain ⟨current, snapshots, sum⟩ := p
  exact (rfl : (Progress.observeOption ⟨current, snapshots, sum⟩ x).sum = sum.mixOption x)

@[simp] theorem keep_snapshots (taken : τ × σ) :
    (p.keep taken).snapshots = p.snapshots.push taken.1 := rfl

end

/-- Two runs have related collections and equal checksums. -/
structure Related (R : σ → σ' → Prop) (S : τ → τ' → Prop) (p : Progress σ τ)
    (q : Progress σ' τ') : Prop where
  current : R p.current q.current
  snapshots : List.Forall₂ S p.snapshots.toList q.snapshots.toList
  sum : p.sum = q.sum

theorem related_start {a : σ} {b : σ'} (h : R a b) :
    Related R S (.start a) (.start b) := ⟨h, List.Forall₂.nil, rfl⟩

/-- The present collections change. -/
theorem Related.go {a : σ} {b : σ'} (h : Related R S p q) (hab : R a b) :
    Related R S { p with current := a } { q with current := b } := ⟨hab, h.snapshots, h.sum⟩

/-- The checksums change, and to the same. -/
theorem Related.resum (h : Related R S p q) (sum : Checksum) :
    Related R S { p with sum := sum } { q with sum := sum } := ⟨h.current, h.snapshots, rfl⟩

theorem Related.observe (h : Related R S p q) (x : UInt64) :
    Related R S (p.observe x) (q.observe x) := by
  refine ⟨?_, ?_, ?_⟩
  · rw [observe_current, observe_current]
    exact h.current
  · rw [observe_snapshots, observe_snapshots]
    exact h.snapshots
  · rw [observe_sum, observe_sum, h.sum]

theorem Related.observeOption (h : Related R S p q) (x : Option UInt64) :
    Related R S (p.observeOption x) (q.observeOption x) := by
  refine ⟨?_, ?_, ?_⟩
  · rw [observeOption_current, observeOption_current]
    exact h.current
  · rw [observeOption_snapshots, observeOption_snapshots]
    exact h.snapshots
  · rw [observeOption_sum, observeOption_sum, h.sum]

theorem Related.keep {taken : τ × σ} {taken' : τ' × σ'} (h : Related R S p q)
    (hTaken : S taken.1 taken'.1) (hGo : R taken.2 taken'.2) :
    Related R S (p.keep taken) (q.keep taken') := by
  refine ⟨hGo, ?_, h.sum⟩
  rw [keep_snapshots, keep_snapshots, Array.toList_push, Array.toList_push]
  exact List.rel_append h.snapshots (List.Forall₂.cons hTaken List.Forall₂.nil)

/-- The last snapshots are related, or there is none. -/
theorem Related.last (h : Related R S p q) :
    Option.Rel S p.snapshots.back? q.snapshots.back? := by
  rw [← Array.getLast?_toList, ← Array.getLast?_toList, List.getLast?_eq_head?_reverse,
    List.getLast?_eq_head?_reverse]
  have hReverse := List.forall₂_reverse_iff.mpr h.snapshots
  generalize p.snapshots.toList.reverse = before, q.snapshots.toList.reverse = after at hReverse ⊢
  cases hReverse with
  | nil => exact Option.Rel.none
  | cons hLast _ => exact Option.Rel.some hLast

/-! ## Snapshots -/

/-- The snapshots that were there are still there, and one has come for each that was asked for. -/
def Grows (p : Progress σ τ) (operations : List Operation) (q : Progress σ τ) : Prop :=
  ∃ more, q.snapshots.toList = p.snapshots.toList ++ more ∧
    more.length = operations.count .snapshot

theorem grows_refl (p : Progress σ τ) : p.Grows [] p := ⟨[], (List.append_nil _).symm, rfl⟩

theorem grows_of_eq {p q : Progress σ τ} {operation : Operation}
    (hOperation : operation ≠ .snapshot) (h : q.snapshots = p.snapshots) :
    p.Grows [operation] q := by
  refine ⟨[], ?_, ?_⟩
  · rw [h, List.append_nil]
  · rw [List.count_singleton, if_neg (by simpa using hOperation)]
    rfl

theorem grows_keep (p : Progress σ τ) (taken : τ × σ) : p.Grows [.snapshot] (p.keep taken) := by
  refine ⟨[taken.1], ?_, ?_⟩
  · rw [keep_snapshots, Array.toList_push]
  · rw [List.count_singleton_self]
    rfl

theorem Grows.trans {p q r : Progress σ τ} {operations operations' : List Operation}
    (h : p.Grows operations q) (h' : q.Grows operations' r) :
    p.Grows (operations ++ operations') r := by
  obtain ⟨more, hMore, hCount⟩ := h
  obtain ⟨more', hMore', hCount'⟩ := h'
  refine ⟨more ++ more', ?_, ?_⟩
  · rw [hMore', hMore, List.append_assoc]
  · rw [List.length_append, List.count_append, hCount, hCount']

theorem Grows.size_eq {p q : Progress σ τ} {operations : List Operation}
    (h : p.Grows operations q) :
    q.snapshots.size = p.snapshots.size + operations.count .snapshot := by
  obtain ⟨more, hMore, hCount⟩ := h
  have hLength := congrArg List.length hMore
  rw [List.length_append, Array.length_toList, Array.length_toList, hCount] at hLength
  exact hLength

/-- A snapshot that was kept stays at its place. -/
theorem Grows.kept {p q : Progress σ τ} {taken : τ × σ} {operations : List Operation}
    (h : (p.keep taken).Grows operations q) : q.snapshots[p.snapshots.size]? = some taken.1 := by
  obtain ⟨more, hMore, -⟩ := h
  rw [keep_snapshots, Array.toList_push, List.append_assoc] at hMore
  rw [← Array.getElem?_toList, hMore, ← Array.length_toList,
    List.getElem?_append_right (Nat.le_refl _), Nat.sub_self]
  rfl

end Bench.Progress

end PersistentCollections
