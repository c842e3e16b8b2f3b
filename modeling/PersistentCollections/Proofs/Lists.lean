import Mathlib.Data.List.Perm.Basic

/-!
# Lists

Filtering a list that is cut into a part with a property and a part without it, and matching the
members of two lists one to one: `Covers` compares lists up to order as the collections do, from
one side only.
-/

namespace PersistentCollections

section

variable {α : Type} {P : α → Bool} {before after : List α}

theorem filter_append_left (hb : ∀ a ∈ before, P a = true) (ha : ∀ a ∈ after, ¬ P a = true) :
    (before ++ after).filter P = before := by
  rw [List.filter_append, List.filter_eq_self.mpr hb, List.filter_eq_nil_iff.mpr ha,
    List.append_nil]

theorem filter_append_right (hb : ∀ a ∈ before, ¬ P a = true) (ha : ∀ a ∈ after, P a = true) :
    (before ++ after).filter P = after := by
  rw [List.filter_append, List.filter_eq_nil_iff.mpr hb, List.filter_eq_self.mpr ha,
    List.nil_append]

end

/-- Lists are compared place by place, so that both may change sides. -/
theorem list_beq_comm {α : Type} [BEq α] [PartialEquivBEq α] (l l' : List α) :
    (l == l') = (l' == l) := by
  induction l generalizing l' with
  | nil => cases l' <;> rfl
  | cons a l ih =>
    cases l' with
    | nil => rfl
    | cons b l' => rw [List.cons_beq_cons, List.cons_beq_cons, BEq.comm, ih]

/-- In a list in which a property goes over to earlier members, those with the property come
first. -/
theorem takeWhile_eq_filter {α : Type} {P : α → Bool} {l : List α}
    (h : l.Pairwise fun a b => P b = true → P a = true) : l.takeWhile P = l.filter P := by
  induction l with
  | nil => rfl
  | cons a l ih =>
    obtain ⟨hFirst, hRest⟩ := List.pairwise_cons.mp h
    by_cases ha : P a = true
    · rw [List.takeWhile_cons_of_pos ha, List.filter_cons_of_pos ha, ih hRest]
    · have hNone : l.filter P = [] := List.filter_eq_nil_iff.mpr fun b hb hP => ha (hFirst b hb hP)
      rw [List.takeWhile_cons_of_neg ha, List.filter_cons_of_neg ha, hNone]

section

variable {α β γ : Type} {R : α → β → Prop} {f : α → γ} {g : β → γ} {xs : List α} {ys : List β}

theorem forall₂_trans {S : β → γ → Prop} {T : α → γ → Prop} {zs : List γ}
    (hTrans : ∀ x y z, R x y → S y z → T x z) (h : List.Forall₂ R xs ys)
    (h' : List.Forall₂ S ys zs) : List.Forall₂ T xs zs := by
  induction h generalizing zs with
  | nil =>
    cases h'
    exact .nil
  | cons hxy _ ih =>
    cases h' with
    | cons hyz h' => exact .cons (hTrans _ _ _ hxy hyz) (ih h')

/-- If each member of one list matches some member of another, and no two match the same, then the
first list matches a part of the second, in some order, place by place. -/
theorem exists_matching (hEach : ∀ x ∈ xs, ∃ y ∈ ys, R x y)
    (hApart : xs.Pairwise fun x x' => ∀ y ∈ ys, R x y → ¬ R x' y) :
    ∃ zs, zs.Subperm ys ∧ List.Forall₂ R xs zs := by
  induction xs generalizing ys with
  | nil => exact ⟨[], List.nil_subperm, List.Forall₂.nil⟩
  | cons x xs ih =>
    obtain ⟨hFirst, hApart⟩ := List.pairwise_cons.mp hApart
    obtain ⟨y, hy, hxy⟩ := hEach x List.mem_cons_self
    obtain ⟨before, after, rfl⟩ := List.append_of_mem hy
    have hOthers : ∀ {z}, z ∈ before ++ after → z ∈ before ++ y :: after := by
      intro z hz
      rw [List.mem_append] at hz ⊢
      exact hz.imp_right (List.mem_cons_of_mem y)
    have hRest : ∃ zs, zs.Subperm (before ++ after) ∧ List.Forall₂ R xs zs := by
      apply ih
      · intro x' hx'
        obtain ⟨y', hy', hxy'⟩ := hEach x' (List.mem_cons_of_mem x hx')
        refine ⟨y', ?_, hxy'⟩
        simp only [List.mem_append, List.mem_cons] at hy' ⊢
        rcases hy' with hy' | rfl | hy'
        · exact Or.inl hy'
        · exact (hFirst x' hx' y' hy hxy hxy').elim
        · exact Or.inr hy'
      · exact hApart.imp fun h z hz => h z (hOthers hz)
    obtain ⟨zs, hPart, hMatch⟩ := hRest
    refine ⟨y :: zs, ?_, hMatch.cons hxy⟩
    exact ((List.subperm_cons y).mpr hPart).trans List.perm_middle.symm.subperm

/-- Then the first list is not longer than the second. -/
theorem length_le_of_matching (hEach : ∀ x ∈ xs, ∃ y ∈ ys, R x y)
    (hApart : xs.Pairwise fun x x' => ∀ y ∈ ys, R x y → ¬ R x' y) : xs.length ≤ ys.length := by
  obtain ⟨zs, hPart, hMatch⟩ := exists_matching hEach hApart
  rw [hMatch.length_eq]
  exact hPart.length_le

/-- And if it is as long, it matches all of the second. -/
theorem exists_matching_perm (hLength : xs.length = ys.length) (hEach : ∀ x ∈ xs, ∃ y ∈ ys, R x y)
    (hApart : xs.Pairwise fun x x' => ∀ y ∈ ys, R x y → ¬ R x' y) :
    ∃ zs, zs.Perm ys ∧ List.Forall₂ R xs zs := by
  obtain ⟨zs, hPart, hMatch⟩ := exists_matching hEach hApart
  refine ⟨zs, hPart.perm_of_length_le ?_, hMatch⟩
  rw [← hMatch.length_eq]
  exact Nat.le_of_eq hLength.symm

/-- Then a function that agrees on matching members has the same values on both lists, up to
order. -/
theorem map_perm_of_matching (hLength : xs.length = ys.length)
    (hEach : ∀ x ∈ xs, ∃ y ∈ ys, R x y)
    (hApart : xs.Pairwise fun x x' => ∀ y ∈ ys, R x y → ¬ R x' y)
    (hAgree : ∀ x ∈ xs, ∀ y ∈ ys, R x y → f x = g y) : (xs.map f).Perm (ys.map g) := by
  have hEachAgree : ∀ x ∈ xs, ∃ y ∈ ys, R x y ∧ f x = g y := by
    intro x hx
    obtain ⟨y, hy, hxy⟩ := hEach x hx
    exact ⟨y, hy, hxy, hAgree x hx y hy hxy⟩
  have hApartAgree : xs.Pairwise fun x x' =>
      ∀ y ∈ ys, R x y ∧ f x = g y → ¬ (R x' y ∧ f x' = g y) :=
    hApart.imp fun h y hy hxy hxy' => h y hy hxy.1 hxy'.1
  obtain ⟨zs, hPerm, hMatch⟩ := exists_matching_perm hLength hEachAgree hApartAgree
  have hSame : xs.map f = zs.map g := by
    rw [← List.forall₂_eq_eq_eq, List.forall₂_map_left_iff, List.forall₂_map_right_iff]
    exact hMatch.imp fun _ _ h => h.2
  rw [hSame]
  exact hPerm.map g

/-- Then each member of the second list is matched. -/
theorem exists_match_of_mem (hLength : xs.length = ys.length) (hEach : ∀ x ∈ xs, ∃ y ∈ ys, R x y)
    (hApart : xs.Pairwise fun x x' => ∀ y ∈ ys, R x y → ¬ R x' y) {y : β} (hy : y ∈ ys) :
    ∃ x ∈ xs, R x y := by
  obtain ⟨zs, hPerm, hMatch⟩ := exists_matching_perm hLength hEach hApart
  have hMem : y ∈ zs := hPerm.mem_iff.mpr hy
  clear hPerm hLength hEach hApart
  induction hMatch with
  | nil => cases hMem
  | @cons x z xs zs hxz _ ih =>
    rcases List.mem_cons.mp hMem with rfl | hMem
    · exact ⟨x, List.mem_cons_self, hxz⟩
    · obtain ⟨x', hx', hxy⟩ := ih hMem
      exact ⟨x', List.mem_cons_of_mem x hx', hxy⟩

end

/-! ## Covers -/

/-- Two lists are equally long, and each member of the first matches one of the second. -/
def Covers {α β : Type} (R : α → β → Prop) (xs : List α) (ys : List β) : Prop :=
  xs.length = ys.length ∧ ∀ x ∈ xs, ∃ y ∈ ys, R x y

-- Found for a list of any type: for a finite type a search over the whole type would be found.
instance {α β : Type} (R : α → β → Prop) [∀ x y, Decidable (R x y)] (xs : List α) (ys : List β) :
    Decidable (Covers R xs ys) :=
  inferInstanceAs (Decidable (_ ∧ _))

namespace Covers

variable {α β γ : Type} {R : α → β → Prop} {xs : List α} {ys : List β}

theorem refl {R : α → α → Prop} (h : ∀ x ∈ xs, R x x) : Covers R xs xs :=
  ⟨rfl, fun x hx => ⟨x, hx, h x hx⟩⟩

/-- Covers go both ways if no two members of the first list match the same. -/
theorem symm {S : β → α → Prop} (h : Covers R xs ys)
    (hApart : xs.Pairwise fun x x' => ∀ y ∈ ys, R x y → ¬ R x' y)
    (hSymm : ∀ x ∈ xs, ∀ y ∈ ys, R x y → S y x) : Covers S ys xs := by
  refine ⟨h.1.symm, ?_⟩
  intro y hy
  obtain ⟨x, hx, hxy⟩ := exists_match_of_mem h.1 h.2 hApart hy
  exact ⟨x, hx, hSymm x hx y hy hxy⟩

theorem trans {S : β → γ → Prop} {T : α → γ → Prop} {zs : List γ} (h : Covers R xs ys)
    (h' : Covers S ys zs)
    (hTrans : ∀ x ∈ xs, ∀ y ∈ ys, ∀ z ∈ zs, R x y → S y z → T x z) : Covers T xs zs := by
  refine ⟨h.1.trans h'.1, ?_⟩
  intro x hx
  obtain ⟨y, hy, hxy⟩ := h.2 x hx
  obtain ⟨z, hz, hyz⟩ := h'.2 y hy
  exact ⟨z, hz, hTrans x hx y hy z hz hxy hyz⟩

end Covers

end PersistentCollections
