/-!
# Going along a list

The collections here have iterators, which are used up, and cursors, which stay where they are. That
an iterator gives the members of a list is `GivesList`, and that a cursor walks along one is
`WalksAlong`: member by member, and with the number of those that are left right all the time.

A set hands on the steps of the iterator and the cursor of its map. What goes along a list of
entries goes along the list of their keys then (`GivesList.map`, `WalksAlong.map`).
-/

namespace PersistentCollections

variable {σ σ' α β : Type}

/-! ## Iterators -/

/-- The iterator gives these members, ends after them, and tells at each step how many are left;
`left it n` says that it tells `n`. -/
inductive GivesList (left : σ → Nat → Prop) (next : σ → Option (α × σ)) : σ → List α → Prop
  | done {it : σ} (hLeft : left it 0) (hNext : next it = none) : GivesList left next it []
  | step {it it' : σ} {a : α} {l : List α} (hLeft : left it (l.length + 1))
    (hNext : next it = some (a, it')) (hRest : GivesList left next it' l) :
    GivesList left next it (a :: l)

section

variable {left : σ → Nat → Prop} {next : σ → Option (α × σ)} {rest : σ → List α} {it : σ}
  {l : List α}

/-- If each step takes one member off what is left, an iterator that tells their number gives what
is left. -/
theorem givesList_rest
    (hStep : ∀ it, (next it = none ∧ rest it = []) ∨
      ∃ a it', next it = some (a, it') ∧ rest it = a :: rest it' ∧
        ∀ n, left it (n + 1) → left it' n)
    (hRest : rest it = l) (hLeft : left it l.length) : GivesList left next it l := by
  induction l generalizing it with
  | nil =>
    rcases hStep it with ⟨hNext, -⟩ | ⟨a, it', -, hCons, -⟩
    · exact .done hLeft hNext
    · cases hRest.symm.trans hCons
  | cons a l ih =>
    rcases hStep it with ⟨-, hNil⟩ | ⟨a', it', hNext, hCons, hLess⟩
    · cases hRest.symm.trans hNil
    · cases hRest.symm.trans hCons
      exact .step hLeft hNext (ih rfl (hLess _ hLeft))

theorem GivesList.map {left' : σ' → Nat → Prop} {next' : σ' → Option (β × σ')} {f : σ → σ'}
    {g : α → β} (hLeft : ∀ it n, left it n → left' (f it) n)
    (hNext : ∀ it, next' (f it) = (next it).map fun r => (g r.1, f r.2))
    (h : GivesList left next it l) : GivesList left' next' (f it) (l.map g) := by
  induction h with
  | done hDone hNone => exact .done (hLeft _ _ hDone) (by rw [hNext, hNone]; rfl)
  | @step it _ _ l hMore hSome _ ih =>
    rw [← l.length_map (f := g)] at hMore
    exact .step (hLeft it _ hMore) (by rw [hNext, hSome]; rfl) ih

end

/-! ## Cursors -/

/-- The cursor stands on the first of these members, counts them right, and moves along the others;
no cursor stands for no members. -/
def WalksAlong (stands : σ → α → Prop) (count : σ → Nat) (next : σ → Option σ) :
    Option σ → List α → Prop
  | none, [] => True
  | some c, a :: l =>
    stands c a ∧ count c = l.length + 1 ∧ WalksAlong stands count next (next c) l
  | none, _ :: _ => False
  | some _, [] => False

section

variable {stands : σ → α → Prop} {count : σ → Nat} {next : σ → Option σ} {c : Option σ}
  {l : List α}

theorem WalksAlong.eq_none_iff (h : WalksAlong stands count next c l) : c = none ↔ l = [] := by
  cases c with
  | none =>
    cases l with
    | nil => exact iff_of_true rfl rfl
    | cons a l => exact h.elim
  | some c =>
    cases l with
    | nil => exact h.elim
    | cons a l => exact iff_of_false (Option.some_ne_none c) (List.cons_ne_nil a l)

theorem WalksAlong.map {stands' : σ' → β → Prop} {count' : σ' → Nat} {next' : σ' → Option σ'}
    {f : σ → σ'} {g : α → β} (hStands : ∀ c a, stands c a → stands' (f c) (g a))
    (hCount : ∀ c, count' (f c) = count c) (hNext : ∀ c, next' (f c) = (next c).map f)
    (h : WalksAlong stands count next c l) :
    WalksAlong stands' count' next' (c.map f) (l.map g) := by
  induction l generalizing c with
  | nil =>
    cases c with
    | none => trivial
    | some c => exact h
  | cons a l ih =>
    cases c with
    | none => exact h
    | some c =>
      obtain ⟨hFirst, hNumber, hRest⟩ := h
      refine ⟨hStands c a hFirst, ?_, ?_⟩
      · rw [hCount, hNumber, List.length_map]
      · rw [hNext]
        exact ih hRest

end

end PersistentCollections
