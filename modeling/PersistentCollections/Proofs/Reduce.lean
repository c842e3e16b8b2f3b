import PersistentCollections.Reduce

/-!
# Folds over lists

The fold over a list that the step function can stop, in any lawful monad: a fold over two lists is
the fold over the one and then, unless it was stopped, the fold over the other.

What comes out of such a fold, and which members the step function is applied to, is that of a left
fold that goes on to the first member at which it is stopped (`FoldsTo`). A step function that
writes down what it is applied to shows this (`visitList_recording`). A fold of a collection is
compared with the list of the collection by `Reduces`.
-/

namespace PersistentCollections

section

variable {m : Type → Type} [Monad m] {α β : Type}

/-- Go on with a fold, unless it was stopped. -/
def proceed (x : m (ForInStep β)) (next : β → m (ForInStep β)) : m (ForInStep β) := do
  match ← x with
  | .done b => return .done b
  | .yield b => next b

theorem visitList_cons (f : β → α → m (ForInStep β)) (x : α) (xs : List α) (b : β) :
    visitList f (x :: xs) b = proceed (f b x) (visitList f xs) := rfl

/-- The fold over what a function makes of the members. -/
theorem visitList_map {γ : Type} (f : β → γ → m (ForInStep β)) (g : α → γ) (xs : List α) (b : β) :
    visitList f (xs.map g) b = visitList (fun b x => f b (g x)) xs b := by
  induction xs generalizing b with
  | nil => rfl
  | cons x xs ih =>
    rw [List.map_cons, visitList_cons, visitList_cons, funext ih]

/-- A fold that goes from state to state, each of which has one member less ahead, is the fold over
the members that are ahead. -/
theorem eq_visitList {σ : Type} (next : σ → Option (α × σ)) (ahead : σ → List α)
    {f : β → α → m (ForInStep β)} {visit : σ → β → m (ForInStep β)}
    (hStep : ∀ s, (next s = none ∧ ahead s = []) ∨
      ∃ a s', next s = some (a, s') ∧ ahead s = a :: ahead s')
    (hEnd : ∀ s, next s = none → visit s = fun b => pure (.yield b))
    (hNext : ∀ s a s', next s = some (a, s') → visit s = fun b => proceed (f b a) (visit s'))
    (s : σ) (b : β) : visit s b = visitList f (ahead s) b := by
  induction hAhead : ahead s generalizing s b with
  | nil =>
    rcases hStep s with ⟨hNone, -⟩ | ⟨a, s', -, hCons⟩
    · rw [hEnd s hNone]
      rfl
    · cases hAhead.symm.trans hCons
  | cons a l ih =>
    rcases hStep s with ⟨-, hNil⟩ | ⟨a', s', hSome, hCons⟩
    · cases hAhead.symm.trans hNil
    · cases hAhead.symm.trans hCons
      rw [hNext s a s' hSome, visitList_cons, ← funext fun b => ih s' b rfl]

variable [LawfulMonad m]

theorem proceed_yield (b : β) (next : β → m (ForInStep β)) :
    proceed (pure (.yield b)) next = next b := by
  unfold proceed
  rw [pure_bind]

theorem proceed_proceed (x : m (ForInStep β)) (next next' : β → m (ForInStep β)) :
    proceed (proceed x next) next' = proceed x fun b => proceed (next b) next' := by
  unfold proceed
  rw [bind_assoc]
  apply bind_congr
  intro outcome
  cases outcome with
  | done b => rw [pure_bind]
  | yield b => rfl

theorem visitList_append (f : β → α → m (ForInStep β)) (xs ys : List α) (b : β) :
    visitList f (xs ++ ys) b = proceed (visitList f xs b) (visitList f ys) := by
  induction xs generalizing b with
  | nil => exact (proceed_yield b _).symm
  | cons x xs ih =>
    rw [List.cons_append, visitList_cons, visitList_cons, proceed_proceed]
    congr 1
    funext b
    exact ih b

/-- The final value of a fold whose first step was made apart. -/
theorem finalValue_proceed (x : m (ForInStep β)) (next : β → m (ForInStep β)) :
    finalValue <$> proceed x next = (do
      match ← x with
      | .done b => return b
      | .yield b => finalValue <$> next b) := by
  unfold proceed
  rw [map_bind]
  apply bind_congr
  intro outcome
  cases outcome with
  | done b => exact map_pure finalValue (ForInStep.done b)
  | yield b => rfl

/-- What is read without failure goes into the computation as it is. -/
theorem liftResult_bind (a : α) (f : α → ExceptT Error m β) :
    (liftResult (.ok a) >>= f) = f a := by
  apply ExceptT.ext
  show (pure (Except.ok a) : m (Except Error α)) >>= ExceptT.bindCont f = _
  rw [pure_bind]
  rfl

end

/-! ## What a fold that can stop comes to -/

section

variable {α β : Type}

/-- The next accumulator, if the step function goes on. -/
def continued : ForInStep β → Option β
  | .yield b => some b
  | .done _ => none

/-- The step function goes on through all of these members, to this accumulator. -/
def GoesOn (f : β → α → ForInStep β) (b : β) (l : List α) (acc : β) : Prop :=
  l.foldlM (fun b x => continued (f b x)) b = some acc

/-- The left fold over a list, with the result and the members that the step function is applied
to: it stops at the first member at which the step function says so, or goes on to the end. -/
inductive FoldsTo (f : β → α → ForInStep β) (b : β) : List α → β → List α → Prop
  | stopped {before after : List α} {x : α} {acc result : β} (hBefore : GoesOn f b before acc)
    (hStop : f acc x = .done result) : FoldsTo f b (before ++ x :: after) result (before ++ [x])
  | through {l : List α} {result : β} (h : GoesOn f b l result) : FoldsTo f b l result l

/-- A step function that writes down the members that it is applied to. -/
def recording (f : β → α → ForInStep β) (b : β) (x : α) : StateM (List α) (ForInStep β) := do
  modify (· ++ [x])
  return f b x

theorem GoesOn.cons {f : β → α → ForInStep β} {b b' acc : β} {x : α} {l : List α}
    (hStep : f b x = .yield b') (h : GoesOn f b' l acc) : GoesOn f b (x :: l) acc := by
  rw [GoesOn, List.foldlM_cons, hStep]
  exact h

theorem FoldsTo.cons {f : β → α → ForInStep β} {b b' result : β} {x : α} {l applied : List α}
    (hStep : f b x = .yield b') (h : FoldsTo f b' l result applied) :
    FoldsTo f b (x :: l) result (x :: applied) := by
  cases h with
  | stopped hBefore hStop => exact .stopped (hBefore.cons hStep) hStop
  | through h => exact .through (h.cons hStep)

/-- The fold over a list applies the step function as it should, and gives the right value. -/
theorem visitList_recording (f : β → α → ForInStep β) (l : List α) (b : β) (seen : List α) :
    ∃ result applied, FoldsTo f b l result applied ∧
      (finalValue <$> visitList (recording f) l b) seen = (result, seen ++ applied) := by
  induction l generalizing b seen with
  | nil => exact ⟨b, [], .through rfl, by rw [List.append_nil]; rfl⟩
  | cons x l ih =>
    have hFirst : (finalValue <$> visitList (recording f) (x :: l) b) seen =
        (match f b x with
          | .done b => (pure b : StateM (List α) β)
          | .yield b => finalValue <$> visitList (recording f) l b) (seen ++ [x]) := by
      rw [visitList_cons, finalValue_proceed]
      rfl
    rw [hFirst]
    cases hStep : f b x with
    | done r =>
      have hStopped : FoldsTo f b ([] ++ x :: l) r ([] ++ [x]) := .stopped rfl hStep
      exact ⟨r, [x], hStopped, rfl⟩
    | yield b' =>
      obtain ⟨result, applied, hFolds, hVisit⟩ := ih b' (seen ++ [x])
      refine ⟨result, x :: applied, hFolds.cons hStep, ?_⟩
      rw [List.append_assoc] at hVisit
      exact hVisit

/-- A fold of a collection, which runs the step function in a monad of the caller's choice and may
fail, is the fold over a list. It has the effects of the step function in the order of the list, up
to where it is stopped. A step function without effects is applied to the members that the left fold
over the list is applied to, once each and in their order, and the result is that of the left
fold. -/
structure Reduces (reduce : ∀ {m : Type → Type} [Monad m] {β : Type},
    (β → α → m (ForInStep β)) → β → ExceptT Error m β) (l : List α) : Prop where
  effects : ∀ {m : Type → Type} [Monad m] [LawfulMonad m] {β : Type}
    (f : β → α → m (ForInStep β)) (b : β),
    reduce f b = ExceptT.lift (finalValue <$> visitList f l b)
  applied : ∀ {β : Type} (f : β → α → ForInStep β) (b : β) (seen : List α),
    ∃ result applied, FoldsTo f b l result applied ∧
      reduce (recording f) b seen = (.ok result, seen ++ applied)

theorem Reduces.of_effects {reduce : ∀ {m : Type → Type} [Monad m] {β : Type},
    (β → α → m (ForInStep β)) → β → ExceptT Error m β} {l : List α}
    (h : ∀ {m : Type → Type} [Monad m] [LawfulMonad m] {β : Type}
      (f : β → α → m (ForInStep β)) (b : β),
      reduce f b = ExceptT.lift (finalValue <$> visitList f l b)) : Reduces reduce l where
  effects := h
  applied f b seen := by
    obtain ⟨result, applied, hFolds, hVisit⟩ := visitList_recording f l b seen
    refine ⟨result, applied, hFolds, ?_⟩
    rw [h]
    exact congrArg (fun p => ((.ok p.1 : Result _), p.2)) hVisit

end

end PersistentCollections
