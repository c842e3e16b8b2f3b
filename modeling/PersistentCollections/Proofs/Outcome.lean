import PersistentCollections.Event

/-!
# Outcomes of computations

A `Result` is a value or an error, and the first section is the algebra of that. A `Logged`
computation starts from the records that are there, and either gives a value and appends records
of its own, or stops with an error. What it does never depends on the records that were there:

* `Yields x events a`: from every log, `x` gives `a` and appends `events`;
* `Stops x e`: from every log, `x` stops with `e`.

`Succeeds x P` says of a computation that yields something that its value has the property `P`, and
`Ensures x P` that a value has it if there is one. `attempt` goes on after a computation that may
stop, with what was there before.

The lemmas follow the monad, so that the outcome of an operation is put together from the outcomes
of its parts.
-/

namespace PersistentCollections

variable {α β : Type}

/-! ## Results -/

@[simp] theorem Result.bind_ok (a : α) (f : α → Result β) : (Except.ok a >>= f) = f a := rfl

@[simp] theorem Result.bind_error (e : Error) (f : α → Result β) :
    ((Except.error e : Result α) >>= f) = .error e := rfl

@[simp] theorem Result.pure_eq (a : α) : (pure a : Result α) = .ok a := rfl

@[simp] theorem Result.map_ok (f : α → β) (a : α) : (f <$> (.ok a : Result α)) = .ok (f a) := rfl

/-- A sequence gives a value if both of its parts do, whatever the errors are. -/
theorem Result.bind_eq_ok {ε : Type} {x : Except ε α} {f : α → Except ε β} {b : β} :
    (x >>= f) = .ok b ↔ ∃ a, x = .ok a ∧ f a = .ok b := by
  cases x with
  | error e =>
    constructor
    · intro h
      cases h
    · rintro ⟨a, ha, -⟩
      cases ha
  | ok a =>
    constructor
    · intro h
      exact ⟨a, rfl, h⟩
    · rintro ⟨a', ha, h⟩
      cases ha
      exact h

theorem Result.map_eq_ok {f : α → β} {x : Result α} {b : β} :
    f <$> x = .ok b ↔ ∃ a, x = .ok a ∧ f a = b := by
  have h : f <$> x = x >>= fun a => .ok (f a) := by
    cases x with
    | error e => rfl
    | ok a => rfl
  rw [h, Result.bind_eq_ok]
  simp only [Except.ok.injEq]

/-- A search that goes on only with what it found finds nothing if there was nothing. -/
theorem Result.bind_eq_none {x : Result (Option α)} {f : Option α → Result (Option β)}
    (hNone : f none = .ok none) (hSome : ∀ a, f (some a) ≠ .ok none) :
    (x >>= f) = .ok none ↔ x = .ok none := by
  rw [Result.bind_eq_ok]
  constructor
  · rintro ⟨o, ho, h⟩
    cases o with
    | none => exact ho
    | some a => exact (hSome a h).elim
  · intro h
    exact ⟨none, h, hNone⟩

/-! ## Logged computations -/

/-- The computation gives `a` and appends `events` to whatever records there are. -/
def Yields (x : Logged α) (events : List Event) (a : α) : Prop :=
  ∀ log : Array Event, x log = .ok (a, log ++ events)

/-- The computation stops with `e`. -/
def Stops (x : Logged α) (e : Error) : Prop := ∀ log : Array Event, x log = .error e

theorem yields_pure (a : α) : Yields (pure a) [] a := by
  intro log
  show Except.ok (a, log) = .ok (a, log ++ [])
  rw [Array.appendList_nil]

theorem yields_record (e : Event) : Yields (record e) [e] () := fun _ => rfl

theorem yields_recordAll (es : List Event) : Yields (recordAll es) es () := fun _ => rfl

theorem yields_lift {r : Result α} {a : α} (h : r = .ok a) : Yields (liftM r) [] a := by
  subst h
  exact yields_pure a

theorem Yields.bind {x : Logged α} {f : α → Logged β} {es fs : List Event} {a : α} {b : β}
    (hx : Yields x es a) (hf : Yields (f a) fs b) : Yields (x >>= f) (es ++ fs) b := by
  intro log
  show (x log >>= fun p => f p.1 p.2) = _
  rw [hx log, Result.bind_ok, hf (log ++ es)]
  have he : log ++ es ++ fs = log ++ (es ++ fs) := Array.ext' (by simp)
  rw [he]

/-- A part that leaves no records hands its value on. -/
theorem Yields.pass {x : Logged α} {f : α → Logged β} {fs : List Event} {a : α} {b : β}
    (hx : Yields x [] a) (hf : Yields (f a) fs b) : Yields (x >>= f) fs b := hx.bind hf

theorem Yields.map {x : Logged α} {es : List Event} {a : α} (g : α → β) (hx : Yields x es a) :
    Yields (x >>= fun a => pure (g a)) es (g a) := by
  have h := hx.bind (f := fun a => pure (g a)) (yields_pure (g a))
  rwa [List.append_nil] at h

/-- What a computation gives and appends is determined. -/
theorem Yields.unique {x : Logged α} {es fs : List Event} {a b : α} (hx : Yields x es a)
    (hy : Yields x fs b) : es = fs ∧ a = b := by
  have h := (hx #[]).symm.trans (hy #[])
  simp only [Except.ok.injEq, Prod.mk.injEq] at h
  refine ⟨?_, h.1⟩
  simpa using congrArg Array.toList h.2

/-- The computation gives a value with a property. -/
def Succeeds (x : Logged α) (P : α → Prop) : Prop := ∃ events a, Yields x events a ∧ P a

theorem succeeds_pure {P : α → Prop} {a : α} (h : P a) : Succeeds (pure a) P :=
  ⟨[], a, yields_pure a, h⟩

theorem succeeds_lift {P : α → Prop} {r : Result α} {a : α} (hr : r = .ok a) (h : P a) :
    Succeeds (liftM r) P := ⟨[], a, yields_lift hr, h⟩

theorem succeeds_record (e : Event) : Succeeds (record e) fun _ => True :=
  ⟨[e], (), yields_record e, trivial⟩

theorem Succeeds.bind {P : α → Prop} {Q : β → Prop} {x : Logged α} {f : α → Logged β}
    (hx : Succeeds x P) (hf : ∀ a, P a → Succeeds (f a) Q) : Succeeds (x >>= f) Q := by
  obtain ⟨es, a, hy, ha⟩ := hx
  obtain ⟨fs, b, hy', hb⟩ := hf a ha
  exact ⟨es ++ fs, b, hy.bind hy', hb⟩

/-- What is left if the records are forgotten. -/
theorem Succeeds.value {P : α → Prop} {x : Logged α} (h : Succeeds x P) :
    ∃ a, x.value = .ok a ∧ P a := by
  obtain ⟨es, a, hYields, ha⟩ := h
  refine ⟨a, ?_, ha⟩
  show (fun r : α × Array Event => r.1) <$> x #[] = .ok a
  rw [hYields #[], Result.map_ok]

/-- A fold follows a fold of the reference if each of its steps does. -/
theorem succeeds_foldlM {γ δ : Type} {R : α → δ → Prop} {g : α → γ → Logged α} {step : δ → γ → δ}
    (h : ∀ a d c, R a d → Succeeds (g a c) fun a' => R a' (step d c)) (cs : List γ) {a : α} {d : δ}
    (ha : R a d) : Succeeds (cs.foldlM g a) fun a' => R a' (cs.foldl step d) := by
  induction cs generalizing a d with
  | nil => exact succeeds_pure ha
  | cons c cs ih =>
    rw [List.foldlM_cons]
    exact (h a d c ha).bind fun _ ha' => ih ha'

theorem stops_throw (e : Error) : Stops (throw e : Logged α) e := fun _ => rfl

theorem stops_lift {r : Result α} {e : Error} (h : r = .error e) : Stops (liftM r) e := by
  subst h
  exact fun _ => rfl

theorem Stops.bind {x : Logged α} {f : α → Logged β} {e : Error} (hx : Stops x e) :
    Stops (x >>= f) e := by
  intro log
  show (x log >>= fun p => f p.1 p.2) = _
  rw [hx log, Result.bind_error]

/-! ## Properties of every outcome -/

/-- Whatever the computation gives has a property; it may stop as well. -/
def Ensures (x : Logged α) (P : α → Prop) : Prop :=
  ∀ (log log' : Array Event) (a : α), x log = .ok (a, log') → P a

section

variable {P : α → Prop} {Q : β → Prop} {x : Logged α} {f : α → Logged β} {a : α}

theorem ensures_pure (h : P a) : Ensures (pure a) P := by
  intro log log' b hb
  cases hb
  exact h

theorem ensures_throw (e : Error) : Ensures (throw e) P := by
  intro log log' b hb
  cases hb

theorem ensures_true (x : Logged α) : Ensures x fun _ => True := fun _ _ _ _ => trivial

theorem ensures_lift {r : Result α} (h : ∀ a, r = .ok a → P a) : Ensures (liftM r) P := by
  cases r with
  | error e => exact ensures_throw e
  | ok a => exact ensures_pure (h a rfl)

theorem Ensures.bind (hx : Ensures x P) (hf : ∀ a, P a → Ensures (f a) Q) :
    Ensures (x >>= f) Q := by
  intro log log' b hb
  obtain ⟨⟨a, log₁⟩, ha, hb⟩ := Result.bind_eq_ok.mp hb
  exact hf a (hx log log₁ a ha) log₁ log' b hb

theorem Ensures.mono {P' : α → Prop} (hx : Ensures x P) (h : ∀ a, P a → P' a) : Ensures x P' :=
  fun log log' a ha => h a (hx log log' a ha)

theorem Ensures.of_yields {es : List Event} (hx : Ensures x P) (hy : Yields x es a) : P a :=
  hx #[] _ a (hy #[])

theorem Ensures.and {P' : α → Prop} (hx : Ensures x P) (hx' : Ensures x P') :
    Ensures x fun a => P a ∧ P' a :=
  fun log log' a ha => ⟨hx log log' a ha, hx' log log' a ha⟩

theorem Succeeds.ensures (hx : Succeeds x P) : Ensures x P := by
  obtain ⟨es, b, hy, hb⟩ := hx
  intro log log' a ha
  rw [hy log] at ha
  cases ha
  exact hb

/-- A fold keeps what each of its steps keeps. -/
theorem ensures_foldlM {γ : Type} {g : α → γ → Logged α} (h : ∀ a c, P a → Ensures (g a c) P)
    (cs : List γ) (ha : P a) : Ensures (cs.foldlM g a) P := by
  induction cs generalizing a with
  | nil => exact ensures_pure ha
  | cons c cs ih =>
    rw [List.foldlM_cons]
    exact (h a c ha).bind fun _ ha' => ih ha'

end

/-! ## Steps of a history -/

/-- A collection in use, or one that is being built. -/
inductive Mode where
  | frozen
  | building

/-- Try a step. If it fails, its error is the answer, and what was held before is still held. It is
meant for steps that refuse before anything is written, as `put` and `pop` do; of a step that gave
up halfway through, an owner who changes a collection in place would hold what it left. -/
def attempt (held : α) (step : Logged α) : Logged (Option Error × α) :=
  tryCatch (do return (none, ← step)) fun e => return (some e, held)

theorem Yields.attempt {x : Logged α} {es : List Event} {a : α} (hx : Yields x es a) (held : α) :
    Yields (attempt held x) es (none, a) := by
  intro log
  have hMap := hx.map (fun a => ((none : Option Error), a)) log
  show tryCatch ((x >>= fun a => pure (none, a)) log) _ = _
  rw [hMap]
  rfl

theorem Stops.attempt {x : Logged α} {e : Error} (hx : Stops x e) (held : α) :
    Yields (attempt held x) [] (some e, held) := by
  intro log
  have hStop := hx.bind (f := fun a => pure ((none : Option Error), a)) log
  show tryCatch ((x >>= fun a => pure (none, a)) log) _ = _
  rw [hStop]
  exact yields_pure _ log

theorem Ensures.attempt {x : Logged α} {P : α → Prop} (hx : Ensures x P) {held : α}
    (hHeld : P held) : Ensures (attempt held x) fun r => P r.2 := by
  intro log log' r hr
  have hRun : tryCatch ((x >>= fun a => pure ((none : Option Error), a)) log)
      (fun e => .ok ((some e, held), log)) = .ok (r, log') := hr
  generalize hStep : (x >>= fun a => pure ((none : Option Error), a)) log = step at hRun
  cases step with
  | error e =>
    cases hRun
    exact hHeld
  | ok step =>
    cases hRun
    obtain ⟨⟨a, log₁⟩, ha, hStep⟩ := Result.bind_eq_ok.mp hStep
    cases hStep
    exact hx log _ a ha

end PersistentCollections
