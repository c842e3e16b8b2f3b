import PersistentCollections.Proofs.TrieVector.Iterator
import PersistentCollections.Proofs.TrieVector.Update
import PersistentCollections.TrieVector.Transient

/-!
# Histories of a vector

A history starts at the empty vector and goes on with any calls, on vectors and on transients, with
conversions between the two at any point. The reference for it is a list. A call that can fail
answers its error, or nothing; after a failure the same vector or transient is still held.

Every call on what holds a list succeeds, answers what the reference answers, leaves the records
that the length of the list demands, and leads to what holds the list of the reference
(`Call.run_holds`); so does every history (`Calls.run_holds`). What holds a list answers every
question from it (`Holds.agrees`).
-/

namespace PersistentCollections.TrieVector

variable {α : Type}

/-! ## Calls -/

/-- What is held in a mode. -/
@[reducible] def Held (α : Type) : Mode → Type
  | .frozen => TrieVector α
  | .building => Transient α

namespace Held

/-- The vector that is held. -/
def content : {s : Mode} → Held α s → TrieVector α
  | .frozen, v => v
  | .building, t => Transient.vector t

def size : {s : Mode} → Held α s → Nat
  | .frozen, v => TrieVector.size v
  | .building, t => Transient.size t

def isEmpty : {s : Mode} → Held α s → Bool
  | .frozen, v => TrieVector.isEmpty v
  | .building, t => Transient.isEmpty t

def get? : {s : Mode} → Held α s → Nat → Result (Option α)
  | .frozen, v, index => TrieVector.get? v index
  | .building, t, index => Transient.get? t index

def get : {s : Mode} → Held α s → Nat → Result α
  | .frozen, v, index => TrieVector.get v index
  | .building, t, index => Transient.get t index

def push : {s : Mode} → Held α s → α → Logged (Held α s)
  | .frozen, v, x => TrieVector.push v x
  | .building, t, x => Transient.push t x

def put : {s : Mode} → Held α s → Nat → α → Logged (Held α s)
  | .frozen, v, index, x => TrieVector.put v index x
  | .building, t, index, x => Transient.put t index x

def pop : {s : Mode} → Held α s → Result (Held α s)
  | .frozen, v => TrieVector.pop v
  | .building, t => Transient.pop t

end Held

/-- A call, with the mode that it starts from and the one that it leads to. -/
inductive Call (α : Type) : Mode → Mode → Type
  | push {s : Mode} (x : α) : Call α s s
  | put {s : Mode} (index : Nat) (x : α) : Call α s s
  | pop {s : Mode} : Call α s s
  | extend (xs : List α) : Call α .building .building
  | transient : Call α .frozen .building
  | freeze : Call α .building .frozen

/-- Any calls, one after the other. -/
inductive Calls (α : Type) : Mode → Mode → Type
  | nil {s : Mode} : Calls α s s
  | cons {s t u : Mode} (call : Call α s t) (calls : Calls α t u) : Calls α s u

/-- Make a call. -/
def Call.run : {s t : Mode} → Call α s t → Held α s → Logged (Option Error × Held α t)
  | _, _, .push x, held => return (none, ← held.push x)
  | _, _, .put index x, held => attempt held (held.put index x)
  | _, _, .pop, held => attempt held held.pop
  | _, _, .extend xs, t => return (none, ← Transient.extend t xs)
  | _, _, .transient, v => return (none, TrieVector.transient v)
  | _, _, .freeze, t => return (none, ← Transient.freeze t)

/-- Make calls in order, and collect the answers. -/
def Calls.run : {s t : Mode} → Calls α s t → Held α s → Logged (List (Option Error) × Held α t)
  | _, _, .nil, held => return ([], held)
  | _, _, .cons call calls, held => do
    let (answer, held) ← call.run held
    let (answers, held) ← calls.run held
    return (answer :: answers, held)

/-! ## The reference -/

/-- What a call does to a list, and what it answers. -/
def Call.reference : {s t : Mode} → Call α s t → List α → Option Error × List α
  | _, _, .push x, l => (none, l ++ [x])
  | _, _, .put index x, l =>
    if index < l.length then (none, l.set index x)
    else if index = l.length then (none, l ++ [x])
    else (some (.indexOutOfBounds index l.length), l)
  | _, _, .pop, l => if l.isEmpty then (some .emptyPop, l) else (none, l.dropLast)
  | _, _, .extend xs, l => (none, l ++ xs)
  | _, _, .transient, l => (none, l)
  | _, _, .freeze, l => (none, l)

/-- The records that a call leaves, of what it finds only the length. -/
def Call.records : {s t : Mode} → Call α s t → Nat → List Event
  | _, _, .push _, size => growth size
  | _, _, .put index _, size => if index = size then growth size else []
  | _, _, .pop, _ => []
  | _, _, .extend xs, size => growths size xs.length
  | _, _, .transient, _ => []
  | _, _, .freeze, size => [.vectorFrozen size]

def Calls.reference : {s t : Mode} → Calls α s t → List α → List (Option Error) × List α
  | _, _, .nil, l => ([], l)
  | _, _, .cons call calls, l =>
    let (answer, l) := call.reference l
    let (answers, l) := calls.reference l
    (answer :: answers, l)

def Calls.records : {s t : Mode} → Calls α s t → List α → List Event
  | _, _, .nil, _ => []
  | _, _, .cons call calls, l => call.records l.length ++ calls.records (call.reference l).2

/-- Everything that can be asked about a vector or a transient is answered from a list. -/
structure Agrees {s : Mode} (held : Held α s) (l : List α) : Prop where
  size : held.size = l.length
  isEmpty : held.isEmpty = l.isEmpty
  get? : ∀ index, held.get? index = .ok l[index]?
  get : ∀ index (h : index < l.length), held.get index = .ok l[index]
  get_outside : ∀ index, l.length ≤ index →
    held.get index = .error (.indexOutOfBounds index l.length)
  getD : ∀ index fallback, held.content.getD index fallback = .ok (l.getD index fallback)
  first? : held.content.first? = .ok l.head?
  last? : held.content.last? = l.getLast?
  iter : held.content.iter.Gives l
  /-- A call that fails leaves what is held as it is, and leaves no record. -/
  put_outside : ∀ index x, l.length < index →
    Yields ((Call.put index x).run held) [] (some (.indexOutOfBounds index l.length), held)
  pop_nil : l = [] → Yields (Call.pop.run held) [] (some .emptyPop, held)

/-! ## One call -/

section Held

variable {s : Mode} {held : Held α s} {l : List α}

/-- A change of a transient is one of its vector. -/
theorem Held.push_yields {x : α} {es : List Event} {v' : TrieVector α}
    (hYields : Yields (held.content.push x) es v') :
    ∃ held' : Held α s, Yields (held.push x) es held' ∧ held'.content = v' := by
  cases s with
  | frozen => exact ⟨v', hYields, rfl⟩
  | building => exact ⟨⟨v'⟩, hYields.map _, rfl⟩

theorem Held.put_yields {index : Nat} {x : α} {es : List Event} {v' : TrieVector α}
    (hYields : Yields (held.content.put index x) es v') :
    ∃ held' : Held α s, Yields (held.put index x) es held' ∧ held'.content = v' := by
  cases s with
  | frozen => exact ⟨v', hYields, rfl⟩
  | building => exact ⟨⟨v'⟩, hYields.map _, rfl⟩

theorem Held.put_stops {index : Nat} {x : α} {e : Error}
    (hStops : Stops (held.content.put index x) e) : Stops (held.put index x) e := by
  cases s with
  | frozen => exact hStops
  | building => exact hStops.bind

theorem Held.pop_eq_ok {v' : TrieVector α} (hPop : held.content.pop = .ok v') :
    ∃ held' : Held α s, held.pop = .ok held' ∧ held'.content = v' := by
  cases s with
  | frozen => exact ⟨v', hPop, rfl⟩
  | building =>
    refine ⟨⟨v'⟩, ?_, rfl⟩
    show (TrieVector.pop held.content >>= _) = _
    rw [hPop]
    rfl

theorem Held.pop_eq_error {e : Error} (hPop : held.content.pop = .error e) :
    held.pop = .error e := by
  cases s with
  | frozen => exact hPop
  | building =>
    show (TrieVector.pop held.content >>= _) = _
    rw [hPop]
    rfl

/-- What holds a list answers everything from it. -/
theorem Holds.agrees (h : Holds held.content l) : Agrees held l where
  size := by
    cases s with
    | frozen => exact h.size_eq
    | building => exact h.size_eq
  isEmpty := by
    cases s with
    | frozen => exact h.isEmpty_eq
    | building => exact h.isEmpty_eq
  get? index := by
    cases s with
    | frozen => exact h.get?_eq index
    | building => exact h.get?_eq index
  get index hIndex := by
    cases s with
    | frozen => exact h.get_eq hIndex
    | building => exact h.get_eq hIndex
  get_outside index hIndex := by
    cases s with
    | frozen => exact h.get_eq_error hIndex
    | building => exact h.get_eq_error hIndex
  getD := h.getD_eq
  first? := h.first?_eq
  last? := h.last?_eq
  iter := h.iter_gives
  put_outside index x hIndex := (Held.put_stops (h.put_outside hIndex x)).attempt held
  pop_nil := by
    rintro rfl
    exact (stops_lift (Held.pop_eq_error h.pop_nil)).attempt held

end Held

/-- A call on what holds a list. -/
theorem Call.run_holds {s t : Mode} (call : Call α s t) {held : Held α s} {l : List α}
    (h : Holds held.content l) :
    ∃ held', Yields (call.run held) (call.records l.length) ((call.reference l).1, held') ∧
      Holds held'.content (call.reference l).2 := by
  cases call with
  | push x =>
    obtain ⟨v', hYields, h'⟩ := h.push x
    obtain ⟨held', hYields', rfl⟩ := Held.push_yields hYields
    exact ⟨held', hYields'.map _, h'⟩
  | put index x =>
    rw [Call.run, Call.reference, Call.records]
    rcases Nat.lt_trichotomy index l.length with hLess | rfl | hMore
    · obtain ⟨v', hYields, h'⟩ := h.put_inside hLess x
      obtain ⟨held', hYields', rfl⟩ := Held.put_yields hYields
      rw [if_pos hLess, if_neg (Nat.ne_of_lt hLess)]
      exact ⟨held', hYields'.attempt held, h'⟩
    · obtain ⟨v', hYields, h'⟩ := h.put_end x
      obtain ⟨held', hYields', rfl⟩ := Held.put_yields hYields
      rw [if_neg (Nat.lt_irrefl _), if_pos rfl, if_pos rfl]
      exact ⟨held', hYields'.attempt held, h'⟩
    · rw [if_neg (Nat.not_lt_of_gt hMore), if_neg (Nat.ne_of_gt hMore),
        if_neg (Nat.ne_of_gt hMore)]
      exact ⟨held, h.agrees.put_outside index x hMore, h⟩
  | pop =>
    cases l with
    | nil => exact ⟨held, h.agrees.pop_nil rfl, h⟩
    | cons x l =>
      obtain ⟨v', hPop, h'⟩ := h.pop (List.cons_ne_nil x l)
      obtain ⟨held', hPop', rfl⟩ := Held.pop_eq_ok hPop
      exact ⟨held', (yields_lift hPop').attempt held, h'⟩
  | extend xs =>
    obtain ⟨v', hYields, h'⟩ := h.extend xs
    exact ⟨⟨v'⟩, (hYields.map _).map _, h'⟩
  | transient => exact ⟨⟨held⟩, yields_pure _, h⟩
  | freeze =>
    have hFreeze : Yields (Transient.freeze held) [.vectorFrozen held.content.size] held.content :=
      (yields_record _).bind (yields_pure _)
    rw [h.size_eq] at hFreeze
    exact ⟨held.content, hFreeze.map _, h⟩

theorem ofList_holds (l : List α) : Succeeds (ofList l) fun v => Holds v l := by
  obtain ⟨v, hYields, h⟩ := (holds_empty (α := α)).extend l
  apply Succeeds.bind (P := fun t : Transient α => Holds t.vector l) ⟨_, _, hYields.map _, h⟩
  intro t ht
  exact (succeeds_record _).bind fun _ _ => succeeds_pure ht

/-! ## Histories -/

theorem Calls.run_holds {s t : Mode} (calls : Calls α s t) {held : Held α s} {l : List α}
    (h : Holds held.content l) :
    ∃ held', Yields (calls.run held) (calls.records l) ((calls.reference l).1, held') ∧
      Holds held'.content (calls.reference l).2 := by
  induction calls generalizing l with
  | nil => exact ⟨held, yields_pure _, h⟩
  | cons call calls ih =>
    obtain ⟨held₁, hYields₁, h₁⟩ := call.run_holds h
    obtain ⟨held₂, hYields₂, h₂⟩ := ih h₁
    exact ⟨held₂, hYields₁.bind (hYields₂.map _), h₂⟩

/-- A history of the empty vector holds the list of its reference. -/
theorem Calls.run_empty {s : Mode} (calls : Calls α .frozen s) :
    ∃ held, Yields (calls.run TrieVector.empty) (calls.records []) ((calls.reference []).1, held) ∧
      Holds held.content (calls.reference []).2 := by
  have hEmpty : Holds (Held.content (s := .frozen) (TrieVector.empty : TrieVector α)) [] :=
    holds_empty
  exact calls.run_holds hEmpty

/-- Every history of the empty vector succeeds. It answers what the same history of a list answers,
and so does the vector or the transient that is held in the end, whatever it is asked. -/
theorem run_refines {s : Mode} (calls : Calls α .frozen s) :
    Succeeds (calls.run TrieVector.empty) fun r =>
      r.1 = (calls.reference []).1 ∧ Agrees r.2 (calls.reference []).2 := by
  obtain ⟨held, hYields, h⟩ := calls.run_empty
  exact ⟨_, _, hYields, rfl, h.agrees⟩

end PersistentCollections.TrieVector
