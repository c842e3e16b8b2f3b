import PersistentCollections.Proofs.TrieVector.History
import PersistentCollections.TrieVector.Window

/-!
# Windows as lists

`Window.Denotes w l` says that a window lies within the bounds of its backing vector and that `l` is
the part of the backing list between its offsets. Everything that can be asked about a window is
answered from that part (`Denotes.agrees`), and every change keeps to it: an append writes the place
just past the window, whatever stood there, a removal only moves the end, and a narrower window
counts its offsets from the start of the wider one.

A history takes a window of a vector that was reached by any calls and goes on with any calls on
windows. Its reference is a list again, so nothing that lies on either side of a window, written
before or left behind by a removal, has an influence on what is observed (`run_window_refines`).
-/

namespace PersistentCollections.TrieVector

variable {α : Type} {v : TrieVector α} {b l : List α}

/-! ## Parts of a list -/

theorem getElem?_extract (b : List α) (start stop index : Nat) :
    (b.extract start stop)[index]? = if start + index < stop then b[start + index]? else none := by
  rw [List.extract_eq_drop_take', List.getElem?_drop, List.getElem?_take]

theorem length_extract {stop : Nat} (start : Nat) (hStop : stop ≤ b.length) :
    (b.extract start stop).length = stop - start := by
  rw [List.extract_eq_drop_take', List.length_drop, List.length_take, Nat.min_eq_left hStop]

theorem extract_extract {start stop high : Nat} (low : Nat) (hHigh : high ≤ stop - start) :
    (b.extract start stop).extract low high = b.extract (start + low) (start + high) := by
  apply List.ext_getElem?
  intro index
  simp only [getElem?_extract, Nat.add_assoc, Nat.add_lt_add_iff_left]
  split
  · exact if_pos (by omega)
  · rfl

theorem extract_set (b : List α) (start stop index : Nat) (x : α) :
    (b.set (start + index) x).extract start stop = (b.extract start stop).set index x := by
  rw [List.extract_eq_drop_take', List.extract_eq_drop_take', List.take_set, List.set_drop]

/-- One place more at the end of a part. What stood there is of no account. -/
theorem extract_succ {b' : List α} {start stop : Nat} {x : α} (hStart : start ≤ stop)
    (hStop : stop ≤ b.length) (hTake : b'.take (stop + 1) = b.take stop ++ [x]) :
    b'.extract start (stop + 1) = b.extract start stop ++ [x] := by
  have hLength : start ≤ (b.take stop).length := by
    rw [List.length_take]
    omega
  rw [List.extract_eq_drop_take', List.extract_eq_drop_take', hTake,
    List.drop_append_of_le_length hLength]

theorem extract_pred {start stop : Nat} (hStart : start < stop) (hStop : stop ≤ b.length) :
    b.extract start (stop - 1) = (b.extract start stop).dropLast := by
  obtain ⟨last, rfl⟩ : ∃ last, stop = last + 1 := ⟨stop - 1, by omega⟩
  have hTake := (List.take_append_getElem (l := b) (i := last) (by omega)).symm
  rw [extract_succ (by omega) (by omega) hTake, List.dropLast_concat, Nat.add_sub_cancel]

/-! ## What a window denotes -/

/-- A window within the bounds of its backing vector, and the part of the backing list between its
offsets. -/
def Window.Denotes (w : Window α) (l : List α) : Prop :=
  w.start ≤ w.stop ∧ ∃ b, Holds w.backing b ∧ w.stop ≤ b.length ∧ b.extract w.start w.stop = l

theorem Holds.window (h : Holds v l) {start stop : Nat} (hStart : start ≤ stop)
    (hStop : stop ≤ l.length) :
    ∃ w, v.window start stop = .ok w ∧ w.Denotes (l.extract start stop) := by
  rw [TrieVector.window, if_pos ⟨hStart, h.size_eq ▸ hStop⟩]
  exact ⟨_, rfl, hStart, l, h, hStop, rfl⟩

theorem Holds.window_outside (h : Holds v l) {start stop : Nat}
    (hOutside : ¬ (start ≤ stop ∧ stop ≤ l.length)) :
    v.window start stop = .error (.invalidRange start stop l.length) := by
  rw [TrieVector.window, h.size_eq, if_neg hOutside]

theorem Holds.denotes_of_window (h : Holds v l) {start stop : Nat} {w : Window α}
    (hw : v.window start stop = .ok w) : w.Denotes (l.extract start stop) := by
  by_cases hRange : start ≤ stop ∧ stop ≤ l.length
  · obtain ⟨w', hw', h'⟩ := h.window hRange.1 hRange.2
    cases hw.symm.trans hw'
    exact h'
  · cases hw.symm.trans (h.window_outside hRange)

namespace Window

variable {w : Window α}

theorem Denotes.within (h : w.Denotes l) : w.start ≤ w.stop ∧ w.stop ≤ w.backing.size := by
  obtain ⟨hStart, b, hb, hStop, -⟩ := h
  rw [hb.size_eq]
  exact ⟨hStart, hStop⟩

theorem Denotes.size_eq (h : w.Denotes l) : w.size = l.length := by
  obtain ⟨-, b, -, hStop, rfl⟩ := h
  rw [length_extract _ hStop]
  rfl

/-! ## Reading -/

theorem Denotes.isEmpty_eq (h : w.Denotes l) : w.isEmpty = l.isEmpty := by
  have hSize := h.size_eq
  have hStart := h.1
  rw [size] at hSize
  rw [isEmpty, Bool.eq_iff_iff, beq_iff_eq, List.isEmpty_iff, ← List.length_eq_zero_iff]
  omega

theorem Denotes.get?_eq (h : w.Denotes l) (index : Nat) : w.get? index = .ok l[index]? := by
  have hSize := h.size_eq
  obtain ⟨-, b, hb, hStop, rfl⟩ := h
  unfold get?
  rw [hSize, length_extract _ hStop, getElem?_extract]
  split
  · next hIndex =>
    have hLess : w.start + index < b.length := by omega
    rw [hb.item_eq hLess, Result.map_ok, if_pos (by omega), List.getElem?_eq_getElem hLess]
  · next hIndex => rw [if_neg (by omega)]

theorem Denotes.get_eq (h : w.Denotes l) {index : Nat} (hIndex : index < l.length) :
    w.get index = .ok l[index] := by
  rw [get, h.get?_eq, Result.bind_ok, List.getElem?_eq_getElem hIndex]
  rfl

theorem Denotes.get_eq_error (h : w.Denotes l) {index : Nat} (hIndex : l.length ≤ index) :
    w.get index = .error (.indexOutOfBounds index l.length) := by
  rw [get, h.get?_eq, Result.bind_ok, List.getElem?_eq_none hIndex, h.size_eq]
  rfl

theorem Denotes.subscript_eq (h : w.Denotes l) {index : Nat} (hIndex : index < l.length) :
    w.subscript index = .ok l[index] := by
  rw [subscript, h.get?_eq, Result.bind_ok, List.getElem?_eq_getElem hIndex]
  rfl

theorem Denotes.subscript_eq_error (h : w.Denotes l) {index : Nat} (hIndex : l.length ≤ index) :
    w.subscript index = .error (.windowSubscript index l.length) := by
  rw [subscript, h.get?_eq, Result.bind_ok, List.getElem?_eq_none hIndex, h.size_eq]
  rfl

theorem Denotes.getD_eq (h : w.Denotes l) (index : Nat) (fallback : α) :
    w.getD index fallback = .ok (l.getD index fallback) := by
  rw [getD, h.get?_eq, Result.bind_ok, List.getD_eq_getElem?_getD]
  rfl

theorem Denotes.first?_eq (h : w.Denotes l) : w.first? = .ok l.head? := by
  rw [first?, h.get?_eq, List.head?_eq_getElem?]

theorem Denotes.last?_eq (h : w.Denotes l) : w.last? = .ok l.getLast? := by
  rw [last?, h.size_eq, List.getLast?_eq_getElem?]
  split
  · next hNone => rw [List.getElem?_eq_none (by omega)]
  · exact h.get?_eq _

theorem Denotes.iter_gives (h : w.Denotes l) : w.iter.Gives l := by
  obtain ⟨hStart, b, hb, hStop, rfl⟩ := h
  rw [List.extract_eq_drop_take']
  exact hb.range_gives hStart hStop

theorem Denotes.toList_eq (h : w.Denotes l) : w.toList = .ok l := h.iter_gives.toList_eq

/-! ## Changing -/

theorem Denotes.window (h : w.Denotes l) {low high : Nat} (hLow : low ≤ high)
    (hHigh : high ≤ l.length) :
    ∃ w', w.window low high = .ok w' ∧ w'.Denotes (l.extract low high) := by
  have hSize := h.size_eq
  obtain ⟨hStart, b, hb, hStop, rfl⟩ := h
  rw [length_extract _ hStop] at hHigh hSize
  rw [Window.window, if_pos ⟨hLow, hSize ▸ hHigh⟩, extract_extract low hHigh]
  exact hb.window (by omega) (by omega)

theorem Denotes.window_outside (h : w.Denotes l) {low high : Nat}
    (hOutside : ¬ (low ≤ high ∧ high ≤ l.length)) :
    w.window low high = .error (.invalidRange low high l.length) := by
  rw [Window.window, h.size_eq, if_neg hOutside]

/-- An append writes the place behind the window: a new one at the end of the backing vector, or
that of an element which the window does not have. -/
theorem Denotes.push (h : w.Denotes l) (x : α) :
    Succeeds (w.push x) fun w' => w'.Denotes (l ++ [x]) := by
  obtain ⟨hStart, b, hb, hStop, rfl⟩ := h
  have hWritten : ∀ v' b', Holds v' b' → w.stop < b'.length →
      b'.take (w.stop + 1) = b.take w.stop ++ [x] →
      Denotes ⟨v', w.start, w.stop + 1, none⟩ (b.extract w.start w.stop ++ [x]) :=
    fun v' b' h' hLess hTake =>
      ⟨Nat.le_succ_of_le hStart, b', h', hLess, extract_succ hStart hStop hTake⟩
  unfold Window.push
  by_cases hEnd : w.stop = b.length
  · obtain ⟨v', hYields, h'⟩ := hb.push x
    have hTake : (b ++ [x]).take (w.stop + 1) = b.take w.stop ++ [x] := by
      rw [hEnd, List.take_length, List.take_of_length_le (by simp)]
    rw [if_pos (hb.size_eq ▸ hEnd)]
    refine ⟨_, _, hYields.map _, hWritten v' _ h' ?_ hTake⟩
    rw [List.length_append]
    exact Nat.lt_succ_of_le hStop
  · have hLess : w.stop < b.length := Nat.lt_of_le_of_ne hStop hEnd
    obtain ⟨v', hOverwrite, h'⟩ := hb.overwrite hLess x
    have hTake : (b.set w.stop x).take (w.stop + 1) = b.take w.stop ++ [x] := by
      rw [List.take_add_one, List.take_set_of_le (Nat.le_refl _), List.getElem?_set_self hLess]
      rfl
    rw [if_neg (hb.size_eq ▸ hEnd)]
    refine ⟨_, _, (yields_lift hOverwrite).map _, hWritten v' _ h' ?_ hTake⟩
    rwa [List.length_set]

theorem Denotes.put_end (h : w.Denotes l) (x : α) :
    Succeeds (w.put l.length x) fun w' => w'.Denotes (l ++ [x]) := by
  unfold put
  rw [if_pos h.size_eq.symm]
  exact h.push x

theorem Denotes.put_inside (h : w.Denotes l) {index : Nat} (hIndex : index < l.length) (x : α) :
    Succeeds (w.put index x) fun w' => w'.Denotes (l.set index x) := by
  have hSize := h.size_eq
  obtain ⟨hStart, b, hb, hStop, rfl⟩ := h
  have hPlace : w.start + index < b.length := by
    rw [length_extract _ hStop] at hIndex
    omega
  obtain ⟨v', hOverwrite, h'⟩ := hb.overwrite hPlace x
  unfold put
  rw [hSize, if_neg (Nat.ne_of_lt hIndex), if_neg (Nat.not_lt_of_gt hIndex)]
  refine ⟨_, _, (yields_lift hOverwrite).map _, hStart, _, h', ?_, extract_set b _ _ _ x⟩
  rwa [List.length_set]

theorem Denotes.put_outside (h : w.Denotes l) {index : Nat} (hIndex : l.length < index) (x : α) :
    Stops (w.put index x) (.indexOutOfBounds index l.length) := by
  unfold put
  rw [h.size_eq, if_neg (Nat.ne_of_gt hIndex), if_pos hIndex]
  exact stops_throw _

/-- A removal moves the end of the window. The element stays in the backing vector. -/
theorem Denotes.pop (h : w.Denotes l) (hNonempty : l ≠ []) :
    ∃ w', w.pop = .ok w' ∧ w'.Denotes l.dropLast := by
  have hPos := List.length_pos_of_ne_nil hNonempty
  have hEmpty : ¬ w.isEmpty = true := by
    rw [h.isEmpty_eq, List.isEmpty_iff]
    exact hNonempty
  obtain ⟨hStart, b, hb, hStop, rfl⟩ := h
  rw [length_extract _ hStop] at hPos
  have hLess : w.start < w.stop := by omega
  rw [Window.pop, if_neg hEmpty]
  refine ⟨_, rfl, Nat.le_sub_one_of_lt hLess, b, hb, ?_, extract_pred hLess hStop⟩
  exact Nat.le_trans (Nat.sub_le _ 1) hStop

theorem Denotes.pop_nil (h : w.Denotes []) : w.pop = .error .emptyPop := by
  rw [Window.pop, h.isEmpty_eq]
  rfl

theorem Denotes.toVector (h : w.Denotes l) : Succeeds w.toVector fun v => Holds v l := by
  unfold Window.toVector
  apply (succeeds_lift h.toList_eq rfl).bind
  rintro _ rfl
  exact ofList_holds l

/-! ## Histories -/

/-- The calls that make a window of a window. -/
inductive Call (α : Type) where
  | window (start stop : Nat)
  | push (x : α)
  | put (index : Nat) (x : α)
  | pop

/-- Make a call. After a failure the same window is still held. -/
def Call.run (w : Window α) : Call α → Logged (Option Error × Window α)
  | .window start stop => attempt w (liftM (w.window start stop))
  | .push x => return (none, ← w.push x)
  | .put index x => attempt w (w.put index x)
  | .pop => attempt w (liftM w.pop)

/-- Make calls in order, and collect the answers. -/
def run : List (Call α) → Window α → Logged (List (Option Error) × Window α)
  | [], w => return ([], w)
  | call :: calls, w => do
    let (answer, w) ← call.run w
    let (answers, w) ← run calls w
    return (answer :: answers, w)

/-- What a call does to a list, and what it answers. -/
def Call.reference (l : List α) : Call α → Option Error × List α
  | .window start stop =>
    if start ≤ stop ∧ stop ≤ l.length then (none, l.extract start stop)
    else (some (.invalidRange start stop l.length), l)
  | .push x => (none, l ++ [x])
  | .put index x =>
    if index < l.length then (none, l.set index x)
    else if index = l.length then (none, l ++ [x])
    else (some (.indexOutOfBounds index l.length), l)
  | .pop => if l.isEmpty then (some .emptyPop, l) else (none, l.dropLast)

def reference : List (Call α) → List α → List (Option Error) × List α
  | [], l => ([], l)
  | call :: calls, l =>
    let (answer, l) := call.reference l
    let (answers, l) := reference calls l
    (answer :: answers, l)

/-- Everything that can be asked about a window is answered from a list. -/
structure Agrees (w : Window α) (l : List α) : Prop where
  within : w.start ≤ w.stop ∧ w.stop ≤ w.backing.size
  size : w.size = l.length
  isEmpty : w.isEmpty = l.isEmpty
  get? : ∀ index, w.get? index = .ok l[index]?
  get : ∀ index (h : index < l.length), w.get index = .ok l[index]
  get_outside : ∀ index, l.length ≤ index → w.get index = .error (.indexOutOfBounds index l.length)
  subscript : ∀ index (h : index < l.length), w.subscript index = .ok l[index]
  subscript_outside : ∀ index, l.length ≤ index →
    w.subscript index = .error (.windowSubscript index l.length)
  getD : ∀ index fallback, w.getD index fallback = .ok (l.getD index fallback)
  first? : w.first? = .ok l.head?
  last? : w.last? = .ok l.getLast?
  iter : w.iter.Gives l
  toList : w.toList = .ok l
  toVector : Succeeds w.toVector fun v => TrieVector.Agrees (s := .frozen) v l

theorem Denotes.agrees (h : w.Denotes l) : w.Agrees l where
  within := h.within
  size := h.size_eq
  isEmpty := h.isEmpty_eq
  get? := h.get?_eq
  get _ := h.get_eq
  get_outside _ := h.get_eq_error
  subscript _ := h.subscript_eq
  subscript_outside _ := h.subscript_eq_error
  getD := h.getD_eq
  first? := h.first?_eq
  last? := h.last?_eq
  iter := h.iter_gives
  toList := h.toList_eq
  toVector := by
    obtain ⟨es, v, hYields, hv⟩ := h.toVector
    exact ⟨es, v, hYields, Holds.agrees (s := .frozen) hv⟩

/-- A call on a window that denotes a list answers what the reference answers, and leads to a window
that denotes the list of the reference. -/
theorem Call.run_denotes (call : Call α) (h : w.Denotes l) :
    Succeeds (call.run w) fun r =>
      r.1 = (call.reference l).1 ∧ r.2.Denotes (call.reference l).2 := by
  cases call with
  | window start stop =>
    rw [Call.run, Call.reference]
    by_cases hRange : start ≤ stop ∧ stop ≤ l.length
    · obtain ⟨w', hWindow, h'⟩ := h.window hRange.1 hRange.2
      rw [if_pos hRange]
      exact ⟨_, _, (yields_lift hWindow).attempt w, rfl, h'⟩
    · rw [if_neg hRange]
      exact ⟨_, _, (stops_lift (h.window_outside hRange)).attempt w, rfl, h⟩
  | push x =>
    apply (h.push x).bind
    intro w' h'
    exact succeeds_pure ⟨rfl, h'⟩
  | put index x =>
    rw [Call.run, Call.reference]
    rcases Nat.lt_trichotomy index l.length with hLess | rfl | hMore
    · obtain ⟨es, w', hYields, h'⟩ := h.put_inside hLess x
      rw [if_pos hLess]
      exact ⟨_, _, hYields.attempt w, rfl, h'⟩
    · obtain ⟨es, w', hYields, h'⟩ := h.put_end x
      rw [if_neg (Nat.lt_irrefl _), if_pos rfl]
      exact ⟨_, _, hYields.attempt w, rfl, h'⟩
    · rw [if_neg (Nat.not_lt_of_gt hMore), if_neg (Nat.ne_of_gt hMore)]
      exact ⟨_, _, (h.put_outside hMore x).attempt w, rfl, h⟩
  | pop =>
    cases l with
    | nil => exact ⟨_, _, (stops_lift h.pop_nil).attempt w, rfl, h⟩
    | cons x l =>
      obtain ⟨w', hPop, h'⟩ := h.pop (List.cons_ne_nil x l)
      exact ⟨_, _, (yields_lift hPop).attempt w, rfl, h'⟩

theorem run_denotes (calls : List (Call α)) (h : w.Denotes l) :
    Succeeds (run calls w) fun r =>
      r.1 = (reference calls l).1 ∧ r.2.Denotes (reference calls l).2 := by
  induction calls generalizing w l with
  | nil => exact succeeds_pure ⟨rfl, h⟩
  | cons call calls ih =>
    apply (call.run_denotes h).bind
    rintro ⟨answer, w₁⟩ ⟨hAnswer, h₁⟩
    apply (ih h₁).bind
    rintro ⟨answers, w₂⟩ ⟨hAnswers, h₂⟩
    exact succeeds_pure ⟨congrArg₂ List.cons hAnswer hAnswers, h₂⟩

end Window

/-- A window onto a vector that was reached by any calls is refused unless its range lies within the
vector. A history that starts from it succeeds, answers what the same history of that part of the
list answers, and ends with a window that answers from the list of the reference. -/
theorem run_window_refines (before : Calls α .frozen .frozen) (start stop : Nat)
    (calls : List (Window.Call α)) :
    Succeeds (before.run TrieVector.empty) fun r =>
      let l := (before.reference []).2
      if start ≤ stop ∧ stop ≤ l.length then
        ∃ w, r.2.window start stop = .ok w ∧ Succeeds (Window.run calls w) fun r' =>
          r'.1 = (Window.reference calls (l.extract start stop)).1 ∧
            r'.2.Agrees (Window.reference calls (l.extract start stop)).2
      else r.2.window start stop = .error (.invalidRange start stop l.length) := by
  obtain ⟨v, hYields, h⟩ := before.run_empty
  refine ⟨_, _, hYields, ?_⟩
  show if _ then _ else _
  split
  · next hRange =>
    obtain ⟨w, hWindow, hw⟩ := h.window hRange.1 hRange.2
    obtain ⟨es, r', hRun, hAnswers, h'⟩ := Window.run_denotes calls hw
    exact ⟨w, hWindow, es, r', hRun, hAnswers, h'.agrees⟩
  · next hOutside => exact h.window_outside hOutside

end PersistentCollections.TrieVector
