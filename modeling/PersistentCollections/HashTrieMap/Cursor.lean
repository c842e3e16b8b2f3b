import PersistentCollections.HashTrieMap.Iterator

/-!
# Cursors over hash maps

A cursor is a position on an entry of a map, with what is to be visited from there on. Moving it
makes a new cursor and leaves the old one as it was. In contrast to an iterator it has already
sought out the entry it stands on.
-/

namespace PersistentCollections.HashTrieMap

variable {κ ν : Type}

/-- Go on to the next entry without using it up. -/
def seek : List (Pending κ ν) → Option (List (Pending κ ν))
  | [] => none
  | .entries [] :: stack | .slots [] :: stack | .children [] :: stack => seek stack
  | .entries (entry :: rest) :: stack => some (.entries (entry :: rest) :: stack)
  | .slots (.leaf entry :: rest) :: stack => some (.slots (.leaf entry :: rest) :: stack)
  | .slots (.inner child :: rest) :: stack => seek (child.pending :: .slots rest :: stack)
  | .children (none :: rest) :: stack => seek (.children rest :: stack)
  | .children (some child :: rest) :: stack => seek (child.pending :: .children rest :: stack)
termination_by stack => sizeOf stack
decreasing_by
  all_goals try have := child.sizeOf_pending_le
  all_goals simp; try omega

theorem sizeOf_le_of_seek {stack stack' : List (Pending κ ν)} (h : seek stack = some stack') :
    sizeOf stack' ≤ sizeOf stack := by
  fun_induction seek stack with
  | case1 => cases h
  | case2 stack ih | case3 stack ih | case4 stack ih =>
    have := ih h
    simp only [List.cons.sizeOf_spec]
    omega
  | case5 | case6 => cases h; exact Nat.le_refl _
  | case7 child es stack ih | case9 child es stack ih =>
    have := ih h
    have := child.sizeOf_pending_le
    simp at *
    omega
  | case8 es stack ih =>
    have := ih h
    simp at *
    omega

/-- A position on an entry: the first of what is to be visited. -/
structure Cursor (κ ν : Type) where
  stack : List (Pending κ ν)

namespace Cursor

/-- The cursor at the first entry to be visited; if there is none, there is no cursor. -/
def seek? (stack : List (Pending κ ν)) : Option (Cursor κ ν) := (seek stack).map Cursor.mk

/-- The entry that the cursor stands on. -/
def first (c : Cursor κ ν) : Result (κ × ν) :=
  match c.stack with
  | .entries (entry :: _) :: _ | .slots (.leaf entry :: _) :: _ => .ok entry
  | _ => broken .cursorOffEntry

def key (c : Cursor κ ν) : Result κ := return (← c.first).1

def value (c : Cursor κ ν) : Result ν := return (← c.first).2

/-- What is to be visited after the entry that the cursor stands on. -/
def rest (c : Cursor κ ν) : List (Pending κ ν) :=
  match c.stack with
  | .entries (_ :: rest) :: stack => .entries rest :: stack
  | .slots (_ :: rest) :: stack => .slots rest :: stack
  | .children (_ :: rest) :: stack => .children rest :: stack
  | _ :: stack => stack
  | [] => []

/-- The cursor at the next entry. -/
def next (c : Cursor κ ν) : Option (Cursor κ ν) := seek? c.rest

theorem sizeOf_rest_lt (c : Cursor κ ν) : c.stack = [] ∨ sizeOf c.rest < sizeOf c.stack := by
  unfold rest
  split
  case h_5 h => exact .inl h
  all_goals
    rename_i h
    right
    simp only [h, List.cons.sizeOf_spec, Pending.entries.sizeOf_spec, Pending.slots.sizeOf_spec,
      Pending.children.sizeOf_spec]
    omega

theorem sizeOf_lt_of_next {c c' : Cursor κ ν} (h : c.next = some c') :
    sizeOf c'.stack < sizeOf c.stack := by
  simp only [next, seek?, Option.map_eq_some_iff] at h
  obtain ⟨stack, hs, rfl⟩ := h
  have hle := sizeOf_le_of_seek hs
  rcases c.sizeOf_rest_lt with hc | hlt
  · simp [rest, hc, seek] at hs
  · exact Nat.lt_of_le_of_lt hle hlt

/-- Walk to the end, with `n` entries counted up to and with the one that the cursor stands on. -/
def countFrom (c : Cursor κ ν) (n : Nat) : Nat :=
  match _h : c.next with
  | none => n
  | some c' => c'.countFrom (n + 1)
termination_by sizeOf c.stack
decreasing_by exact sizeOf_lt_of_next _h

/-- The number of entries from here on, found by walking. -/
def count (c : Cursor κ ν) : Nat := c.countFrom 1

/-- The entries from here on, at most `n` of them, and the cursor after them if there is one. -/
def take : Nat → Cursor κ ν → Result (List (κ × ν) × Option (Cursor κ ν))
  | 0, c => .ok ([], some c)
  | n + 1, c => do
    let entry ← c.first
    match c.next with
    | none => return ([entry], none)
    | some c =>
      let (entries, rest) ← take n c
      return (entry :: entries, rest)

/-- All entries from here on. -/
def toList (c : Cursor κ ν) : Result (List (κ × ν)) := do
  let entry ← c.first
  match _h : c.next with
  | none => return [entry]
  | some c' => return entry :: (← c'.toList)
termination_by sizeOf c.stack
decreasing_by exact sizeOf_lt_of_next _h

/-- The text of the entries from here on, given the texts of keys and values. -/
def text (key : κ → String) (value : ν → String) (c : Cursor κ ν) : Result String := do
  return Text.ofList ((← c.toList).map fun e => Text.ofTuple [key e.1, value e.2])

end Cursor

/-- The cursor at the first entry; an empty map has none. -/
def cursor (m : HashTrieMap κ ν) : Option (Cursor κ ν) := Cursor.seek? m.shape.pending

end PersistentCollections.HashTrieMap
