import PersistentCollections.SortedMap.Basic

/-!
# Cursors over sorted maps

A cursor is a position on an entry and a direction of travel. Moving it makes a new cursor and
leaves the old one as it was. A cursor that began at an end of the map knows how many entries are
left; one that began at a key counts them by walking.
-/

namespace PersistentCollections.SortedMap

variable {κ ν : Type}

/-- A position on the entry of `top`. -/
structure Cursor (κ ν : Type) where
  top : Frame κ ν
  stack : List (Frame κ ν)
  ascending : Bool
  length : Option Nat

namespace Cursor

/-- The cursor on the first entry that a stack leads to. -/
def ofStack? (ascending : Bool) (length : Option Nat) : List (Frame κ ν) → Option (Cursor κ ν)
  | [] => none
  | top :: stack => some ⟨top, stack, ascending, length⟩

def first (c : Cursor κ ν) : κ × ν := c.top.entry

def key (c : Cursor κ ν) : κ := c.first.1

def value (c : Cursor κ ν) : ν := c.first.2

/-- The cursor at the next entry in the direction of travel. -/
def next (c : Cursor κ ν) : Option (Cursor κ ν) :=
  ofStack? c.ascending (c.length.map (· - 1)) (descend c.ascending c.top.onward c.stack)

theorem weight_lt_of_next {c c' : Cursor κ ν} (h : c.next = some c') :
    weight (c'.top :: c'.stack) < weight (c.top :: c.stack) := by
  unfold next at h
  cases hs : descend c.ascending c.top.onward c.stack with
  | nil => simp [hs, ofStack?] at h
  | cons top stack =>
    simp only [hs, ofStack?, Option.some.injEq] at h
    subst h
    rw [← hs, weight_descend]
    simp [weight]

/-- Walk to the end, with `n` entries counted up to and with the one that the cursor stands on. -/
def countFrom (c : Cursor κ ν) (n : Nat) : Nat :=
  match _h : c.next with
  | none => n
  | some c' => c'.countFrom (n + 1)
termination_by weight (c.top :: c.stack)
decreasing_by exact weight_lt_of_next _h

/-- The number of entries from here on. -/
def count (c : Cursor κ ν) : Nat :=
  match c.length with
  | some n => n
  | none => c.countFrom 1

/-- The entries from here on, at most `n` of them, and the cursor after them if there is one. -/
def take : Nat → Cursor κ ν → List (κ × ν) × Option (Cursor κ ν)
  | 0, c => ([], some c)
  | n + 1, c =>
    match c.next with
    | none => ([c.first], none)
    | some c' =>
      let (entries, rest) := take n c'
      (c.first :: entries, rest)

/-- All entries from here on. -/
def toList (c : Cursor κ ν) : List (κ × ν) :=
  match _h : c.next with
  | none => [c.first]
  | some c' => c.first :: c'.toList
termination_by weight (c.top :: c.stack)
decreasing_by exact weight_lt_of_next _h

/-- The text of the entries from here on, given the texts of keys and values. -/
def text (key : κ → String) (value : ν → String) (c : Cursor κ ν) : String :=
  Text.ofList (c.toList.map fun e => Text.ofTuple [key e.1, value e.2])

end Cursor

/-- The cursor at the least key if `ascending`, else at the greatest; an empty map has none. -/
def cursor (m : SortedMap κ ν) (ascending : Bool) : Option (Cursor κ ν) :=
  Cursor.ofStack? ascending (some m.size) (descend ascending m.root [])

/-- The cursor at the first key that is not before a given one in the direction of travel. -/
def cursorAt (m : SortedMap κ ν) (key : κ) (ascending : Bool) : Option (Cursor κ ν) :=
  Cursor.ofStack? ascending none (descendTo m.comparator.compare key ascending m.root [])

end PersistentCollections.SortedMap
