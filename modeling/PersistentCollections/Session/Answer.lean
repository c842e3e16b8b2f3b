import PersistentCollections.Session.Step

/-!
# Answers of a session

What a step reports: the state of what it made, or what it read. `Failure` says why a step has
nothing to report.
-/

namespace PersistentCollections.Session

/-- What a collection gives out one at a time. -/
inductive Item where
  | value (v : Value)
  | entry (key value : Value)

namespace Item

def ofEntry (e : Value × Value) : Item := .entry e.1 e.2

/-- What an item counts for in a sum; of an entry, its value. -/
def number : Item → Int64
  | .value v => v.number
  | .entry _ v => v.number

end Item

/-- The cursors, each with what it shows besides its first item and its count. -/
inductive CursorKind where
  | vector (index : Nat)
  | back
  | map
  | set
  | sortedMap (ascending : Bool)
  | sortedSet

/-- What can be seen of the contents of a register. Items are listed only if there are few. -/
inductive State where
  | vector (size shift : Nat) (hash : UInt32) (items : Option (List Item))
  | window (size : Nat) (hash : UInt32) (items : Option (List Item))
  | map (size : Nat) (hash : UInt32) (items : Option (List Item))
  | set (size : Nat) (hash : UInt32) (items : Option (List Item))
  | sortedMap (named : Bool) (size : Nat) (hash : UInt32) (items : Option (List Item))
    (check : Except SortedMap.Flaw Unit)
  | sortedSet (named : Bool) (size : Nat) (hash : UInt32) (items : Option (List Item))
    (check : Except SortedMap.Flaw Unit)
  | transientVector (size : Nat) (items : Option (List Item))
  | transientMap (size : Nat)
  | transientSet (size : Nat)
  | cursor (kind : CursorKind) (first : Item) (count : Nat)

/-- The least and the greatest number of items left; the latter may be unknown. -/
abbrev Hint := Nat × Option Nat

/-- What a walk saw: the hints before and after the items it skipped, the number of those, the
items it then read, and whether more follow. -/
structure Walk where
  hint : Hint
  skipped : Nat
  hintAfter : Hint
  items : List Item
  more : Bool

/-- What a fold has come to: the sum, the items taken, and the number of times that the step
function was applied. -/
structure Progress where
  sum : Int64
  taken : Array Item
  calls : Nat

namespace Progress

def start : Progress := ⟨0, #[], 0⟩

/-- Apply a step function of a session. -/
def step (f : Fold) (p : Progress) (item : Item) : ForInStep Progress :=
  let next := p.sum + item.number
  let calls := p.calls + 1
  match f with
  | .sum => .yield ⟨next, p.taken, calls⟩
  | .take count =>
    let taken := p.taken.push item
    if taken.size ≥ count then .done ⟨next, taken, calls⟩ else .yield ⟨next, taken, calls⟩
  | .limit most =>
    if next.toInt > most then .done ⟨p.sum, p.taken, calls⟩ else .yield ⟨next, p.taken, calls⟩

end Progress

/-- What a step reports. -/
inductive Answer where
  | nothing
  | state (s : State)
  | flag (b : Bool)
  | number (n : Nat)
  | numbers (ns : List Nat)
  | code (hash : UInt32)
  | text (s : String)
  | item (i : Item)
  | optional (i : Option Item)
  | items (is : List Item)
  | walk (w : Walk)
  | fold (p : Progress)
  | check (c : Except SortedMap.Flaw Unit)
  | path (found : Bool) (keys : List Value)

/-- Why a step reports nothing. -/
inductive Failure where
  | library (e : Error)
  /-- A register that the step names holds nothing. -/
  | emptyRegister
  /-- What the register holds has no such operation. -/
  | unsupported

end PersistentCollections.Session
