import PersistentCollections.Error

/-!
# Events

Some operations leave a record: a trie that gained a level, a node that changed its kind, a
transient that was frozen. `Logged` is the kind of computation that may leave records and may
fail; `Logged.value` forgets the records.
-/

namespace PersistentCollections

/-- One record of a change in a representation. -/
inductive Event where
  /-- A push raised the trie of a vector that had `size` elements before it. -/
  | vectorGrew (shift size : Nat)
  /-- The ninth key turned a flat hash map into a trie. -/
  | mapPromoted (size : Nat)
  /-- A bitmap node turned into an array node. -/
  | nodePromoted (shift : Nat)
  /-- An array node turned into a bitmap node. -/
  | nodePacked (shift slots : Nat)
  /-- A transient vector was frozen. -/
  | vectorFrozen (size : Nat)
  /-- A transient hash map was frozen. -/
  | mapFrozen (size : Nat)
  deriving DecidableEq

/-- The two weights that records have. -/
inductive Event.Level where
  | trace
  | debug
  deriving DecidableEq

namespace Event

def level : Event → Level
  | .vectorFrozen _ | .mapFrozen _ => .debug
  | _ => .trace

def Level.text : Level → String
  | .trace => "TRACE"
  | .debug => "DEBUG"

def message : Event → String
  | .vectorGrew shift size => s!"vector trie grew to shift {shift} at {size} elements"
  | .mapPromoted size => s!"hash map: promoted {size} flat entries to a trie"
  | .nodePromoted shift => s!"hash map: bitmap node at shift {shift} promoted to an array node"
  | .nodePacked shift slots => s!"hash map: array node at shift {shift} packed into {slots} slots"
  | .vectorFrozen size => s!"froze transient vector of {size} elements"
  | .mapFrozen size => s!"froze transient hash map of {size} entries"

/-- The level and the message, as one line. -/
def line (e : Event) : String := s!"{e.level.text} {e.message}"

end Event

/-- A computation that may leave records and may fail. -/
abbrev Logged := StateT (Array Event) Result

/-- Leave one record. -/
def record (e : Event) : Logged Unit := modify (·.push e)

/-- Leave several records, in order. -/
def recordAll (es : List Event) : Logged Unit := modify fun (log : Array Event) => log ++ es

/-- The value of a computation whose records do not matter. -/
def Logged.value {α : Type} (x : Logged α) : Result α := x.run' #[]

end PersistentCollections
