import PersistentCollections.SortedSet
import PersistentCollections.Value.Comparators
import PersistentCollections.Value.Literal

/-!
# Steps of a session

A session is a list of steps over numbered registers, each of which may hold a collection of
values, a transient or a cursor. A step makes something new or does something with what is in a
register. This module has the steps and their parts; what they do is in `Session.Run`.
-/

namespace PersistentCollections.Session

/-- A value that a step is given: written out, or the collection in a register. -/
inductive Operand where
  | literal (l : Literal)
  | register (index : Nat)

/-- The kind of key made from a number. -/
inductive KeyKind where
  | long
  | int
  /-- The string `k` followed by the number. -/
  | string
  /-- The keyword `:k` followed by the number. -/
  | keyword
  /-- The token of that identity, whose hash is the number modulo `modulus`, shifted. -/
  | token (modulus : Int) (shift : Nat)

/-- The keys made from the numbers `start`, `start + stride`, …, which wrap. -/
structure KeyRange where
  start : Int64
  count : Nat
  stride : Int64
  kind : KeyKind

namespace KeyRange

def key (kind : KeyKind) (n : Int64) : Value :=
  match kind with
  | .long => .long n
  | .int => .int n.toInt32
  | .string => .string s!"k{n.toInt}"
  | .keyword => .keyword ⟨⟨none, s!"k{n.toInt}"⟩⟩
  | .token modulus shift =>
    .token n (Int32.ofInt (n.toInt % modulus * Nat.pow 2 shift)).toUInt32 none

def keys (r : KeyRange) : List Value :=
  (List.range r.count).map fun i => key r.kind (r.start + Int64.ofNat i * r.stride)

/-- The value that such a key is put with: ten times its identity, its length in bytes or its
number. -/
def valueFor : Value → Value
  | .token id _ _ => .long (10 * id)
  | .string s => .long (10 * Int64.ofNat s.utf8ByteSize)
  | v => .long (10 * v.number)

def entries (r : KeyRange) : List (Value × Value) := r.keys.map fun k => (k, valueFor k)

end KeyRange

/-- A function for `update`. -/
inductive Update where
  /-- One more than the number of the old value; one, if there is none. -/
  | increment
  /-- The vector of the old value alone; nil, if there is none. -/
  | wrap

/-- Apply a function for `update`. A vector that it makes has the given number. -/
def Update.apply (number : Nat) : Update → Option Value → Value
  | .increment, some v => .long (v.number + 1)
  | .increment, none => .long 1
  | .wrap, some v => .ofItems number [v]
  | .wrap, none => .nil

/-- A step function for a fold. Each adds up numbers. -/
inductive Fold where
  | sum
  /-- Collect items as well, and stop with the sum once there are this many. -/
  | take (count : Int)
  /-- Stop with the old sum where the new one would exceed a limit. -/
  | limit (most : Int)

/-- What to do with the contents of a register. -/
inductive Verb where
  | state
  | equals (other : Nat)
  | transient
  /-- Make a transient and give the register up. -/
  | thaw
  /-- Freeze a transient and give the register up. -/
  | freeze
  | push (x : Operand)
  | putAt (index : Nat) (x : Operand)
  | pop
  | pops (count : Nat)
  | getAt (index : Nat)
  | nth (index : Nat)
  | nthOr (index : Nat) (fallback : Operand)
  | subscript (index : Nat)
  | first
  | last
  | window (start stop : Nat)
  | toVector
  | put (key value : Operand)
  | drop (key : Operand)
  /-- Put an entry into a transient and tell the old value; a set takes the value as the
  element. -/
  | exchange (key value : Operand)
  /-- Take a key out of a transient and tell the old value. -/
  | take (key : Operand)
  | get (key : Operand)
  | getOr (key fallback : Operand)
  | contains (key : Operand)
  | entryAt (key : Operand)
  | keys
  | values
  | merge (other : Nat)
  | update (key : Operand) (f : Update)
  | selectKeys (keys : List Literal)
  | isSubset (other : Nat)
  | union (other : Nat)
  | intersection (other : Nat)
  | difference (other : Nat)
  | addRange (range : KeyRange)
  | dropRange (range : KeyRange)
  | extend (items : List Literal)
  | extendEntries (entries : List (Literal × Literal))
  | cursor
  | backCursor
  | cursorAt (key : Operand) (ascending : Bool)
  | range (low high : SortedMap.Bound Literal)
  | backRange (low high : SortedMap.Bound Literal)
  | check
  | comparator
  | searchPath (key : Operand)
  | walk (skip : Nat) (most : Option Nat)
  | fold (f : Fold)
  | foldEntries (f : Fold)
  | text
  /-- The hash of the collection, hashed once more as a stream of one word. -/
  | wordHash
  | next
  | nexts (count : Nat)
  | count
  | chunkFirst
  | chunkNext
  | chunks
  | key
  | value

/-- One step. -/
inductive Step where
  | vector (items : List Literal)
  | map (entries : List (Literal × Literal))
  | set (items : List Literal)
  | sortedMap (entries : List (Literal × Literal))
  | sortedSet (items : List Literal)
  | emptyVector
  | emptyMap
  | emptySet
  | emptyTransientVector
  | emptyTransientMap
  | emptyTransientSet
  /-- An empty sorted map, in the natural order unless a comparator is named. -/
  | emptySortedMap (comparator : Option (Comparator Value))
  | emptySortedSet (comparator : Option (Comparator Value))
  | act (register : Nat) (verb : Verb)

end PersistentCollections.Session
