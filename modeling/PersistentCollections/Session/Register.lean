import PersistentCollections.HashTrieMap.Cursor
import PersistentCollections.SortedSet
import PersistentCollections.TrieVector.Cursor
import PersistentCollections.Value.Keys

/-!
# Registers

A register holds a collection, a transient or a cursor, or nothing. What it holds may keep maps
alive: a map or a cursor over one keeps that map, and values keep the maps that they are copies of.
-/

namespace PersistentCollections.Session

/-- What a register may hold. A vector has a number, which it has in common with its copies; a
cursor over a map holds on to the map. -/
inductive Register where
  | empty
  | vector (number : Nat) (v : TrieVector Value)
  | window (w : TrieVector.Window Value)
  | map (m : HashTrieMap Value Value)
  | set (s : HashTrieSet Value)
  | sortedMap (named : Bool) (m : SortedMap Value Value)
  | sortedSet (named : Bool) (s : SortedSet Value)
  | transientVector (number : Nat) (t : TrieVector.Transient Value)
  | transientMap (t : HashTrieMap.Transient Value Value)
  | transientSet (t : HashTrieSet.Transient Value)
  | vectorCursor (c : TrieVector.Cursor Value)
  | backCursor (c : TrieVector.BackCursor Value)
  | mapCursor (m : HashTrieMap Value Value) (c : HashTrieMap.Cursor Value Value)
  | setCursor (c : HashTrieSet.Cursor Value)
  | sortedMapCursor (c : SortedMap.Cursor Value Value)
  | sortedSetCursor (c : SortedSet.Cursor Value)

namespace Register

/-- The keys and values in what a register holds. Cursors over sets and sorted collections are left
out: the register of the collection itself still has all of it. -/
def values : Register → List Value
  | .vector _ v | .transientVector _ ⟨v⟩ => v.toList.toOption.getD []
  | .window w => w.backing.toList.toOption.getD []
  | .map m | .transientMap ⟨m⟩ | .mapCursor m _ => m.keys ++ m.values
  | .set ⟨m, _⟩ | .transientSet ⟨⟨m⟩⟩ => m.keys
  | .sortedMap _ m => m.keys ++ m.values
  | .sortedSet _ s => s.toList
  | .vectorCursor c => c.vector.toList.toOption.getD []
  | .backCursor c => c.vector.toList.toOption.getD []
  | _ => []

/-- The map whose nodes a register holds. -/
def map? : Register → Option (HashTrieMap Value Value)
  | .map m | .transientMap ⟨m⟩ | .mapCursor m _ => some m
  | _ => none

end Register

/-- A register with the numbers of the maps that its values are copies of, which are found when they
are first asked for. -/
structure Holding where
  contents : Register
  copies : Thunk NumberSet

namespace Holding

def of (r : Register) : Holding := ⟨r, Thunk.mk fun _ => Value.copiesAmong r.values⟩

def empty : Holding := .of .empty

end Holding

end PersistentCollections.Session
