import PersistentCollections.Session.Machine

/-!
# Who holds a node

Maps may have nodes in common. What a step writes is stamped with its version, so that two maps have
a node in common if their nodes in one place have one stamp. A transient map owns a node alone if no
other map that is still held has it: no map in another register, and no map that was copied into a
value which some collection still has. An entry that is being taken out is still there when nodes
are packed.

Sets need no such comparison. A register that holds a set never loses it, and so a transient set
owns the nodes that it wrote, and no others.
-/

namespace PersistentCollections.Session

/-- The stamp of what a step writes. A transient that it makes has the one after it. -/
def version (here : Nat) : Nat := 2 * here + 2

namespace Machine

/-- The copied maps of given numbers. -/
def mapsOf (machine : Machine) (numbers : NumberSet) : List (HashTrieMap Value Value) :=
  (numbers.below machine.copied.size).filterMap fun n => (machine.copyOf? n).bind Copy.map?

/-- Whether any map was copied into values. -/
def anyMapCopied (machine : Machine) : Bool :=
  machine.copied.any fun copy => (copy.bind Copy.map?).isSome

/-- The maps that the registers other than a given one hold, and those that their values are copies
of. -/
def heldElsewhere (machine : Machine) (index : Nat) : List (HashTrieMap Value Value) :=
  let others := machine.registers.toList.eraseIdx index
  let copied :=
    if machine.anyMapCopied then
      machine.mapsOf (others.foldl (fun numbers h => numbers.union h.copies.get) .empty)
    else []
  others.filterMap (fun h => h.contents.map?) ++ copied

end Machine

/-- Which nodes on the way to a key none of the other maps has. -/
def soleAmong (others : Thunk (List (HashTrieMap Value Value))) (key : Value) :
    HashTrieMap.Sharing :=
  fun shift position stamp => others.get.all fun m =>
    match m.shape with
    | .flat _ => true
    | .trie root _ =>
      match root.childOnWay? (hashCode key) shift position HashTrieMap.digits with
      | some child => child.stamp != stamp
      | none => true

/-- A transient map, with the maps that its keys and values are copies of. -/
structure Owned where
  map : HashTrieMap Value Value
  copies : Thunk (List (HashTrieMap Value Value))

namespace Owned

def ofMap (machine : Machine) (m : HashTrieMap Value Value) : Owned :=
  ⟨m, Thunk.mk fun _ =>
    if machine.anyMapCopied then machine.mapsOf (Value.copiesAmong (m.keys ++ m.values)) else []⟩

/-- Take a key out of a transient map while other maps are held elsewhere, and tell the value. -/
def take (machine : Machine) (elsewhere : Thunk (List (HashTrieMap Value Value))) (o : Owned)
    (key : Value) : Making (Option Value × Owned) := do
  let others := Thunk.mk fun _ => elsewhere.get ++ o.copies.get
  let (entry, m) ← Value.take (soleAmong others key) o.map key
  match entry with
  | none => return (none, ⟨m, o.copies⟩)
  | some (k, v) =>
    if k.copies.isEmpty && v.copies.isEmpty then return (some v, ⟨m, o.copies⟩)
    else return (some v, .ofMap machine m)

end Owned

end PersistentCollections.Session
