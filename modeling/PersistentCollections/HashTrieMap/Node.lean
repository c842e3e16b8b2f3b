import PersistentCollections.Hash.Code
import PersistentCollections.HashTrieMap.Bitmap
import PersistentCollections.HashTrieMap.Entries
import PersistentCollections.Reduce

/-!
# Nodes of a hash trie

A hash is read as seven digits of five bits, the least significant first; the last digit has two
bits. A node that has `left` digits to go places its contents by the next one. There are three
kinds of node:

* `bitmap`: the populated places only, in order, each an entry or a child;
* `array`: a table of children, used once a bitmap node would hold more than `mostSlots` places,
  and packed again when removals leave it with `fewestChildren` or fewer;
* `collision`: entries whose keys have the same hash.

Versions of a map have nodes in common. A node carries the stamp of the version that wrote it, and
whatever an operation writes gets the stamp of that operation: the nodes on the way to the key, and
those that are new.

`insert` keeps the stored key of an entry that it overwrites. `erase` gives back a node in which a
child that was left with a single entry is replaced by that entry; packing does the same to the
children that have no other owner, which its argument `sole` tells. `touch` is what is left of a
removal that finds nothing.
-/

namespace PersistentCollections.HashTrieMap

/-- The number of digits of a hash. -/
def digits : Nat := 7

/-- A bitmap node with this many places turns into an array node when one is added. -/
def mostSlots : Nat := 16

/-- An array node left with this many children or fewer is packed. -/
def fewestChildren : Nat := 8

mutual

/-- A populated place of a bitmap node. -/
inductive Slot (κ ν : Type) where
  | leaf (entry : κ × ν)
  | inner (child : Node κ ν)

inductive Node (κ ν : Type) where
  | bitmap (stamp : Nat) (bits : Bitmap) (slots : List (Slot κ ν))
  | array (stamp : Nat) (count : Nat) (children : List (Option (Node κ ν)))
  | collision (stamp : Nat) (hash : UInt32) (entries : List (κ × ν))

end

/-- Whether the child with a given stamp, at a position of the node with a given shift, belongs to
that node alone. -/
abbrev Sharing := (shift position stamp : Nat) → Bool

/-- Every child has another owner: an older version of the map is alive. -/
def Sharing.shared : Sharing := fun _ _ _ => false

/-- The children that one version wrote have no other owner, and all others have one. -/
def Sharing.writtenBy (version : Nat) : Sharing := fun _ _ stamp => stamp == version

/-- The number of hash bits used up when `left` digits are to go. -/
def shiftOf (left : Nat) : Nat := 5 * digits - 5 * left

/-- The next digit of a hash when `left` digits are to go. -/
def position (hash : UInt32) (left : Nat) : Nat := hash.toNat / Nat.pow 2 (shiftOf left) % width

namespace Node

variable {κ ν : Type}

def empty (now : Nat) : Node κ ν := .bitmap now .empty []

/-- The node with one entry. -/
def singleton (now : Nat) (hash : UInt32) (entry : κ × ν) : (left : Nat) → Result (Node κ ν)
  | 0 => broken .hashExhausted
  | left + 1 => .ok (.bitmap now (Bitmap.empty.insert (position hash (left + 1))) [.leaf entry])

def isEmpty : Node κ ν → Bool
  | .bitmap _ _ slots => slots.isEmpty
  | .array _ count _ => count == 0
  | .collision _ _ entries => entries.isEmpty

/-- The entry of a node that holds nothing else. -/
def single? : Node κ ν → Option (κ × ν)
  | .bitmap _ _ [.leaf entry] => some entry
  | .collision _ _ [entry] => some entry
  | _ => none

/-- The stamp of the version that wrote a node. -/
def stamp : Node κ ν → Nat
  | .bitmap stamp _ _ | .array stamp _ _ | .collision stamp _ _ => stamp

/-- The child of a node at a position. -/
def child? (p : Nat) : Node κ ν → Option (Node κ ν)
  | .bitmap _ bits slots =>
    if bits.has p then
      match slots[bits.rank p]? with
      | some (.inner child) => some child
      | _ => none
    else none
  | .array _ _ children => children[p]?.join
  | .collision .. => none

/-- The child at a position of the node with a given shift on the way of a hash. -/
def childOnWay? (hash : UInt32) (shift p : Nat) : (left : Nat) → Node κ ν → Option (Node κ ν)
  | 0, _ => none
  | left + 1, node =>
    if shiftOf (left + 1) = shift then node.child? p
    else match node.child? (position hash (left + 1)) with
      | some child => child.childOnWay? hash shift p left
      | none => none

/-! ## Reading -/

/-- The entry of a key. -/
def find? [BEq κ] (key : κ) (hash : UInt32) : (left : Nat) → Node κ ν → Result (Option (κ × ν))
  | 0, .collision _ h entries | _ + 1, .collision _ h entries =>
    .ok (if h = hash then Entries.find? key entries else none)
  | 0, .bitmap .. | 0, .array .. => broken .hashExhausted
  | left + 1, .bitmap _ bits slots =>
    let p := position hash (left + 1)
    if bits.has p then
      match slots[bits.rank p]? with
      | some (.leaf entry) => .ok (if entry.1 == key then some entry else none)
      | some (.inner child) => find? key hash left child
      | none => broken (.slotMissing (bits.rank p) slots.length)
    else .ok none
  | left + 1, .array _ _ children =>
    let p := position hash (left + 1)
    match children[p]? with
    | some (some child) => find? key hash left child
    | some none => .ok none
    | none => broken (.slotMissing p children.length)

section Visit

variable {m : Type → Type} [Monad m] {β : Type}

mutual

/-- Fold over the entries of a node, depth first, and tell whether the step function stopped. -/
def visit (f : β → κ → ν → m (ForInStep β)) : Node κ ν → β → m (ForInStep β)
  | .bitmap _ _ slots, b => visitSlots f slots b
  | .array _ _ children, b => visitChildren f children b
  | .collision _ _ entries, b => visitList (fun b e => f b e.1 e.2) entries b

def visitSlots (f : β → κ → ν → m (ForInStep β)) : List (Slot κ ν) → β → m (ForInStep β)
  | [], b => pure (.yield b)
  | .leaf e :: slots, b => do
    match ← f b e.1 e.2 with
    | .done b => return .done b
    | .yield b => visitSlots f slots b
  | .inner child :: slots, b => do
    match ← visit f child b with
    | .done b => return .done b
    | .yield b => visitSlots f slots b

def visitChildren (f : β → κ → ν → m (ForInStep β)) :
    List (Option (Node κ ν)) → β → m (ForInStep β)
  | [], b => pure (.yield b)
  | none :: children, b => visitChildren f children b
  | some child :: children, b => do
    match ← visit f child b with
    | .done b => return .done b
    | .yield b => visitChildren f children b

end

end Visit

/-! ## Inserting -/

/-- What an insertion gives: the node, the value it replaced, and the records it leaves. -/
structure Inserted (κ ν : Type) where
  node : Node κ ν
  replaced : Option ν
  events : List Event

section Insert

variable [BEq κ] [HashCode κ] (now : Nat)

/-- A node for two entries with distinct keys, given the insertion into a node with `left` digits
to go. -/
def pair (insert : Node κ ν → κ × ν → UInt32 → Result (Inserted κ ν)) (left : Nat)
    (e₁ : κ × ν) (h₁ : UInt32) (e₂ : κ × ν) (h₂ : UInt32) : Result (Inserted κ ν) :=
  if h₁ = h₂ then .ok ⟨.collision now h₁ [e₁, e₂], none, []⟩
  else do insert (← singleton now h₁ e₁ left) e₂ h₂

/-- The children of an array node made from the places of a bitmap node, from position `p` on. -/
def spread (left : Nat) (bits : Bitmap) :
    (positions : List Nat) → List (Slot κ ν) → Result (List (Option (Node κ ν)))
  | [], _ => .ok []
  | p :: positions, slots =>
    if bits.has p then
      match slots with
      | .inner child :: slots => return some child :: (← spread left bits positions slots)
      | .leaf e :: slots => do
        let child ← singleton now (hashCode e.1) e left
        return some child :: (← spread left bits positions slots)
      | [] => return none :: (← spread left bits positions [])
    else return none :: (← spread left bits positions slots)

/-- Turn a full bitmap node with `left + 1` digits to go into an array node that also holds an
entry. -/
def promote (left : Nat) (bits : Bitmap) (slots : List (Slot κ ν)) (entry : κ × ν)
    (hash : UInt32) : Result (Inserted κ ν) := do
  let children ← spread now left bits (List.range width) slots
  let child ← singleton now hash entry left
  return {
    node := .array now (bits.count + 1) (children.set (position hash (left + 1)) (some child))
    replaced := none
    events := [.nodePromoted (shiftOf (left + 1))] }

/-- Insert into a bitmap node with `left + 1` digits to go, given the insertion into a child. -/
def insertBitmap (insert : Node κ ν → κ × ν → UInt32 → Result (Inserted κ ν)) (left : Nat)
    (bits : Bitmap) (slots : List (Slot κ ν)) (entry : κ × ν) (hash : UInt32) :
    Result (Inserted κ ν) :=
  let p := position hash (left + 1)
  let i := bits.rank p
  if bits.has p then
    match slots[i]? with
    | none => broken (.slotMissing i slots.length)
    | some (.inner child) => do
      let r ← insert child entry hash
      return { r with node := .bitmap now bits (slots.set i (.inner r.node)) }
    | some (.leaf stored) =>
      if stored.1 == entry.1 then
        .ok ⟨.bitmap now bits (slots.set i (.leaf (stored.1, entry.2))), some stored.2, []⟩
      else do
        let r ← pair now insert left stored (hashCode stored.1) entry hash
        return ⟨.bitmap now bits (slots.set i (.inner r.node)), none, r.events⟩
  else if slots.length < mostSlots then
    if i ≤ slots.length then
      .ok ⟨.bitmap now (bits.insert p) (slots.insertIdx i (.leaf entry)), none, []⟩
    else broken (.slotMissing i slots.length)
  else promote now left bits slots entry hash

/-- Insert an entry. A node of one hash that another hash reaches is put below a bitmap node, which
then takes the entry. -/
def insert : (left : Nat) → Node κ ν → κ × ν → UInt32 → Result (Inserted κ ν)
  | 0, .collision _ h entries, entry, hash =>
    if h = hash then
      match Entries.setValue? entry.1 entry.2 entries with
      | some (old, entries) => .ok ⟨.collision now h entries, some old, []⟩
      | none => .ok ⟨.collision now h (entries ++ [entry]), none, []⟩
    else broken .hashExhausted
  | 0, .bitmap .., _, _ | 0, .array .., _, _ => broken .hashExhausted
  | left + 1, .bitmap _ bits slots, entry, hash =>
    insertBitmap now (fun node entry hash => insert left node entry hash) left bits slots entry hash
  | left + 1, .array _ count children, entry, hash =>
    let p := position hash (left + 1)
    match children[p]? with
    | some (some child) => do
      let r ← insert left child entry hash
      return { r with node := .array now count (children.set p (some r.node)) }
    | some none => do
      let child ← singleton now hash entry left
      return ⟨.array now (count + 1) (children.set p (some child)), none, []⟩
    | none => broken (.slotMissing p children.length)
  | left + 1, .collision _ h entries, entry, hash =>
    if h = hash then
      match Entries.setValue? entry.1 entry.2 entries with
      | some (old, entries) => .ok ⟨.collision now h entries, some old, []⟩
      | none => .ok ⟨.collision now h (entries ++ [entry]), none, []⟩
    else
      insertBitmap now (fun node entry hash => insert left node entry hash) left
        (Bitmap.empty.insert (position h (left + 1))) [.inner (.collision now h entries)] entry hash

end Insert

/-! ## Removing -/

/-- What a removal gives: the node, the entry taken out, and the records it leaves. -/
structure Erased (κ ν : Type) where
  node : Node κ ν
  entry : κ × ν
  events : List Event

/-- The place that packing makes of a child at position `p`. A child with a single entry and no other
owner gives its place to that entry. -/
def packed (sole : (position stamp : Nat) → Bool) (p : Nat) (child : Node κ ν) : Slot κ ν :=
  match child.single? with
  | some entry => if sole p child.stamp then .leaf entry else .inner child
  | none => .inner child

/-- The places of a bitmap node made from the children of an array node, from position `p` on. -/
def gather (sole : (position stamp : Nat) → Bool) :
    (p : Nat) → List (Option (Node κ ν)) → Bitmap × List (Slot κ ν)
  | _, [] => (.empty, [])
  | p, none :: children => gather sole (p + 1) children
  | p, some child :: children =>
    let (bits, slots) := gather sole (p + 1) children
    (bits.insert p, packed sole p child :: slots)

/-- Turn the children of an array node with `left` digits to go into a bitmap node. -/
def pack (now : Nat) (sole : Sharing) (left : Nat) (children : List (Option (Node κ ν))) :
    Node κ ν × Event :=
  let (bits, slots) := gather (sole (shiftOf left)) 0 children
  (.bitmap now bits slots, .nodePacked (shiftOf left) slots.length)

section Erase

variable (now : Nat)

/-- Take out the entry of a key; absent, if it is not there. -/
def erase [BEq κ] (sole : Sharing) (key : κ) (hash : UInt32) :
    (left : Nat) → Node κ ν → Result (Option (Erased κ ν))
  | 0, .collision _ h entries | _ + 1, .collision _ h entries =>
    if h = hash then
      .ok ((Entries.takeSwap? key entries).map fun (entry, entries) =>
        ⟨.collision now h entries, entry, []⟩)
    else .ok none
  | 0, .bitmap .. | 0, .array .. => broken .hashExhausted
  | left + 1, .bitmap _ bits slots =>
    let p := position hash (left + 1)
    let i := bits.rank p
    if bits.has p then
      match slots[i]? with
      | none => broken (.slotMissing i slots.length)
      | some (.leaf entry) =>
        if entry.1 == key then
          .ok (some ⟨.bitmap now (bits.toggle p) (slots.eraseIdx i), entry, []⟩)
        else .ok none
      | some (.inner child) => do
        match ← erase sole key hash left child with
        | none => return none
        | some r =>
          let node :=
            if r.node.isEmpty then .bitmap now (bits.toggle p) (slots.eraseIdx i)
            else match r.node.single? with
              | some entry => .bitmap now bits (slots.set i (.leaf entry))
              | none => .bitmap now bits (slots.set i (.inner r.node))
          return some { r with node }
    else .ok none
  | left + 1, .array _ count children =>
    let p := position hash (left + 1)
    match children[p]? with
    | none => broken (.slotMissing p children.length)
    | some none => .ok none
    | some (some child) => do
      match ← erase sole key hash left child with
      | none => return none
      | some r =>
        if !r.node.isEmpty then
          return some { r with node := .array now count (children.set p (some r.node)) }
        else if count = 0 then broken .countUnderflow
        else if count - 1 ≤ fewestChildren then
          let (node, event) := pack now sole (left + 1) (children.set p none)
          return some { r with node, events := r.events ++ [event] }
        else return some { r with node := .array now (count - 1) (children.set p none) }

/-- The node in which those on the way of a hash are written anew, without any change. -/
def touch (hash : UInt32) : (left : Nat) → Node κ ν → Node κ ν
  | 0, .collision _ h entries | _ + 1, .collision _ h entries => .collision now h entries
  | 0, .bitmap _ bits slots => .bitmap now bits slots
  | 0, .array _ count children => .array now count children
  | left + 1, .bitmap _ bits slots =>
    let p := position hash (left + 1)
    match (Node.bitmap now bits slots).child? p with
    | some child => .bitmap now bits (slots.set (bits.rank p) (.inner (touch hash left child)))
    | none => .bitmap now bits slots
  | left + 1, .array _ count children =>
    let p := position hash (left + 1)
    match children[p]? with
    | some (some child) => .array now count (children.set p (some (touch hash left child)))
    | _ => .array now count children

end Erase

end Node

end PersistentCollections.HashTrieMap
