import PersistentCollections.Value

/-!
# Equality of values

Two maps are equal if they have as many entries and each key of the one is found in the other, with
an equal value. Before that is tried, two maps that were hashed are told apart by their hashes. A
lookup in a trie hashes the key that is looked up, and a lookup in a flat map does not. For keys
that break the laws of `HashCode`, equality therefore depends on what was hashed before, on what is
hashed on the way, and on which of the two values is on the left.

A ledger has a cell for each map that was written out, which tells whether it was hashed. `same`
compares two values and keeps the ledger. Values that were hashed need none: a map without a cell in
the ledger counts as hashed, so that `==` is the comparison with an empty ledger.
-/

namespace PersistentCollections

open HashTrieMap (Place)

/-- Whether the collection with a given number was hashed. -/
structure Ledger where
  hashed : Array Bool

namespace Ledger

def empty : Ledger := ⟨#[]⟩

def isHashed (ledger : Ledger) (mark : Mark) : Bool :=
  match mark.cell with
  | some n => ledger.hashed[n]?.getD true
  | none => true

def enter (ledger : Ledger) (mark : Mark) : Ledger :=
  match mark.cell with
  | some n => ⟨ledger.hashed.setIfInBounds n true⟩
  | none => ledger

/-- A number for a new collection, which was not hashed yet. -/
def next (ledger : Ledger) : Nat × Ledger := (ledger.hashed.size, ⟨ledger.hashed.push false⟩)

end Ledger

/-- A computation that may hash maps on its way. -/
abbrev Hashing := StateM Ledger

namespace Value

mutual

/-- Ask for the hash of a value. Whatever is in a map that was hashed was hashed with it. -/
def learn : Value → Hashing Unit
  | pair a b => do
    learn a
    learn b
  | triple a b c => do
    learn a
    learn b
    learn c
  | vector _ summary items => if summary.hashed then return () else learnList items
  | map mark _ entries => do
    if (← get).isHashed mark then return ()
    modify (·.enter mark)
    learnEntries entries
  | set _ summary items => if summary.hashed then return () else learnItems items
  | _ => return ()

def learnList : List Value → Hashing Unit
  | [] => return ()
  | x :: xs => do
    learn x
    learnList xs

def learnEntries : List (Place × Value × Value) → Hashing Unit
  | [] => return ()
  | (_, k, v) :: es => do
    learn k
    learn v
    learnEntries es

def learnItems : List (Place × Value) → Hashing Unit
  | [] => return ()
  | (_, x) :: xs => do
    learn x
    learnItems xs

end

/-! ## Lookup

The entries that a hash leads to stand next to each other. Keys are mostly looked up in the order of
the entries, so the search for the first of them goes on where the last one ended. The entry of the
nil key of a trie is the first of all, and the hash of nil may lead to a second one behind it: nil
is looked up from the start.
-/

/-- The last part of a list of placed items that begins with the ones a key with a given hash may
be among. The search begins with `next`, which is a last part too, and then tries the whole list. -/
def seek {α : Type} (key : Value) (hash : UInt32) (next whole : List (Place × α)) :
    List (Place × α) :=
  if HashCode.isNil key then whole
  else
    match next.dropWhile fun e => !e.1.leads hash with
    | [] => whole.dropWhile fun e => !e.1.leads hash
    | found => found

/-- The placed items that a hash leads to, at the beginning of a list. -/
def candidates {α : Type} (hash : UInt32) (items : List (Place × α)) : List (Place × α) :=
  items.takeWhile fun e => e.1.leads hash

/-- Hash a key, if it is to be looked up in a trie. -/
def learnFor {α : Type} (items : List (Place × α)) (key : Value) : Hashing Unit :=
  if items.head?.any (·.1.inTrie) then learn key else return ()

/-- A stored entry as a lookup meets it: comparisons of its key and of its value with others. -/
abbrev Probe := (Value → Hashing Bool) × (Value → Hashing Bool)

/-- Whether each of the entries is found in another map, with an equal value. -/
def findEntries (whole : List (Place × Probe)) :
    List (Place × Value × Value) → List (Place × Probe) → Hashing Bool
  | [], _ => return true
  | (p, k, v) :: es, next => do
    learnFor whole k
    let next := seek k p.hash next whole
    match ← (candidates p.hash next).findM? fun stored => stored.2.1 k with
    | some (_, _, value) => if ← value v then findEntries whole es next else return false
    | none => return false

/-- Whether each of the elements is found in another set. -/
def findItems (whole : List (Place × (Value → Hashing Bool))) :
    List (Place × Value) → List (Place × (Value → Hashing Bool)) → Hashing Bool
  | [], _ => return true
  | (p, x) :: xs, next => do
    learnFor whole x
    let next := seek x p.hash next whole
    match ← (candidates p.hash next).findM? fun stored => stored.2 x with
    | some _ => findItems whole xs next
    | none => return false

/-! ## Comparison

The functions below recur on one of the two values, which is the right one of the comparison if
`flipped` is set. The stored key of a lookup is on the left.
-/

mutual

def same (flipped : Bool) : Value → Value → Hashing Bool
  | nil, nil => return true
  | bool a, bool b => return a == b
  | int a, int b => return a == b
  | long a, long b => return a == b
  | char a, char b => return a == b
  | string a, string b => return a == b
  | symbol a, symbol b => return a == b
  | keyword a, keyword b => return a == b
  | pair a b, pair a' b' => do
    if ← same flipped a a' then same flipped b b' else return false
  | triple a b c, triple a' b' c' => do
    if ← same flipped a a' then
      if ← same flipped b b' then same flipped c c' else return false
    else return false
  | vector m _ xs, vector n _ ys =>
    if xs.length != ys.length then return false
    else if m == n then return true
    else sameList flipped xs ys
  | token a _ _, token b _ _ => return a == b
  | map m s xs, map n t ys => do
    let ledger ← get
    if m.size != n.size then return false
    else if ledger.isHashed m && ledger.isHashed n && s.hash != t.hash then return false
    else if flipped then
      let stored := probes xs
      findEntries stored ys stored
    else hasEntries ys xs ys
  | set m _ xs, set n _ ys =>
    if m != n then return false
    else if flipped then
      let stored := itemProbes xs
      findItems stored ys stored
    else hasItems ys xs ys
  | _, _ => return false
termination_by structural v => v

def sameList (flipped : Bool) : List Value → List Value → Hashing Bool
  | [], [] => return true
  | x :: xs, y :: ys => do if ← same flipped x y then sameList flipped xs ys else return false
  | _, _ => return false
termination_by structural xs => xs

/-- Whether the key of each of the entries is found in another map, with an equal value. -/
def hasEntries (whole : List (Place × Value × Value)) :
    List (Place × Value × Value) → List (Place × Value × Value) → Hashing Bool
  | [], _ => return true
  | (p, k, v) :: es, next => do
    learnFor whole k
    let next := seek k p.hash next whole
    match ← (candidates p.hash next).findM? fun e => same true k e.2.1 with
    | some (_, _, v') => if ← same false v v' then hasEntries whole es next else return false
    | none => return false
termination_by structural es => es

/-- Whether each of the elements is found in another set. -/
def hasItems (whole : List (Place × Value)) :
    List (Place × Value) → List (Place × Value) → Hashing Bool
  | [], _ => return true
  | (p, x) :: xs, next => do
    learnFor whole x
    let next := seek x p.hash next whole
    match ← (candidates p.hash next).findM? fun e => same true x e.2 with
    | some _ => hasItems whole xs next
    | none => return false
termination_by structural xs => xs

/-- Stored entries as lookups of another map meet them. -/
def probes : List (Place × Value × Value) → List (Place × Probe)
  | [] => []
  | (p, k, v) :: es => (p, fun key => same false k key, fun value => same true v value) :: probes es
termination_by structural es => es

/-- Stored elements as lookups of another set meet them. -/
def itemProbes : List (Place × Value) → List (Place × (Value → Hashing Bool))
  | [] => []
  | (p, x) :: xs => (p, fun other => same false x other) :: itemProbes xs
termination_by structural xs => xs

end

/-- The comparison of values that were hashed. -/
instance : BEq Value := ⟨fun a b => (same false a b .empty).1⟩

end Value

end PersistentCollections
