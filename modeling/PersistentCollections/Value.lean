import PersistentCollections.HashTrieMap.Place
import PersistentCollections.HashTrieSet
import PersistentCollections.Name
import PersistentCollections.NumberSet

/-!
# Values

A value of any of the kinds that elements, keys and values of the collections may have, for use
where the kind is not known beforehand. Values of different kinds are never equal, and the kinds
are ordered as they are listed. A collection used as a value is known by its contents in their
order of iteration; the entries of a map and the elements of a set have their places with them.

A collection in a value has a summary, so that its hash is found without a look at its contents. A
map also has a mark that says what is to be known of it alone. Whether a map was hashed before
matters to keys that break the laws of `HashCode`, as `Value.Equality` says; `Value.hashed` is the
value whose maps all were. The same collection may be in a value many times, at any depth, and so
what recurs on values stops at a summary where it can.
-/

namespace PersistentCollections

open HashTrieMap (Place)

/-- What is known of a collection besides its contents. -/
structure Summary where
  hash : UInt32
  /-- Whether the collection and all that is in it were hashed. -/
  hashed : Bool
  /-- The numbers of the maps that it and what is in it are copies of. -/
  copies : NumberSet

/-- What a map in a value is marked with: its size, and the cell of a ledger that tells whether it
was hashed. A map without a cell was hashed. -/
structure Mark where
  size : Nat
  cell : Option Nat

inductive Value where
  | nil
  | bool (b : Bool)
  | int (n : Int32)
  | long (n : Int64)
  | char (c : Char)
  | string (s : String)
  | symbol (s : Symbol)
  | keyword (k : Keyword)
  | pair (a b : Value)
  | triple (a b c : Value)
  /-- A vector, with a number that only its own copies share. -/
  | vector (number : Nat) (summary : Summary) (items : List Value)
  /-- A key with a chosen hash: its identity alone decides equality, and the tag is carried
  along. -/
  | token (id : Int64) (hash : UInt32) (tag : Option String)
  | map (mark : Mark) (summary : Summary) (entries : List (Place × Value × Value))
  | set (size : Nat) (summary : Summary) (items : List (Place × Value))

namespace Value

/-! ## Hash -/

def code : Value → UInt32
  | nil => 0
  | bool b => hashCode b
  | int n => hashCode n
  | long n => hashCode n
  | char c => hashCode c
  | string s => hashCode s
  | symbol s => hashCode s
  | keyword k => hashCode k
  | pair a b => Hash.ordered [code a, code b]
  | triple a b c => Hash.ordered [code a, code b, code c]
  | token _ hash _ => hash
  | vector _ summary _ | map _ summary _ | set _ summary _ => summary.hash

instance : HashCode Value where
  hashCode := code
  isNil
    | nil => true
    | _ => false

/-- Whether all maps in a value were hashed. -/
def isHashed : Value → Bool
  | pair a b => isHashed a && isHashed b
  | triple a b c => isHashed a && isHashed b && isHashed c
  | vector _ summary _ | map _ summary _ | set _ summary _ => summary.hashed
  | _ => true

mutual

/-- The value after its hash was asked for. -/
def hashed : Value → Value
  | pair a b => pair (hashed a) (hashed b)
  | triple a b c => triple (hashed a) (hashed b) (hashed c)
  | vector number summary items =>
    if summary.hashed then vector number summary items
    else vector number { summary with hashed := true } (hashedList items)
  | map mark summary entries =>
    if summary.hashed then map mark summary entries
    else map { mark with cell := none } { summary with hashed := true } (hashedEntries entries)
  | set size summary items =>
    if summary.hashed then set size summary items
    else set size { summary with hashed := true } (hashedItems items)
  | v => v

def hashedList : List Value → List Value
  | [] => []
  | x :: xs => hashed x :: hashedList xs

def hashedEntries : List (Place × Value × Value) → List (Place × Value × Value)
  | [] => []
  | (p, k, v) :: es => (p, hashed k, hashed v) :: hashedEntries es

def hashedItems : List (Place × Value) → List (Place × Value)
  | [] => []
  | (p, x) :: xs => (p, hashed x) :: hashedItems xs

end

/-! ## Order -/

/-- The place of the kind of a value among the kinds. -/
def kind : Value → Nat
  | nil => 0
  | bool _ => 1
  | int _ => 2
  | long _ => 3
  | char _ => 4
  | string _ => 5
  | symbol _ => 6
  | keyword _ => 7
  | pair .. => 8
  | triple .. => 9
  | vector .. => 10
  | token .. => 11
  | map .. => 12
  | set .. => 13

mutual

/-- By kind, and within a kind by content. Maps are not told apart, nor are sets. -/
def order : Value → Value → Ordering
  | bool a, bool b => compare a b
  | int a, int b => compare a.toInt b.toInt
  | long a, long b => compare a.toInt b.toInt
  | char a, char b => compare a b
  | string a, string b => compare a b
  | symbol a, symbol b => compare a b
  | keyword a, keyword b => compare a b
  | pair a b, pair a' b' => (order a a').then (order b b')
  | triple a b c, triple a' b' c' => ((order a a').then (order b b')).then (order c c')
  | vector _ _ xs, vector _ _ ys => orderList xs ys
  | token a _ _, token b _ _ => compare a.toInt b.toInt
  | a, b => compare a.kind b.kind

/-- Lexicographic; what is left of a longer list comes after. -/
def orderList : List Value → List Value → Ordering
  | [], [] => .eq
  | [], _ :: _ => .lt
  | _ :: _, [] => .gt
  | x :: xs, y :: ys => (order x y).then (orderList xs ys)

end

instance : Ord Value := ⟨order⟩

/-! ## Text -/

mutual

def text : Value → String
  | nil => "nil"
  | bool b => if b then "true" else "false"
  | int n => s!"{n.toInt}i"
  | long n => s!"{n.toInt}"
  | char c => "'" ++ c.toString ++ "'"
  | string s => "\"" ++ s ++ "\""
  | symbol s => s.text
  | keyword k => k.text
  | pair a b => Text.ofTuple [text a, text b]
  | triple a b c => Text.ofTuple [text a, text b, text c]
  | vector _ _ items => Text.ofList (texts items)
  | token id _ _ => s!"x{id.toInt}"
  | map _ _ entries => Text.ofMap (entryTexts entries)
  | set _ _ items => Text.ofSet (itemTexts items)

def texts : List Value → List String
  | [] => []
  | x :: xs => text x :: texts xs

def entryTexts : List (Place × Value × Value) → List (String × String)
  | [] => []
  | (_, k, v) :: es => (text k, text v) :: entryTexts es

def itemTexts : List (Place × Value) → List String
  | [] => []
  | (_, x) :: xs => text x :: itemTexts xs

end

/-! ## Numbers -/

/-- What a value counts for in a sum: a number for itself, and anything else for one. -/
def number : Value → Int64
  | int n => n.toInt64
  | long n => n
  | _ => 1

/-- What a value counts for in length: characters of a string, elements of a vector, else
nothing. -/
def length : Value → Nat
  | string s => s.length
  | vector _ _ items => items.length
  | _ => 0

/-! ## Collections -/

/-- The numbers of the maps that a value has copies of. -/
def copies : Value → NumberSet
  | pair a b => (copies a).union (copies b)
  | triple a b c => ((copies a).union (copies b)).union (copies c)
  | vector _ summary _ | map _ summary _ | set _ summary _ => summary.copies
  | _ => .empty

/-- The numbers of the maps that some values have copies of. -/
def copiesAmong (vs : List Value) : NumberSet := vs.foldl (fun s v => s.union v.copies) .empty

/-- The value of a vector. -/
def ofItems (number : Nat) (items : List Value) : Value :=
  vector number ⟨Hash.ordered (items.map code), items.all isHashed, copiesAmong items⟩ items

/-- The value of a hash map. A map that is copied has a number. -/
def ofMap (cell copyOf : Option Nat) (m : HashTrieMap Value Value) : Value :=
  let entries := m.placedEntries
  let hash := Hash.unordered (entries.map fun e => Hash.ordered [e.1.hash, code e.2.2])
  let hashed := cell.isNone && entries.all fun e => isHashed e.2.1 && isHashed e.2.2
  let own := copyOf.elim NumberSet.empty NumberSet.singleton
  map ⟨m.size, cell⟩ ⟨hash, hashed, own.union (copiesAmong (m.keys ++ m.values))⟩ entries

/-- The value of a hash set. -/
def ofSet (s : HashTrieSet Value) : Value :=
  let items := s.map.placedEntries.map fun e => (e.1, e.2.1)
  let hash := Hash.unordered (items.map fun e => e.1.hash)
  set s.size ⟨hash, items.all fun e => isHashed e.2, copiesAmong s.map.keys⟩ items

end Value

end PersistentCollections
