import PersistentCollections.Error

/-!
# Red-black trees

Search trees whose nodes are red or black. An insertion makes a red node, and `balanceLeft` and
`balanceRight` mend a red node with a red child on the way up. A removal joins the two subtrees of
the node with `append`, and `balanceLeftDel` and `balanceRightDel` mend a subtree whose paths lack
one black node. The root is made black after every change.

A case that the colours of a red-black tree exclude ends in a `Breach`.
-/

namespace PersistentCollections.SortedMap

inductive Color where
  | red
  | black
  deriving DecidableEq

inductive Tree (κ ν : Type) where
  | nil
  | node (color : Color) (left : Tree κ ν) (entry : κ × ν) (right : Tree κ ν)

namespace Tree

variable {κ ν : Type}

/-- The number of entries. -/
def size : Tree κ ν → Nat
  | nil => 0
  | node _ l _ r => l.size + r.size + 1

def isRed : Tree κ ν → Bool
  | node .red .. => true
  | _ => false

def isBlack : Tree κ ν → Bool
  | node .black .. => true
  | _ => false

/-- The tree with a black root. -/
def blacken : Tree κ ν → Tree κ ν
  | nil => nil
  | node _ l x r => node .black l x r

/-! ## Mending -/

/-- A black tree with a red root instead. -/
def redden : Tree κ ν → Result (Tree κ ν)
  | node .black l x r => .ok (node .red l x r)
  | _ => broken .colouring

/-- A black node whose left subtree may be red with a red child. -/
def balanceLeft : (left : Tree κ ν) → (entry : κ × ν) → (right : Tree κ ν) → Tree κ ν
  | node .red (node .red a x b) y c, z, d => node .red (node .black a x b) y (node .black c z d)
  | node .red a x (node .red b y c), z, d => node .red (node .black a x b) y (node .black c z d)
  | l, x, r => node .black l x r

/-- A black node whose right subtree may be red with a red child. -/
def balanceRight : (left : Tree κ ν) → (entry : κ × ν) → (right : Tree κ ν) → Tree κ ν
  | a, x, node .red b y (node .red c z d) => node .red (node .black a x b) y (node .black c z d)
  | a, x, node .red (node .red b y c) z d => node .red (node .black a x b) y (node .black c z d)
  | l, x, r => node .black l x r

/-- A node whose left subtree lacks one black node on every path. -/
def balanceLeftDel : (left : Tree κ ν) → (entry : κ × ν) → (right : Tree κ ν) → Result (Tree κ ν)
  | node .red a x b, y, r => .ok (node .red (node .black a x b) y r)
  | l, x, node .black b y c => .ok (balanceRight l x (node .red b y c))
  | l, x, node .red (node .black b y c) z d => do
    return node .red (node .black l x b) y (balanceRight c z (← redden d))
  | _, _, _ => broken .colouring

/-- A node whose right subtree lacks one black node on every path. -/
def balanceRightDel : (left : Tree κ ν) → (entry : κ × ν) → (right : Tree κ ν) → Result (Tree κ ν)
  | l, x, node .red b y c => .ok (node .red l x (node .black b y c))
  | node .black a x b, y, r => .ok (balanceLeft (node .red a x b) y r)
  | node .red a x (node .black b y c), z, r => do
    return node .red (balanceLeft (← redden a) x b) y (node .black c z r)
  | _, _, _ => broken .colouring

/-- Join the two subtrees of a node that was taken out. -/
def append : (left : Tree κ ν) → (right : Tree κ ν) → Result (Tree κ ν)
  | nil, r => .ok r
  | l, nil => .ok l
  | node .red a x b, node .red c y d => do
    match ← append b c with
    | node .red b z c => return node .red (node .red a x b) z (node .red c y d)
    | bc => return node .red a x (node .red bc y d)
  | node .red a x b, node .black c y d => do
    return node .red a x (← append b (node .black c y d))
  | node .black a x b, node .red c y d => do
    return node .red (← append (node .black a x b) c) y d
  | node .black a x b, node .black c y d => do
    match ← append b c with
    | node .red b z c => return node .red (node .black a x b) z (node .black c y d)
    | bc => balanceLeftDel a x (node .black bc y d)
termination_by l r => l.size + r.size
decreasing_by all_goals simp only [size]; omega

/-! ## Searching and changing -/

section

variable (cmp : κ → κ → Ordering)

/-- The entry whose key is equivalent to a given one. -/
def find? (key : κ) : Tree κ ν → Option (κ × ν)
  | nil => none
  | node _ l x r =>
    match cmp key x.1 with
    | .eq => some x
    | .lt => find? key l
    | .gt => find? key r

/-- The stored keys that a search compares a key with, from the root down. -/
def searchPath (key : κ) : Tree κ ν → List κ
  | nil => []
  | node _ l x r =>
    x.1 :: match cmp key x.1 with
      | .eq => []
      | .lt => searchPath key l
      | .gt => searchPath key r

/-- The tree with a new entry, its root perhaps red with a red child. There is none if an
equivalent key is present. -/
def add? (entry : κ × ν) : Tree κ ν → Option (Tree κ ν)
  | nil => some (node .red nil entry nil)
  | node color l x r =>
    match cmp entry.1 x.1 with
    | .eq => none
    | .lt => (add? entry l).map fun l =>
      match color with
      | .black => balanceLeft l x r
      | .red => node .red l x r
    | .gt => (add? entry r).map fun r =>
      match color with
      | .black => balanceRight l x r
      | .red => node .red l x r

/-- Give the entry with an equivalent key another value. The stored key and all colours stay. -/
def setValue (key : κ) (value : ν) : Tree κ ν → Tree κ ν
  | nil => nil
  | node color l x r =>
    match cmp key x.1 with
    | .eq => node color l (x.1, value) r
    | .lt => node color (setValue key value l) x r
    | .gt => node color l x (setValue key value r)

/-- The tree without the entry with an equivalent key; absent, if there is no such entry. -/
def erase? (key : κ) : Tree κ ν → Result (Option (Tree κ ν))
  | nil => .ok none
  | node _ l x r =>
    match cmp key x.1 with
    | .eq => some <$> append l r
    | .lt => do
      match ← erase? key l with
      | none => return none
      | some l' =>
        if l.isBlack then some <$> balanceLeftDel l' x r else return some (node .red l' x r)
    | .gt => do
      match ← erase? key r with
      | none => return none
      | some r' =>
        if r.isBlack then some <$> balanceRightDel l x r' else return some (node .red l x r')

end

/-- The entry furthest to the left. -/
def first? : Tree κ ν → Option (κ × ν)
  | nil => none
  | node _ nil x _ => some x
  | node _ l _ _ => l.first?

/-- The entry furthest to the right. -/
def last? : Tree κ ν → Option (κ × ν)
  | nil => none
  | node _ _ x nil => some x
  | node _ _ _ r => r.last?

end Tree

/-! ## Checking -/

/-- What is wrong with a tree. -/
inductive Flaw where
  | redRoot
  | keysOutOfOrder
  | redChild
  | blackHeights
  | count
  deriving DecidableEq

def Flaw.message : Flaw → String
  | .redRoot => "red root"
  | .keysOutOfOrder => "keys out of order"
  | .redChild => "red node with a red child"
  | .blackHeights => "unequal black heights"
  | .count => "entry count out of sync"

/-- Stop at a flaw unless a condition holds. -/
def Flaw.unless (flaw : Flaw) (condition : Bool) : Except Flaw Unit :=
  if condition then .ok () else .error flaw

/-- Check the order of keys, also against the bounds that the tree is between, the colours and the
black heights. The result is the black height and the number of entries. -/
def Tree.verify {κ ν : Type} (cmp : κ → κ → Ordering) :
    Tree κ ν → (lower upper : Option κ) → Except Flaw (Nat × Nat)
  | .nil, _, _ => .ok (1, 0)
  | .node color l x r, lower, upper => do
    Flaw.keysOutOfOrder.unless (lower.all fun k => cmp k x.1 == .lt)
    Flaw.keysOutOfOrder.unless (upper.all fun k => cmp x.1 k == .lt)
    Flaw.redChild.unless (color == .black || !(l.isRed || r.isRed))
    let (leftHeight, leftCount) ← l.verify cmp lower (some x.1)
    let (rightHeight, rightCount) ← r.verify cmp (some x.1) upper
    Flaw.blackHeights.unless (leftHeight == rightHeight)
    return (leftHeight + (if color = .black then 1 else 0), leftCount + rightCount + 1)

end PersistentCollections.SortedMap
