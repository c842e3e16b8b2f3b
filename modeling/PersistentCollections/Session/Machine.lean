import PersistentCollections.Session.Answer
import PersistentCollections.Session.Register

/-!
# The state of a session

The state of a session is its registers, the ledger of the values that were written out, and the
records of the current step. A step owns the register of its number and puts there what it makes.
-/

namespace PersistentCollections.Session

/-- A collection as it was copied into values. The nodes of a map are held by its copies as well. -/
structure Copy where
  value : Value
  map? : Option (HashTrieMap Value Value)

structure Machine where
  registers : Array Holding
  ledger : Ledger
  /-- The copies that were made of what registers hold or once held. -/
  copied : Array (Option Copy)
  log : Array Event

namespace Machine

def start (size : Nat) : Machine := ⟨.replicate size .empty, .empty, .replicate size none, #[]⟩

def copyOf? (machine : Machine) (index : Nat) : Option Copy := machine.copied[index]?.join

end Machine

/-- A part of a step. -/
abbrev Act := ExceptT Failure (StateM Machine)

/-- Use an outcome of the library. -/
def result {α : Type} (r : Result α) : Act α :=
  match r with
  | .ok a => return a
  | .error e => throw (.library e)

/-- Use an operation that leaves records. -/
def logged {α : Type} (x : Logged α) : Act α := do
  let (a, events) ← result (x.run #[])
  modify fun m => { m with log := m.log ++ events }
  return a

/-- Use a computation that makes collections of values. -/
def making {α : Type} (x : Making α) : Act α := do
  let ledger ← modifyGet fun m => (m.ledger, { m with ledger := .empty })
  match (x.run ledger).run #[] with
  | .ok ((a, ledger), events) =>
    modify fun m => { m with ledger, log := m.log ++ events }
    return a
  | .error e => throw (.library e)

/-- What a register holds, which must not be nothing. -/
def read (index : Nat) : Act Register := do
  match (← get).registers[index]?.map Holding.contents with
  | none | some .empty => throw .emptyRegister
  | some r => return r

def write (index : Nat) (r : Register) : Act Unit :=
  modify fun m => { m with registers := m.registers.setIfInBounds index (.of r) }

/-! ## Operands -/

/-- The copy of what a register holds. The number of a map is that of its register. -/
def copyOf (index : Nat) (r : Register) : Act Copy := do
  match r with
  | .vector number v => return ⟨.ofItems number (← result v.toList), none⟩
  | .map m => return ⟨.ofMap none (some index) m, some m⟩
  | .set s => return ⟨.ofSet s, none⟩
  | _ => throw .unsupported

/-- The value that an operand stands for. A register that holds a collection never comes to hold
another one, and so one copy will do. -/
def operand : Operand → Act Value
  | .literal l => making l.build
  | .register index => do
    let r ← read index
    match (← get).copyOf? index with
    | some copy => return copy.value
    | none =>
      let copy ← copyOf index r
      modify fun machine =>
        { machine with copied := machine.copied.setIfInBounds index (some copy) }
      return copy.value

/-- The value of an operand that a collection keeps, but not as a key. It is hashed when the
collection is, and is not compared before. -/
def kept (o : Operand) : Act Value := do
  let v ← operand o
  match o with
  | .literal _ => return v.hashed
  | .register _ => return v

/-- The values of literals that a collection keeps, but not as keys. -/
def keptAll (ls : List Literal) : Act (List Value) := do
  return (← making (Literal.buildList ls)).map Value.hashed

/-- The entries of literals that a map keeps. -/
def keptEntries (es : List (Literal × Literal)) : Act (List (Value × Value)) := do
  return (← making (Literal.buildEntries es)).map fun e => (e.1, e.2.hashed)

/-- The bound that is written out. -/
def bound : SortedMap.Bound Literal → Act (SortedMap.Bound Value)
  | .included l => return .included (← making l.build)
  | .excluded l => return .excluded (← making l.build)
  | .unbounded => return .unbounded

/-! ## States -/

/-- The most items that a state lists. -/
def fewItems : Nat := 16

def few (size : Nat) (items : List Item) : Option (List Item) :=
  if size ≤ fewItems then some items else none

/-- The list of few items, which may fail to be read. -/
def fewM (size : Nat) (items : Result (List Item)) : Act (Option (List Item)) :=
  if size ≤ fewItems then some <$> result items else return none

/-- The state of what a register holds, and the same with the hash that this made known. -/
def inspect (r : Register) : Act (State × Register) := do
  match r with
  | .empty => throw .emptyRegister
  | .vector number v =>
    let v ← result v.hashed
    let items ← fewM v.size (List.map Item.value <$> v.toList)
    return (.vector v.size v.shift (← result v.hash) items, .vector number v)
  | .window w =>
    let w ← result w.hashed
    let items ← fewM w.size (List.map Item.value <$> w.toList)
    return (.window w.size (← result w.hash) items, .window w)
  | .map m =>
    let m := (Value.hashedKeys m).hashed
    return (.map m.size m.hash (few m.size (m.toList.map Item.ofEntry)), .map m)
  | .set s =>
    let s := { s with map := Value.hashedKeys s.map }.hashed
    return (.set s.size s.hash (few s.size (s.toList.map Item.value)), .set s)
  | .sortedMap named m =>
    let m := m.hashed
    let items := few m.size (m.toList.map Item.ofEntry)
    return (.sortedMap named m.size m.hash items m.check, .sortedMap named m)
  | .sortedSet named s =>
    let s := s.hashed
    let items := few s.size (s.toList.map Item.value)
    return (.sortedSet named s.size s.hash items s.check, .sortedSet named s)
  | .transientVector _ t =>
    let items ← fewM t.size (List.map Item.value <$> t.vector.toList)
    return (.transientVector t.size items, r)
  | .transientMap t => return (.transientMap t.size, r)
  | .transientSet t => return (.transientSet t.size, r)
  | .vectorCursor c =>
    return (.cursor (.vector c.index) (.value (← result c.first)) c.count, r)
  | .backCursor c => return (.cursor .back (.value (← result c.first)) c.count, r)
  | .mapCursor _ c => return (.cursor .map (.ofEntry (← result c.first)) c.count, r)
  | .setCursor c => return (.cursor .set (.value (← result c.first)) c.count, r)
  | .sortedMapCursor c =>
    return (.cursor (.sortedMap c.ascending) (.ofEntry c.first) c.count, r)
  | .sortedSetCursor c => return (.cursor .sortedSet (.value c.first) c.count, r)

/-- Put something into a register and report its state. -/
def store (index : Nat) (r : Register) : Act Answer := do
  let (state, r) ← inspect r
  write index r
  return .state state

/-- Put a vector into a register that is no copy of another one. -/
def storeVector (index : Nat) (v : TrieVector Value) : Act Answer := do
  store index (.vector (← making newNumber) v)

/-- Put something into a register if there is something. -/
def storeOption (index : Nat) : Option Register → Act Answer
  | none => return .nothing
  | some r => store index r

/-- Walk with an iterator, given its hint and its way to take some items. Without a limit the walk
goes to the end; no collection has as many items as there are words. -/
def walkWith {ι : Type} (hint : ι → Hint) (take : Nat → ι → Act (List Item × ι))
    (skip : Nat) (most : Option Nat) (it : ι) : Act Answer := do
  let (dropped, rest) ← take skip it
  let (items, rest') ← take (most.getD UInt64.size) rest
  let (more, _) ← take 1 rest'
  return .walk ⟨hint it, dropped.length, hint rest, items, !more.isEmpty⟩

/-- Walk from a cursor, given its way to take some items. A cursor says nothing of what is left. -/
def walkFrom {ι : Type} (take : Nat → ι → Act (List Item × Option ι))
    (skip : Nat) (most : Option Nat) (c : ι) : Act Answer :=
  let take : Nat → Option ι → Act (List Item × Option ι)
    | _, none => return ([], none)
    | n, some c => take n c
  walkWith (fun _ => (0, none)) take skip most (some c)

/-- Do a step several times; the first failure ends it. -/
def repeatedly {σ : Type} (step : σ → Act σ) : Nat → σ → Act σ
  | 0, s => return s
  | n + 1, s => do repeatedly step n (← step s)

/-- Take a step of a cursor several times; it may come to the end before. -/
def repeated {ι : Type} (next : ι → Act (Option ι)) : Nat → ι → Act (Option ι)
  | 0, c => return some c
  | n + 1, c => do
    match ← next c with
    | none => return none
    | some c => repeated next n c

end PersistentCollections.Session
