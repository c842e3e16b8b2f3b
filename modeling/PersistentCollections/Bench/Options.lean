import PersistentCollections.Bench.Failure

/-!
# Options

The options of the command line. An option is looked for anywhere among the arguments, and what
belongs to it is taken out; what is left in the end is refused. A value is the argument after the
name, or else follows the name and an equals sign, where it may stand in quotes.
-/

namespace PersistentCollections.Bench

structure Options where
  workloads : List String
  size : Nat
  seed : UInt64
  rounds : Nat
  out : Option String
  list : Bool
  deriving DecidableEq

namespace Options

/-! ## Looking for options -/

/-- The arguments that are still there, and a refusal. -/
abbrev Parser := StateT (List String) (Except Failure)

/-- Take a flag out, if it is there. -/
def flag (name : String) : Parser Bool := do
  let arguments ← get
  set (arguments.erase name)
  return arguments.contains name

/-- Take the name of an option and the argument after it out: what stands before the first such
name, the value and the rest. -/
def splitPair (name : String) : List String → Except Failure (Option (String × List String))
  | [] => .ok none
  | argument :: rest =>
    if argument = name then
      match rest with
      | value :: rest => .ok (some (value, rest))
      | [] => .error .missingValue
    else return (← splitPair name rest).map fun (value, rest) => (value, argument :: rest)

/-- What follows the name and an equals sign in an argument. -/
def afterEquals? (name argument : String) : Option (List Char) :=
  let start := name.toList ++ ['=']
  if start.isPrefixOf argument.toList then some (argument.toList.drop start.length) else none

/-- A value without the quotes around it; it must not be empty, and a quote must be closed. -/
def unquote (value : List Char) : Except Failure String :=
  match value with
  | [] => .error .missingValue
  | first :: rest =>
    if first = '"' ∨ first = '\'' then
      if rest.getLast? = some first ∧ rest.dropLast ≠ [] then .ok (String.ofList rest.dropLast)
      else .error .missingValue
    else .ok (String.ofList value)

/-- Take an argument with the name, an equals sign and the value out. -/
def splitEquals (name : String) : List String → Except Failure (Option (String × List String))
  | [] => .ok none
  | argument :: rest =>
    match afterEquals? name argument with
    | some value => return some (← unquote value, rest)
    | none => return (← splitEquals name rest).map fun (value, rest) => (value, argument :: rest)

/-- The value of an option and the arguments without it. A name with an argument after it goes
before a name with an equals sign. -/
def split (name : String) (arguments : List String) :
    Except Failure (Option (String × List String)) := do
  match ← splitPair name arguments with
  | some found => return some found
  | none => splitEquals name arguments

/-- Take an option out, and read its value. -/
def option {α : Type} (name : String) (parse : String → Option α) : Parser (Option α) := do
  match ← split name (← get) with
  | none => return none
  | some (value, rest) =>
    match parse value with
    | none => throw .badValue
    | some a =>
      set rest
      return some a

/-- Take an option out as often as it is there. No more than `most` arguments are left. -/
def optionAll (name : String) : (most : Nat) → Parser (List String)
  | 0 => return []
  | most + 1 => do
    match ← option name some with
    | none => return []
    | some value => return value :: (← optionAll name most)

/-! ## Values -/

/-- A number below `2 ^ 64` in decimal digits, which a plus sign may precede. -/
def natural? (text : String) : Option Nat :=
  let digits := match text.toList with
    | '+' :: digits => digits
    | digits => digits
  if digits.isEmpty || !digits.all Char.isDigit then none
  else
    let n := digits.foldl (fun n c => 10 * n + (c.toNat - '0'.toNat)) 0
    if n < UInt64.size then some n else none

/-! ## The command line -/

def parser : Parser Options := do
  let list ← flag "--list"
  let workloads ← optionAll "--workload" (← get).length
  let size ← option "--size" natural?
  let seed ← option "--seed" natural?
  let rounds ← option "--rounds" natural?
  let out ← option "--out" some
  let rest ← get
  if !rest.isEmpty then throw (.unknownArguments rest)
  let options : Options :=
    ⟨workloads, size.getD 10000, UInt64.ofNat (seed.getD 0), rounds.getD 1, out, list⟩
  if options.rounds = 0 then throw .noRounds
  return options

/-- The options that the arguments give. -/
def parse (arguments : List String) : Except Failure Options := parser.run' arguments

end Options

end PersistentCollections.Bench
