import PersistentCollections.Bench.Registry
import PersistentCollections.Decimal.Text
import PersistentCollections.Text.Padded

/-!
# Reports

The outcome of a workload, as a row of a table and as a line of JSON. Of the times of the rounds,
the median and the least are told.
-/

namespace PersistentCollections.Bench

/-- The outcome of one workload over all rounds. -/
structure Record where
  family : Family
  implementation : String
  size : Nat
  seed : UInt64
  /-- The checksum of the last round. -/
  checksum : Checksum
  /-- The time of every round in microseconds, in the order of the rounds. -/
  times : List Float

namespace Record

/-- The middle one of the times in ascending order, the upper one of two, and zero if there are
none. -/
def median (r : Record) : Float :=
  (r.times.mergeSort fun a b => decide (a ≤ b)).getD (r.times.length / 2) 0

/-- The least of the times, and zero if there are none. -/
def fastest (r : Record) : Float :=
  match r.times with
  | [] => 0
  | first :: rest => rest.foldl (fun least t => if t < least then t else least) first

/-- The names of the columns. -/
def header : String := "workload\timplementation\tsize\tchecksum\ttime (us)"

/-- A time that is not finite. -/
def unbounded (t : Float) : String := if t < 0 then "-inf" else "inf"

/-- A time in a row: one decimal. -/
def timeColumn (t : Float) : String :=
  match Decimal.Dyadic.ofFloat? t with
  | some d => Decimal.fixed d
  | none => unbounded t

/-- The columns of a record but the last. -/
def columns (r : Record) : List String :=
  [Text.padRight 20 r.family.name, Text.padRight 16 r.implementation,
    Text.padLeft 8 (toString r.size), r.checksum.text]

/-- A row of the table. -/
def row (r : Record) : String :=
  String.intercalate "\t" (r.columns ++ [Text.padLeft 10 (timeColumn r.median)])

/-- How times are written on their own: positional from `0.0001` and below `10 ^ 16`, and a tie
goes up. -/
def plainStyle : Decimal.Style := ⟨-4, 16, false, .up⟩

/-- A time on its own. -/
def plainTime (t : Float) : String :=
  match Decimal.Dyadic.ofFloat? t with
  | some d => plainStyle.text d
  | none => unbounded t

/-- How times are written in JSON: positional from `0.00001` and below `10 ^ 16`, an exponent above
zero has a plus sign, and a tie goes to the even digit. -/
def jsonStyle : Decimal.Style := ⟨-5, 16, true, .toEven⟩

/-- A time as a number of JSON, which has no infinite ones. -/
def jsonTime (t : Float) : String :=
  match Decimal.Dyadic.ofFloat? t with
  | some d => jsonStyle.text d
  | none => "null"

/-- A field of an object. Neither the names nor the texts need escapes. -/
def field (name value : String) : String := "\"" ++ name ++ "\":" ++ value

def textField (name value : String) : String := field name ("\"" ++ value ++ "\"")

/-- A line of JSON, with the fields in alphabetical order. -/
def json (r : Record) : String :=
  "\x7b" ++ String.intercalate "," [
    textField "checksum" r.checksum.text,
    field "fastest_micros" (jsonTime r.fastest),
    textField "implementation" r.implementation,
    field "median_micros" (jsonTime r.median),
    field "rounds" (toString r.times.length),
    field "seed" (toString r.seed.toNat),
    field "size" (toString r.size),
    textField "workload" r.family.name] ++ "\x7d"

end Record

end PersistentCollections.Bench
