/-!
# Checksums

What a workload observes is mixed into a word of 64 bits, its checksum. `unorderedDigest` is a
digest of the contents of a collection that does not depend on their order.
-/

namespace PersistentCollections.Bench

/-- A bijection of words that spreads every bit. -/
def splitmix (x : UInt64) : UInt64 :=
  let z := x + 0x9e3779b97f4a7c15
  let z := (z ^^^ (z >>> 30)) * 0xbf58476d1ce4e5b9
  let z := (z ^^^ (z >>> 27)) * 0x94d049bb133111eb
  z ^^^ (z >>> 31)

def rotateLeft (x n : UInt64) : UInt64 := (x <<< n) ||| (x >>> (64 - n))

/-- The digest of words in any order. -/
def unorderedDigest (words : List UInt64) : UInt64 :=
  let sum := words.foldl (fun sum x => sum + splitmix x) 0
  splitmix (sum ^^^ rotateLeft (UInt64.ofNat words.length) 32)

/-- The word of a key with its value. -/
def entryDigest (key value : UInt64) : UInt64 := splitmix key ^^^ rotateLeft value 17

/-- The digest of entries in any order. -/
def entriesDigest (entries : List (UInt64 × UInt64)) : UInt64 :=
  unorderedDigest (entries.map fun e => entryDigest e.1 e.2)

/-- A digest of the observations so far, in order. -/
structure Checksum where
  word : UInt64
  deriving DecidableEq

namespace Checksum

def zero : Checksum := ⟨0⟩

/-- Mix in an observation. -/
def mix (c : Checksum) (x : UInt64) : Checksum := ⟨splitmix (c.word ^^^ x)⟩

/-- Mix in an observation that may be absent. -/
def mixOption (c : Checksum) : Option UInt64 → Checksum
  | none => c.mix 0
  | some x => c.mix (x + 1)

/-- Mix in several observations. -/
def mixAll (c : Checksum) (xs : List UInt64) : Checksum := xs.foldl mix c

/-- Sixteen hexadecimal digits. -/
def text (c : Checksum) : String :=
  let digits := Nat.toDigits 16 c.word.toNat
  String.ofList (List.replicate (16 - digits.length) '0' ++ digits)

end Checksum

end PersistentCollections.Bench
