/-!
# Mixing words

The 32-bit Murmur steps that every hash here is made of, the hashes of numbers, and the two ways
of folding the hashes of members into the hash of a collection: `ordered` for sequences and
`unordered`, a sum, for maps and sets. A hash is a word; `signed` reads it as a two's-complement
number. All arithmetic wraps.
-/

namespace PersistentCollections.Hash

def rotateLeft (x n : UInt32) : UInt32 := (x <<< n) ||| (x >>> (32 - n))

/-- Scramble one word of input. -/
def mixK (k : UInt32) : UInt32 := rotateLeft (k * 0xcc9e2d51) 15 * 0x1b873593

/-- Fold a scrambled word into the state. -/
def mixH (h k : UInt32) : UInt32 := rotateLeft (h ^^^ k) 13 * 5 + 0xe6546b64

/-- The final avalanche, which folds in the length of the input. -/
def finish (h length : UInt32) : UInt32 :=
  let h := h ^^^ length
  let h := (h ^^^ (h >>> 16)) * 0x85ebca6b
  let h := (h ^^^ (h >>> 13)) * 0xc2b2ae35
  h ^^^ (h >>> 16)

/-- The hash of a 32-bit number; zero has hash zero. -/
def int (n : UInt32) : UInt32 :=
  if n = 0 then 0 else finish (mixH 0 (mixK n)) 4

/-- The hash of a 64-bit number, low half first; zero has hash zero. -/
def long (n : UInt64) : UInt32 :=
  if n = 0 then 0
  else finish (mixH (mixH 0 (mixK n.toUInt32)) (mixK (n >>> 32).toUInt32)) 8

/-- The word that `combine` and the hash of keywords add. -/
def goldenRatio : UInt32 := 0x9e3779b9

/-- The shift to the right that copies the sign. -/
def shiftSigned (x : UInt32) (n : Int32) : UInt32 := (x.toInt32 >>> n).toUInt32

/-- Fold the hash of the next member of a sequence into the hash of those before it. -/
def combine (seed hash : UInt32) : UInt32 :=
  seed ^^^ (hash + goldenRatio + (seed <<< 6) + shiftSigned seed 2)

/-- Close the hash of a collection of `count` members; the count is taken modulo `2 ^ 32`. -/
def mixCollection (basis : UInt32) (count : Nat) : UInt32 :=
  finish (mixH 0 (mixK basis)) (UInt32.ofNat count)

/-- The hash of a sequence with these hashes of members, in order. -/
def ordered : List UInt32 → UInt32
  | [] => mixCollection 1 0
  | h :: hs => mixCollection (hs.foldl combine h) (hs.length + 1)

/-- The hash of a map or set with these hashes of members, in any order. -/
def unordered (hs : List UInt32) : UInt32 :=
  mixCollection (hs.foldl (· + ·) 0) hs.length

/-- A hash, read as a signed number. -/
def signed (h : UInt32) : Int := h.toInt32.toInt

end PersistentCollections.Hash
