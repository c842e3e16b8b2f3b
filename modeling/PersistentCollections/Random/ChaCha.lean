import PersistentCollections.Hash.Mix

/-!
# The ChaCha12 block function

A key of eight words and a block counter give a block of sixteen words. The words of the blocks
`0`, `1`, … in order are a stream of random words.
-/

namespace PersistentCollections.Random

/-- Sixteen words: the state that a block starts from, and the block. -/
abbrev Block := Vector UInt32 16

/-- The words that choose the stream. -/
abbrev Key := Vector UInt32 8

namespace Block

/-- Mix four words of a block. -/
def quarter (b : Block) (i j k l : Fin 16) : Block :=
  let p := b[i] + b[j]
  let s := Hash.rotateLeft (b[l] ^^^ p) 16
  let r := b[k] + s
  let q := Hash.rotateLeft (b[j] ^^^ r) 12
  let p := p + q
  let s := Hash.rotateLeft (s ^^^ p) 8
  let r := r + s
  let q := Hash.rotateLeft (q ^^^ r) 7
  (((b.set i p).set j q).set k r).set l s

/-- A round over the columns and a round over the diagonals. -/
def doubleRound (b : Block) : Block :=
  let b := ((b.quarter 0 4 8 12).quarter 1 5 9 13).quarter 2 6 10 14
  let b := (b.quarter 3 7 11 15).quarter 0 5 10 15
  ((b.quarter 1 6 11 12).quarter 2 7 8 13).quarter 3 4 9 14

/-- The four words that every state begins with. -/
def constants : Vector UInt32 4 := #v[0x61707865, 0x3320646e, 0x79622d32, 0x6b206574]

/-- The state that the block of a number starts from. -/
def initial (key : Key) (number : UInt64) : Block :=
  constants ++ key ++ #v[number.toUInt32, (number >>> 32).toUInt32, 0, 0]

/-- The block of a number: six double rounds, and the initial state added. -/
def ofKey (key : Key) (number : UInt64) : Block :=
  let start := initial key number
  let mixed := doubleRound <| doubleRound <| doubleRound <| doubleRound <|
    doubleRound <| doubleRound start
  Vector.zipWith (· + ·) mixed start

end Block

end PersistentCollections.Random
