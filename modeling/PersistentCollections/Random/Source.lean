import PersistentCollections.Random.ChaCha

/-!
# Random numbers from a seed

A `Source` is a place in the stream of words of a key, and the key comes from a seed of 64 bits.
Numbers are drawn from it in `Draw`: single words, pairs of words, and numbers below a bound, each
of which is equally likely. `below` rejects the draws that would favour some of them.

What uses random numbers asks a `Generator` for them. The one that runs is `Generator.chaCha`.
-/

namespace PersistentCollections.Random

/-! ## Keys -/

def rotateRight (x n : UInt32) : UInt32 := (x >>> n) ||| (x <<< (32 - n))

/-- The next state of the linear congruence that seeds are spread with. -/
def spread (state : UInt64) : UInt64 := state * 6364136223846793005 + 11634580027462260723

/-- The word that such a state gives. -/
def spreadWord (state : UInt64) : UInt32 :=
  rotateRight (((state >>> 18) ^^^ state) >>> 27).toUInt32 (state >>> 59).toUInt32

/-- The state after `n` steps from a seed. -/
def spreadState (seed : UInt64) : Nat → UInt64
  | 0 => seed
  | n + 1 => spread (spreadState seed n)

def keyOfSeed (seed : UInt64) : Key :=
  Vector.ofFn fun i => spreadWord (spreadState seed (i + 1))

/-! ## Words -/

/-- A place in a stream of words. The block is the one that the next word is in, unless that is
the first of its block. -/
structure Source where
  key : Key
  position : Nat
  block : Block

/-- Draws from a source. -/
abbrev Draw := StateM Source

/-- The start of the stream of a seed. -/
def Source.ofSeed (seed : UInt64) : Source := ⟨keyOfSeed seed, 0, .replicate 16 0⟩

/-- The next word. -/
def word : Draw UInt32 := fun s =>
  let place := s.position % 16
  let block :=
    if place = 0 then Block.ofKey s.key (UInt64.ofNat (s.position / 16)) else s.block
  (block.get ⟨place, Nat.mod_lt _ (by decide)⟩, ⟨s.key, s.position + 1, block⟩)

/-- The next two words, the low half first. -/
def doubleWord : Draw UInt64 := do
  let low ← word
  let high ← word
  return low.toUInt64 ||| (high.toUInt64 <<< 32)

/-! ## Numbers below a bound -/

/-- A draw of a number below `2 ^ bits`. -/
structure Width where
  bits : Nat
  draw : Draw Nat

def single : Width := ⟨32, UInt32.toNat <$> word⟩

def double : Width := ⟨64, UInt64.toNat <$> doubleWord⟩

namespace Width

/-- The greatest low half of a product that is accepted: the bound, shifted until its first bit is
the highest, less one. -/
def zone (w : Width) (bound : Nat) : Nat := bound * Nat.pow 2 (w.bits - 1 - Nat.log2 bound) - 1

/-- Draw until the product with the bound is accepted, and at most `attempts + 1` times. At least
half of the draws are accepted. -/
def belowWithin (w : Width) (bound : Nat) : Nat → Draw Nat
  | 0 => do return (← w.draw) * bound / Nat.pow 2 w.bits
  | attempts + 1 => do
    let product := (← w.draw) * bound
    if product % Nat.pow 2 w.bits ≤ w.zone bound then return product / Nat.pow 2 w.bits
    else w.belowWithin bound attempts

/-- A number below a bound. -/
def below (w : Width) (bound : Nat) : Draw Nat := w.belowWithin bound 4096

end Width

/-! ## Generators -/

/-- A generator of random numbers whose states are of type `γ`. -/
structure Generator (γ : Type) where
  /-- The state that a seed gives. -/
  ofSeed : UInt64 → γ
  word : StateM γ UInt32
  /-- A number of 32 bits below a bound. -/
  single : Nat → StateM γ Nat
  /-- A number of 64 bits below a bound. -/
  double : Nat → StateM γ Nat

/-- The words of the ChaCha12 blocks. -/
def Generator.chaCha : Generator Source where
  ofSeed := .ofSeed
  word := Random.word
  single := Random.single.below
  double := Random.double.below

end PersistentCollections.Random
