import PersistentCollections.Hash.Code

/-!
# The Fx hash

A cheap hash over a stream of 64-bit words: rotate, xor, multiply. `FxHashed` gives its hash to any
value that can be written as such a stream.
-/

namespace PersistentCollections

/-- Values that can be written as a stream of words. -/
class WordStream (α : Type) where
  words : α → List UInt64

namespace Hash.Fx

/-- Fold one word into the state. -/
def step (state word : UInt64) : UInt64 :=
  (((state <<< 5) ||| (state >>> 59)) ^^^ word) * 0x517cc1b727220a95

/-- The state after a stream of words. -/
def fold (words : List UInt64) : UInt64 := words.foldl step 0

/-- Bytes as one word, the least significant first. -/
def little (bytes : List UInt8) : UInt64 :=
  bytes.foldr (fun b acc => (acc <<< 8) ||| b.toUInt64) 0

/-- Bytes as words: eight at a time, then at most one group each of four, two and one. -/
def wordsOfBytes : List UInt8 → List UInt64
  | a :: b :: c :: d :: e :: f :: g :: h :: rest =>
    little [a, b, c, d, e, f, g, h] :: wordsOfBytes rest
  | a :: b :: c :: d :: rest => little [a, b, c, d] :: wordsOfBytes rest
  | a :: b :: rest => little [a, b] :: wordsOfBytes rest
  | [a] => [little [a]]
  | [] => []

end Hash.Fx

instance : WordStream UInt8 := ⟨fun n => [n.toUInt64]⟩
instance : WordStream UInt16 := ⟨fun n => [n.toUInt64]⟩
instance : WordStream UInt32 := ⟨fun n => [n.toUInt64]⟩
instance : WordStream UInt64 := ⟨fun n => [n]⟩
instance : WordStream Int32 := ⟨fun n => [n.toUInt32.toUInt64]⟩
instance : WordStream Int64 := ⟨fun n => [n.toUInt64]⟩
instance : WordStream Bool := ⟨fun b => [if b then 1 else 0]⟩
instance : WordStream Char := ⟨fun c => [c.val.toUInt64]⟩

/-- A string gives its UTF-8 bytes and then a word that ends it. -/
instance : WordStream String := ⟨fun s => Hash.Fx.wordsOfBytes s.toUTF8.toList ++ [0xff]⟩

instance {α β : Type} [WordStream α] [WordStream β] : WordStream (α × β) :=
  ⟨fun p => WordStream.words p.1 ++ WordStream.words p.2⟩

/-- A value hashed by its stream of words. -/
structure FxHashed (α : Type) where
  value : α
  deriving DecidableEq

instance {α : Type} [WordStream α] : HashCode (FxHashed α) where
  hashCode a := Hash.long (Hash.Fx.fold (WordStream.words a.value))

end PersistentCollections
