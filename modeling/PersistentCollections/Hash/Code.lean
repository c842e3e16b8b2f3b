import PersistentCollections.Hash.Text

/-!
# Hash codes

`HashCode` is what a type needs for its values to be elements or keys of the collections here. The
laws are in `LawfulHashCode`: equal values have equal hashes and are nil together, and there is at
most one nil value up to equality.
-/

namespace PersistentCollections

/-- A hash that equal values share, and a mark on the value that plays the part of nil. -/
class HashCode (α : Type) where
  hashCode : α → UInt32
  /-- A hash map keeps the entry of a nil key next to its trie and not in it. -/
  isNil : α → Bool := fun _ => false

export HashCode (hashCode isNil)

/-- The laws of `HashCode`. -/
class LawfulHashCode (α : Type) [BEq α] [HashCode α] : Prop extends EquivBEq α where
  hashCode_eq {a b : α} : (a == b) = true → hashCode a = hashCode b
  isNil_eq {a b : α} : (a == b) = true → isNil a = isNil b
  nil_unique {a b : α} : isNil a = true → isNil b = true → (a == b) = true

/-- Three values. Its hash is that of a sequence of three, which a pair within a pair does not
have. -/
structure Triple (α β γ : Type) where
  first : α
  second : β
  third : γ
  deriving DecidableEq

instance : HashCode Int8 := ⟨fun n => Hash.int n.toInt32.toUInt32, fun _ => false⟩
instance : HashCode Int16 := ⟨fun n => Hash.int n.toInt32.toUInt32, fun _ => false⟩
instance : HashCode Int32 := ⟨fun n => Hash.int n.toUInt32, fun _ => false⟩
instance : HashCode UInt8 := ⟨fun n => Hash.int n.toUInt32, fun _ => false⟩
instance : HashCode UInt16 := ⟨fun n => Hash.int n.toUInt32, fun _ => false⟩
instance : HashCode UInt32 := ⟨Hash.int, fun _ => false⟩
instance : HashCode Int64 := ⟨fun n => Hash.long n.toUInt64, fun _ => false⟩
instance : HashCode UInt64 := ⟨Hash.long, fun _ => false⟩
instance : HashCode Bool := ⟨fun b => if b then 1231 else 1237, fun _ => false⟩
instance : HashCode Unit := ⟨fun _ => 0, fun _ => false⟩
instance : HashCode Char := ⟨fun c => Hash.text (String.singleton c), fun _ => false⟩
instance : HashCode String := ⟨Hash.text, fun _ => false⟩

/-- An absent value is nil; a present one hashes as itself and is never nil. -/
instance {α : Type} [HashCode α] : HashCode (Option α) where
  hashCode
    | none => 0
    | some a => hashCode a
  isNil a := a.isNone

/-- A pair hashes as the sequence of its two parts. -/
instance {α β : Type} [HashCode α] [HashCode β] : HashCode (α × β) where
  hashCode p := Hash.ordered [hashCode p.1, hashCode p.2]

instance {α β γ : Type} [HashCode α] [HashCode β] [HashCode γ] : HashCode (Triple α β γ) where
  hashCode t := Hash.ordered [hashCode t.first, hashCode t.second, hashCode t.third]

end PersistentCollections
