import Mathlib.Data.List.Perm.Basic
import PersistentCollections.Hash.Code

/-!
# Hashes and lawful keys

The hash of a collection without order does not depend on the order in which its members are
visited. The types of keys that come with a `HashCode` keep its laws: `==` is equality on them, so
equal keys have equal hashes, and none of them is nil but an absent option.
-/

namespace PersistentCollections

variable {α β γ : Type}

theorem Hash.unordered_perm {hs hs' : List UInt32} (h : hs.Perm hs') :
    Hash.unordered hs = Hash.unordered hs' := by
  have hSum : hs.foldl (· + ·) 0 = hs'.foldl (· + ·) 0 := by
    apply h.foldl_eq'
    intro x _ y _ z
    rw [UInt32.add_assoc, UInt32.add_comm x, ← UInt32.add_assoc]
  rw [unordered, unordered, hSum, h.length_eq]

/-- What is kept is the hash if it is fresh. -/
theorem getD_eq_of_fresh {cache : Option UInt32} {content : UInt32}
    (h : ∀ k ∈ cache, k = content) : cache.getD content = content := by
  cases cache with
  | none => rfl
  | some k => exact h k rfl

/-- Where `==` is equality, the laws are about the nil values only. -/
theorem LawfulHashCode.of_lawfulBEq [BEq α] [LawfulBEq α] [HashCode α]
    (h : ∀ a b : α, isNil a = true → isNil b = true → a = b) : LawfulHashCode α where
  hashCode_eq hab := by rw [eq_of_beq hab]
  isNil_eq hab := by rw [eq_of_beq hab]
  nil_unique ha hb := beq_iff_eq.mpr (h _ _ ha hb)

instance : LawfulHashCode Int8 := .of_lawfulBEq fun _ _ h => nomatch h
instance : LawfulHashCode Int16 := .of_lawfulBEq fun _ _ h => nomatch h
instance : LawfulHashCode Int32 := .of_lawfulBEq fun _ _ h => nomatch h
instance : LawfulHashCode Int64 := .of_lawfulBEq fun _ _ h => nomatch h
instance : LawfulHashCode UInt8 := .of_lawfulBEq fun _ _ h => nomatch h
instance : LawfulHashCode UInt16 := .of_lawfulBEq fun _ _ h => nomatch h
instance : LawfulHashCode UInt32 := .of_lawfulBEq fun _ _ h => nomatch h
instance : LawfulHashCode UInt64 := .of_lawfulBEq fun _ _ h => nomatch h
instance : LawfulHashCode Bool := .of_lawfulBEq fun _ _ h => nomatch h
instance : LawfulHashCode Unit := .of_lawfulBEq fun _ _ h => nomatch h
instance : LawfulHashCode Char := .of_lawfulBEq fun _ _ h => nomatch h
instance : LawfulHashCode String := .of_lawfulBEq fun _ _ h => nomatch h

instance [BEq α] [LawfulBEq α] [HashCode α] : LawfulHashCode (Option α) := by
  refine .of_lawfulBEq fun a b ha hb => ?_
  rw [Option.isNone_iff_eq_none.mp ha, Option.isNone_iff_eq_none.mp hb]

instance [BEq α] [LawfulBEq α] [HashCode α] [BEq β] [LawfulBEq β] [HashCode β] :
    LawfulHashCode (α × β) := .of_lawfulBEq fun _ _ h => nomatch h

end PersistentCollections
