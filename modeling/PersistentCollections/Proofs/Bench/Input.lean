import Mathlib.Algebra.Group.Nat.Defs
import PersistentCollections.Bench.Input
import PersistentCollections.Bench.Shared

/-!
# The keys of generated inputs

What is said of a draw is said of it in whatever state it begins (`Always`). All that is asked of a
generator is that a number of 64 bits which is drawn below a bound is below it
(`Generator.StaysBelow`), and so it is with the generator that runs (`chaCha_staysBelow`). Then the
keys of an input are below twice its size, and the high ends of its ranges not much above that. Up
to a size of `2 ^ 60` all of them are below the keys that belong to the writers
(`generateWith_keysBelow`).
-/

namespace PersistentCollections

/-! ## Draws -/

namespace Random

variable {α β γ : Type} {d : StateM γ α} {P : α → Prop} {Q : β → Prop}

/-- In whatever state the draw begins, what it gives has a property. -/
def Always (d : StateM γ α) (P : α → Prop) : Prop := ∀ s, P (d s).1

theorem always_pure {a : α} (h : P a) : Always (pure a : StateM γ α) P := fun _ => h

theorem Always.bind {f : α → StateM γ β} (h : Always d P) (hNext : ∀ a, P a → Always (f a) Q) :
    Always (d >>= f) Q := by
  intro s
  exact hNext _ (h s) (d s).2

theorem Always.map {f : α → β} (h : Always d fun a => Q (f a)) : Always (f <$> d) Q :=
  fun s => h s

theorem always_true (d : StateM γ α) : Always d fun _ => True := fun _ => trivial

theorem double_draw_lt : Always double.draw (· < 2 ^ double.bits) :=
  Always.map fun s => UInt64.toNat_lt (doubleWord s).1

/-- The high half of a product of a draw and a bound is below the bound. -/
theorem Width.high_lt {w : Width} {bound n : Nat} (hBound : 0 < bound) (hn : n < 2 ^ w.bits) :
    n * bound / Nat.pow 2 w.bits < bound := by
  apply Nat.div_lt_of_lt_mul
  exact Nat.mul_lt_mul_of_pos_right hn hBound

-- The induction is on the attempts that are left; each accepts the high half, or passes it on.
theorem Width.belowWithin_lt {w : Width} (hDraw : Always w.draw (· < 2 ^ w.bits)) {bound : Nat}
    (hBound : 0 < bound) (attempts : Nat) : Always (w.belowWithin bound attempts) (· < bound) := by
  induction attempts with
  | zero => exact Always.bind hDraw fun n hn => always_pure (high_lt hBound hn)
  | succ attempts ih =>
    refine Always.bind hDraw ?_
    intro n hn
    dsimp only
    split
    · exact always_pure (high_lt hBound hn)
    · exact ih

theorem Width.below_lt {w : Width} (hDraw : Always w.draw (· < 2 ^ w.bits)) {bound : Nat}
    (hBound : 0 < bound) : Always (w.below bound) (· < bound) :=
  belowWithin_lt hDraw hBound 4096

/-- A number of 64 bits that is drawn below a bound is below it. -/
def Generator.StaysBelow (g : Generator γ) : Prop :=
  ∀ bound, 0 < bound → Always (g.double bound) (· < bound)

theorem Generator.chaCha_staysBelow : chaCha.StaysBelow :=
  fun _ hBound => Width.below_lt double_draw_lt hBound

end Random

/-! ## Keys -/

namespace Bench

open PersistentCollections.Random

/-- The keys that an operation names. -/
def Operation.keys : Operation → List UInt64
  | .insert key _ | .erase key | .lookup key => [key]
  | .range low high => [low, high]
  | .snapshot => []

/-- No key that an operation names belongs to the writers. -/
def Operation.KeysBelow (operation : Operation) : Prop :=
  ∀ key ∈ operation.keys, key < writerKeys

namespace Input

theorem ofNat_lt_writerKeys {n : Nat} (h : n < 2 ^ 62) : UInt64.ofNat n < writerKeys := by
  rw [UInt64.lt_iff_toNat_lt, UInt64.toNat_ofNat_of_lt' (by unfold UInt64.size; omega)]
  exact h

section

variable {γ : Type} {g : Generator γ}

theorem drawOperation_keysBelow (h : g.StaysBelow) {bound : Nat} (hPos : 0 < bound)
    (hBound : bound ≤ 2 ^ 61) : Always (drawOperation g bound) Operation.KeysBelow := by
  have hOne {key : UInt64} (hKey : key < writerKeys) : ∀ k ∈ [key], k < writerKeys := by
    intro k hk
    rwa [List.mem_singleton.mp hk]
  unfold drawOperation
  refine Always.bind (h bound hPos) ?_
  intro key hKey
  have hLow : UInt64.ofNat key < writerKeys := ofNat_lt_writerKeys (by omega)
  refine Always.bind (always_true _) ?_
  intro kind _
  split
  · exact Always.bind (always_true _) fun value _ => always_pure (hOne hLow)
  · split
    · exact always_pure (hOne hLow)
    · split
      · exact always_pure (hOne hLow)
      · refine Always.bind (h _ (Nat.succ_pos _)) ?_
        intro span hSpan
        have hHigh : rangeEnd key span < writerKeys := ofNat_lt_writerKeys (by omega)
        refine always_pure fun k hk => ?_
        rcases List.mem_cons.mp hk with rfl | hk
        · exact hLow
        · exact hOne hHigh k hk

theorem drawOperations_keysBelow (h : g.StaysBelow) {size : Nat} (hSize : size < 2 ^ 60)
    (left : Nat) {drawn : Array Operation} (hDrawn : ∀ operation ∈ drawn, operation.KeysBelow) :
    Always (drawOperations g size left drawn) fun drawn =>
      ∀ operation ∈ drawn, operation.KeysBelow := by
  induction left generalizing drawn with
  | zero => exact always_pure hDrawn
  | succ left ih =>
    have hPush {drawn : Array Operation} {operation : Operation}
        (h : ∀ operation ∈ drawn, operation.KeysBelow) (hNew : operation.KeysBelow) :
        ∀ other ∈ drawn.push operation, other.KeysBelow := by
      intro other hOther
      rcases Array.mem_push.mp hOther with hOther | rfl
      · exact h other hOther
      · exact hNew
    have hBound : keyBound size ≤ 2 ^ 61 := by
      unfold keyBound
      omega
    have hPos : 0 < keyBound size := Nat.lt_of_lt_of_le Nat.one_pos (Nat.le_max_right _ 1)
    refine Always.bind (drawOperation_keysBelow h hPos hBound) ?_
    intro operation hOperation
    apply ih
    split
    · exact hPush (hPush hDrawn hOperation) nofun
    · exact hPush hDrawn hOperation

/-- The keys of an input that was generated, the high ends of ranges among them. -/
theorem generateWith_keysBelow (h : g.StaysBelow) {size : Nat} (hSize : size < 2 ^ 60)
    (seed : UInt64) : ∀ operation ∈ (generateWith g size seed).operations,
      operation.KeysBelow := by
  intro operation hOperation
  have hNone : ∀ operation ∈ (#[] : Array Operation), operation.KeysBelow := nofun
  have hDrawn := drawOperations_keysBelow h hSize size hNone (g.ofSeed seed)
  exact hDrawn operation (Array.mem_toList_iff.mp hOperation)

end

end Input

end Bench

end PersistentCollections
