import Mathlib.Algebra.BigOperators.Group.Finset.Basic
import Mathlib.Algebra.BigOperators.Ring.Finset
import Mathlib.Data.List.GetD
import PersistentCollections.Hash.Code

/-!
# The hashes of a text and its UTF-16 units

`Encodes` is the definition of UTF-16: a character of the basic plane is a unit of its own, and any
other is two surrogates that share its bits. Every text has one such list of units. Its hash mixes
the complete pairs of units in order, wherever a pair of surrogates falls, then the unit that an
odd number of them leaves over, and in the end the length in bytes. The other hash is the value at
31 of the polynomial whose coefficients are the units (`exists_hashedByUnits`).
-/

namespace PersistentCollections.Hash

variable {c : Char} {cs ds : List Char} {u v : List Nat} {j k : Nat}

/-! ## Units -/

/-- The second list has the UTF-16 units of the characters of the first. -/
inductive Encodes : List Char → List Nat → Prop
  | nil : Encodes [] []
  | basic {c : Char} {cs : List Char} {u : List Nat} (hc : c.toNat < 0x10000)
      (h : Encodes cs u) : Encodes (c :: cs) (c.toNat :: u)
  | supplementary {c : Char} {cs : List Char} {u : List Nat} {upper lower : Nat}
      (hUpper : upper < 0x400) (hLower : lower < 0x400)
      (hc : c.toNat = 0x10000 + (0x400 * upper + lower)) (h : Encodes cs u) :
      Encodes (c :: cs) ((0xd800 + upper) :: (0xdc00 + lower) :: u)

theorem Encodes.unique (hu : Encodes cs u) (hv : Encodes cs v) : u = v := by
  induction hu generalizing v with
  | nil =>
    cases hv
    rfl
  | basic hc _ ih =>
    cases hv with
    | basic _ hv => rw [ih hv]
    | supplementary _ _ hc' _ => omega
  | @supplementary _ _ _ upper lower hUpper hLower hc _ ih =>
    cases hv with
    | basic hc' _ => omega
    | @supplementary _ _ _ upper' lower' hUpper' hLower' hc' hv =>
      -- The quotient and the remainder by `0x400` are the bits of the surrogates.
      obtain rfl : upper = upper' := by omega
      obtain rfl : lower = lower' := by omega
      rw [ih hv]

theorem Encodes.lt (h : Encodes cs u) : ∀ unit ∈ u, unit < 2 ^ 16 := by
  induction h with
  | nil => exact fun _ h => nomatch h
  | basic hc _ ih => exact List.forall_mem_cons.mpr ⟨hc, ih⟩
  | supplementary hUpper hLower _ _ ih =>
    exact List.forall_mem_cons.mpr ⟨by omega, List.forall_mem_cons.mpr ⟨by omega, ih⟩⟩

/-- The units of the characters before a place, and of those after it. -/
theorem Encodes.exists_append (h : Encodes (cs ++ ds) u) :
    ∃ v w, u = v ++ w ∧ Encodes cs v ∧ Encodes ds w := by
  induction cs generalizing u with
  | nil => exact ⟨[], u, rfl, .nil, h⟩
  | cons c cs ih =>
    cases h with
    | basic hc h =>
      obtain ⟨v, w, rfl, hv, hw⟩ := ih h
      exact ⟨_, w, rfl, .basic hc hv, hw⟩
    | supplementary hUpper hLower hc h =>
      obtain ⟨v, w, rfl, hv, hw⟩ := ih h
      exact ⟨_, w, rfl, .supplementary hUpper hLower hc hv, hw⟩

theorem unitsOfChar_basic (hc : c.toNat < 0x10000) :
    (unitsOfChar c).map UInt16.toNat = [c.toNat] := by
  have hBasic : c.val < 0x10000 := UInt32.lt_iff_toNat_lt.mpr hc
  rw [unitsOfChar, if_pos hBasic, List.map_singleton, UInt32.toNat_toUInt16, Char.toNat_val,
    Nat.mod_eq_of_lt hc]

/-- Ten bits go into each surrogate. -/
theorem unitsOfChar_supplementary (hc : 0x10000 ≤ c.toNat) :
    ∃ upper lower, upper < 0x400 ∧ lower < 0x400 ∧
      c.toNat = 0x10000 + (0x400 * upper + lower) ∧
      (unitsOfChar c).map UInt16.toNat = [0xd800 + upper, 0xdc00 + lower] := by
  have hValid : c.toNat < 0xd800 ∨ (0xdfff < c.toNat ∧ c.toNat < 0x110000) := c.valid
  have hLarge : 0x10000 ≤ c.val := UInt32.le_iff_toNat_le.mpr hc
  have hBits : (c.val - 0x10000).toNat = c.toNat - 0x10000 :=
    UInt32.toNat_sub_of_le _ _ hLarge
  have hUpper : ((c.val - 0x10000) >>> 10).toNat = (c.toNat - 0x10000) / 0x400 := by
    rw [UInt32.toNat_shiftRight, hBits]
    exact Nat.shiftRight_eq_div_pow _ 10
  have hLower : ((c.val - 0x10000) &&& 0x3ff).toNat = (c.toNat - 0x10000) % 0x400 := by
    rw [UInt32.toNat_and, hBits]
    exact Nat.and_two_pow_sub_one_eq_mod _ 10
  refine ⟨(c.toNat - 0x10000) / 0x400, (c.toNat - 0x10000) % 0x400, ?_, ?_, ?_, ?_⟩
  · omega
  · omega
  · omega
  · -- Neither sum leaves the sixteen bits of a unit.
    have hHigh : (0xd800 + (c.toNat - 0x10000) / 0x400 % 2 ^ 16) % 2 ^ 16 =
        0xd800 + (c.toNat - 0x10000) / 0x400 := by omega
    have hLow : (0xdc00 + (c.toNat - 0x10000) % 0x400 % 2 ^ 16) % 2 ^ 16 =
        0xdc00 + (c.toNat - 0x10000) % 0x400 := by omega
    rw [unitsOfChar, if_neg (UInt32.not_lt.mpr hLarge)]
    simp only [List.map_cons, List.map_nil, UInt16.toNat_add, UInt32.toNat_toUInt16, hUpper,
      hLower, UInt16.reduceToNat]
    rw [hHigh, hLow]

theorem encodes_units (cs : List Char) :
    Encodes cs ((cs.flatMap unitsOfChar).map UInt16.toNat) := by
  induction cs with
  | nil => exact .nil
  | cons c cs ih =>
    rw [List.flatMap_cons, List.map_append]
    by_cases hc : c.toNat < 0x10000
    · rw [unitsOfChar_basic hc]
      exact .basic hc ih
    · obtain ⟨upper, lower, hUpper, hLower, hBits, hPair⟩ :=
        unitsOfChar_supplementary (Nat.le_of_not_lt hc)
      rw [hPair]
      exact .supplementary hUpper hLower hBits ih

/-! ## Words -/

/-- The word of the units `2 * j` and `2 * j + 1`; the first of them is its lower half. -/
def word (u : List Nat) (j : Nat) : Nat := u.getD (2 * j) 0 + 2 ^ 16 * u.getD (2 * j + 1) 0

/-- The first `n` words, mixed in order. -/
def mixWords (u : List Nat) (n : Nat) : UInt32 :=
  (List.range n).foldl (fun h j => mixH h (mixK (UInt32.ofNat (word u j)))) 0

/-- The complete pairs of units, mixed in order. -/
def mixPairs (u : List Nat) : UInt32 := mixWords u (u.length / 2)

/-- The complete pairs, and the unit that they leave over. -/
def mixUnits (u : List Nat) : UInt32 :=
  if u.length % 2 = 1 then mixPairs u ^^^ mixK (UInt32.ofNat (u.getD (u.length - 1) 0))
  else mixPairs u

theorem getD_append_length (v w : List Nat) (unit : Nat) :
    (v ++ unit :: w).getD v.length 0 = unit := by
  rw [List.getD_append_right _ _ _ _ (Nat.le_refl _), Nat.sub_self, List.getD_cons_zero]

theorem word_of_even (u : List Nat) (hk : k % 2 = 0) :
    word u (k / 2) = u.getD k 0 + 2 ^ 16 * u.getD (k + 1) 0 := by
  have hFirst : 2 * (k / 2) = k := by omega
  rw [word, hFirst]

theorem word_of_odd (u : List Nat) (hk : k % 2 = 1) :
    word u (k / 2) = u.getD (k - 1) 0 + 2 ^ 16 * u.getD k 0 := by
  have hFirst : 2 * (k / 2) = k - 1 := by omega
  have hSecond : k - 1 + 1 = k := by omega
  rw [word, hFirst, hSecond]

theorem word_append (hj : 2 * j + 1 < u.length) : word (u ++ v) j = word u j := by
  rw [word, List.getD_append _ _ _ _ (by omega), List.getD_append _ _ _ _ hj, word]

/-- Two units fill a word, and nothing of them is lost. -/
theorem word_lt (hu : ∀ unit ∈ u, unit < 2 ^ 16) (j : Nat) : word u j < 2 ^ 32 := by
  have hUnit (i : Nat) : u.getD i 0 < 2 ^ 16 := by
    by_cases hi : i < u.length
    · rw [List.getD_eq_getElem _ _ hi]
      exact hu _ (List.getElem_mem hi)
    · rw [List.getD_eq_default _ _ (Nat.le_of_not_lt hi)]
      decide
  have hFirst := hUnit (2 * j)
  have hSecond := hUnit (2 * j + 1)
  rw [word]
  omega

theorem mixWords_append {n : Nat} (hn : 2 * n ≤ u.length) :
    mixWords (u ++ v) n = mixWords u n := by
  refine List.foldl_ext _ _ _ fun h j hj => ?_
  rw [List.mem_range] at hj
  rw [word_append (by omega)]

theorem mixWords_succ (u : List Nat) (n : Nat) :
    mixWords u (n + 1) = mixH (mixWords u n) (mixK (UInt32.ofNat (word u n))) := by
  rw [mixWords, List.range_succ, List.foldl_concat, mixWords]

/-- A unit that begins a word changes none of those before. -/
theorem mixPairs_concat_even (hu : u.length % 2 = 0) (unit : Nat) :
    mixPairs (u ++ [unit]) = mixPairs u := by
  have hPairs : (u ++ [unit]).length / 2 = u.length / 2 := by
    rw [List.length_append, List.length_singleton]
    omega
  rw [mixPairs, hPairs, mixWords_append (by omega), mixPairs]

/-- A unit that completes a word adds that word. -/
theorem mixPairs_concat_odd (hu : u.length % 2 = 1) (unit : Nat) :
    mixPairs (u ++ [unit]) =
      mixH (mixPairs u) (mixK (UInt32.ofNat (u.getD (u.length - 1) 0 + 2 ^ 16 * unit))) := by
  have hPairs : (u ++ [unit]).length / 2 = u.length / 2 + 1 := by
    rw [List.length_append, List.length_singleton]
    omega
  have hWord : word (u ++ [unit]) (u.length / 2) =
      u.getD (u.length - 1) 0 + 2 ^ 16 * unit := by
    rw [word_of_odd _ hu, List.getD_append _ _ _ _ (by omega), getD_append_length]
  rw [mixPairs, hPairs, mixWords_succ, hWord, mixWords_append (by omega), mixPairs]

/-- The halves of a word do not meet. -/
theorem toUInt32_or_shiftLeft (low high : UInt16) :
    low.toUInt32 ||| (high.toUInt32 <<< 16) =
      UInt32.ofNat (low.toNat + 2 ^ 16 * high.toNat) := by
  have hSum : low.toNat + 2 ^ 16 * high.toNat = low.toNat ||| high.toNat <<< 16 := by
    rw [Nat.or_comm, ← Nat.shiftLeft_add_eq_or_of_lt low.toNat_lt, Nat.shiftLeft_eq]
    omega
  rw [hSum, UInt32.ofNat_or, UInt32.ofNat_shiftLeft _ _ (by decide), UInt32.ofNat_uInt16ToNat,
    UInt32.ofNat_uInt16ToNat]
  rfl

/-! ## Surrogates -/

/-- The units `k` and `k + 1` are the surrogates of a character. They make one word if `k` is even.
If it is odd, the upper one ends a word, and the lower one begins the next or is left over. -/
structure Surrogates (c : Char) (u : List Nat) (k : Nat) : Prop where
  inside : k + 1 < u.length
  upper : 0xd800 ≤ u.getD k 0 ∧ u.getD k 0 < 0xdc00
  lower : 0xdc00 ≤ u.getD (k + 1) 0 ∧ u.getD (k + 1) 0 < 0xe000
  bits : c.toNat =
    0x10000 + (0x400 * (u.getD k 0 - 0xd800) + (u.getD (k + 1) 0 - 0xdc00))
  together : k % 2 = 0 → k / 2 < u.length / 2 ∧
    word u (k / 2) = u.getD k 0 + 2 ^ 16 * u.getD (k + 1) 0
  ends : k % 2 = 1 → k / 2 < u.length / 2 ∧
    word u (k / 2) = u.getD (k - 1) 0 + 2 ^ 16 * u.getD k 0
  begins : k % 2 = 1 → k + 2 < u.length → (k + 1) / 2 < u.length / 2 ∧
    word u ((k + 1) / 2) = u.getD (k + 1) 0 + 2 ^ 16 * u.getD (k + 2) 0
  left : k % 2 = 1 → k + 2 = u.length → u.length % 2 = 1 ∧ k + 1 = u.length - 1

/-- Where the words of two surrogates are follows from where the surrogates are. -/
theorem surrogates_of_getD {upper lower : Nat} (hInside : k + 1 < u.length)
    (hUpper : upper < 0x400) (hLower : lower < 0x400)
    (hBits : c.toNat = 0x10000 + (0x400 * upper + lower))
    (hFirst : u.getD k 0 = 0xd800 + upper) (hSecond : u.getD (k + 1) 0 = 0xdc00 + lower) :
    Surrogates c u k where
  inside := hInside
  upper := by omega
  lower := by omega
  bits := by omega
  together hEven := ⟨by omega, word_of_even u hEven⟩
  ends hOdd := ⟨by omega, word_of_odd u hOdd⟩
  begins hOdd hMore := ⟨by omega, word_of_even u (by omega)⟩
  left hOdd hEnd := ⟨by omega, by omega⟩

theorem Encodes.exists_surrogates (h : Encodes (cs ++ c :: ds) u) (hc : 0x10000 ≤ c.toNat) :
    ∃ k, Encodes cs (u.take k) ∧ Surrogates c u k := by
  obtain ⟨v, w, rfl, hv, hw⟩ := h.exists_append
  cases hw with
  | basic hBasic _ => omega
  | @supplementary _ _ w upper lower hUpper hLower hBits _ =>
    have hSecond : (v ++ (0xd800 + upper) :: (0xdc00 + lower) :: w).getD (v.length + 1) 0 =
        0xdc00 + lower := by
      rw [List.getD_append_right _ _ _ _ (Nat.le_add_right _ 1), Nat.add_sub_cancel_left,
        List.getD_cons_succ, List.getD_cons_zero]
    have hInside : v.length + 1 < (v ++ (0xd800 + upper) :: (0xdc00 + lower) :: w).length := by
      simp only [List.length_append, List.length_cons]
      omega
    refine ⟨v.length, by rwa [List.take_left], ?_⟩
    exact surrogates_of_getD hInside hUpper hLower hBits (getD_append_length _ _ _) hSecond

/-! ## The pass over the units -/

namespace TextState

variable {st : TextState}

/-- The state of the pass after the units `u`. -/
structure Follows (st : TextState) (u : List Nat) : Prop where
  hash : st.hash = mixPairs u
  count : st.count = UInt32.ofNat u.length
  pending : st.pending.map UInt16.toNat =
    if u.length % 2 = 1 then some (u.getD (u.length - 1) 0) else none

theorem follows_start : start.Follows [] := ⟨rfl, rfl, rfl⟩

theorem Follows.even (h : st.Follows u) (hState : st.pending = none) : u.length % 2 = 0 := by
  have hPending := h.pending
  rw [hState] at hPending
  split at hPending
  · cases hPending
  · omega

theorem Follows.odd {low : UInt16} (h : st.Follows u) (hState : st.pending = some low) :
    u.length % 2 = 1 ∧ low.toNat = u.getD (u.length - 1) 0 := by
  have hPending := h.pending
  rw [hState] at hPending
  split at hPending
  · next hOdd => exact ⟨hOdd, Option.some.inj hPending⟩
  · cases hPending

theorem Follows.step (h : st.Follows u) (unit : UInt16) :
    (st.step unit).Follows (u ++ [unit.toNat]) := by
  have hLength : (u ++ [unit.toNat]).length = u.length + 1 := List.length_append
  have hCount : st.count + 1 = UInt32.ofNat (u ++ [unit.toNat]).length := by
    rw [h.count, hLength, UInt32.ofNat_add]
    rfl
  cases hState : st.pending with
  | none =>
    have hEven := h.even hState
    rw [TextState.step, hState]
    refine ⟨?_, hCount, ?_⟩
    · rw [mixPairs_concat_even hEven, h.hash]
    · rw [hLength, if_pos (by omega), Nat.add_sub_cancel, getD_append_length]
      rfl
  | some low =>
    obtain ⟨hOdd, hLow⟩ := h.odd hState
    rw [TextState.step, hState]
    refine ⟨?_, hCount, ?_⟩
    · rw [mixPairs_concat_odd hOdd, ← hLow, ← toUInt32_or_shiftLeft, h.hash]
    · rw [hLength, if_neg (by omega)]
      rfl

theorem Follows.foldl (h : st.Follows u) (units : List UInt16) :
    (units.foldl TextState.step st).Follows (u ++ units.map UInt16.toNat) := by
  induction units generalizing st u with
  | nil => rwa [List.map_nil, List.append_nil]
  | cons unit units ih =>
    have hRest := ih (h.step unit)
    rwa [List.append_assoc] at hRest

theorem Follows.close_eq (h : st.Follows u) :
    st.close = finish (mixUnits u) (UInt32.ofNat (2 * u.length)) := by
  have hBytes : st.count * 2 = UInt32.ofNat (2 * u.length) := by
    rw [h.count, Nat.mul_comm, UInt32.ofNat_mul]
    rfl
  rw [close, hBytes, mixUnits]
  cases hState : st.pending with
  | none =>
    have hEven := h.even hState
    rw [if_neg (by omega), h.hash]
  | some low =>
    obtain ⟨hOdd, hLow⟩ := h.odd hState
    rw [if_pos hOdd, ← hLow, UInt32.ofNat_uInt16ToNat, h.hash]

end TextState

theorem text_eq (s : String) :
    text s = finish (mixUnits ((units s).map UInt16.toNat))
      (UInt32.ofNat (2 * (units s).length)) := by
  have hFollows := TextState.follows_start.foldl (units s)
  rw [text, hFollows.close_eq, List.nil_append, List.length_map]

/-! ## The polynomial -/

/-- The value at 31 of the polynomial with these coefficients, that of the highest power first. -/
def valueAt31 (u : List Nat) : Nat :=
  ∑ i ∈ Finset.range u.length, u.getD i 0 * 31 ^ (u.length - 1 - i)

theorem valueAt31_concat (u : List Nat) (unit : Nat) :
    valueAt31 (u ++ [unit]) = valueAt31 u * 31 + unit := by
  rw [valueAt31, List.length_append, List.length_singleton, Finset.sum_range_succ,
    Nat.add_sub_cancel, getD_append_length, Nat.sub_self, Nat.pow_zero, Nat.mul_one, valueAt31,
    Finset.sum_mul]
  congr 1
  refine Finset.sum_congr rfl fun i hi => ?_
  rw [Finset.mem_range] at hi
  have hPower : u.length - i = u.length - 1 - i + 1 := by omega
  rw [List.getD_append _ _ _ _ hi, hPower, Nat.pow_succ, Nat.mul_assoc]

theorem foldl_polynomial (u : List Nat) (units : List UInt16) :
    units.foldl (fun h unit => h * 31 + unit.toUInt32) (UInt32.ofNat (valueAt31 u)) =
      UInt32.ofNat (valueAt31 (u ++ units.map UInt16.toNat)) := by
  induction units generalizing u with
  | nil => rw [List.map_nil, List.append_nil, List.foldl_nil]
  | cons unit units ih =>
    have hNext : UInt32.ofNat (valueAt31 u) * 31 + unit.toUInt32 =
        UInt32.ofNat (valueAt31 (u ++ [unit.toNat])) := by
      rw [valueAt31_concat, UInt32.ofNat_add, UInt32.ofNat_mul, UInt32.ofNat_uInt16ToNat]
      rfl
    rw [List.foldl_cons, hNext, ih, List.append_assoc]
    rfl

theorem polynomial_eq (s : String) :
    polynomial s = UInt32.ofNat (valueAt31 ((units s).map UInt16.toNat)) :=
  foldl_polynomial [] (units s)

theorem signed_ofNat (n : Nat) : signed (UInt32.ofNat n) = Int.bmod n (2 ^ 32) := by
  rw [signed, UInt32.toInt32_ofNat']
  exact Int32.toInt_ofNat'

/-! ## Both hashes -/

/-- The hashes of a text are made of its UTF-16 units `u`. -/
structure HashedByUnits (s : String) (u : List Nat) : Prop where
  encodes : Encodes s.toList u
  text : Hash.text s = finish (mixUnits u) (UInt32.ofNat (2 * u.length % 2 ^ 32))
  words : ∀ j, word u j < 2 ^ 32
  polynomial : signed (Hash.polynomial s) = Int.bmod (valueAt31 u) (2 ^ 32)
  surrogates : ∀ before c after, s.toList = before ++ c :: after → 0x10000 ≤ c.toNat →
    ∃ k, Encodes before (u.take k) ∧ Surrogates c u k

/-- A text has one list of UTF-16 units, and both of its hashes are made of them. -/
theorem exists_hashedByUnits (s : String) :
    ∃ u, HashedByUnits s u ∧ ∀ v, Encodes s.toList v → v = u := by
  have hUnits : Encodes s.toList ((units s).map UInt16.toNat) := encodes_units s.toList
  refine ⟨(units s).map UInt16.toNat, ⟨hUnits, ?_, word_lt hUnits.lt, ?_, ?_⟩,
    fun v hv => hv.unique hUnits⟩
  · rw [text_eq, UInt32.ofNat_mod_size, List.length_map]
  · rw [polynomial_eq, signed_ofNat]
  · intro before c after hSplit hc
    rw [hSplit] at hUnits
    exact hUnits.exists_surrogates hc

/-- A pair of surrogates in two words. -/
example : (units "a😀b").map UInt16.toNat = [0x61, 0xd83d, 0xde00, 0x62] ∧
    text "a😀b" = finish (mixH (mixH 0 (mixK 0xd83d0061)) (mixK 0x0062de00)) 8 := by
  decide +kernel

end PersistentCollections.Hash
