import PersistentCollections.Proofs.Outcome
import PersistentCollections.Proofs.SortedMap.History

/-!
# The check of a sorted map

`check` looks for a flaw in any tree, also in one that no history leads to. On the way down it
compares a key only with the nearest keys on its two sides, and on the way up black heights only in
pairs. By transitivity the keys are ascending nevertheless, and all paths have the same number of
black nodes (`Tree.verify_eq_ok_iff`). So the check passes the sound maps and no others
(`check_eq_ok_iff`).
-/

namespace PersistentCollections.SortedMap

variable {κ ν : Type} {cmp : κ → κ → Ordering} {c : Color} {t l r : Tree κ ν} {x : κ × ν}
  {lower upper : Option κ} {es es' : List (κ × ν)} {h n : Nat} {flaw : Flaw} {m : SortedMap κ ν}

/-! ## Bounds -/

/-- All keys lie strictly between two bounds, as far as these are given. -/
structure Inside (cmp : κ → κ → Ordering) (lower upper : Option κ) (es : List (κ × ν)) : Prop where
  above : ∀ k ∈ lower, ∀ e ∈ es, cmp k e.1 = .lt
  below : ∀ k ∈ upper, ∀ e ∈ es, cmp e.1 k = .lt

theorem inside_none (es : List (κ × ν)) : Inside cmp none none es where
  above _ h := nomatch h
  below _ h := nomatch h

theorem inside_nil : Inside cmp lower upper ([] : List (κ × ν)) where
  above _ _ _ h := nomatch h
  below _ _ _ h := nomatch h

/-- The keys are ascending and lie between two bounds. -/
def AscendingInside (cmp : κ → κ → Ordering) (lower upper : Option κ) (es : List (κ × ν)) : Prop :=
  Ascending cmp es ∧ Inside cmp lower upper es

/-- It is enough to bound the parts before and after an entry by the entry, on that side. -/
theorem ascendingInside_append_cons [Std.TransCmp cmp] :
    AscendingInside cmp lower upper (es ++ x :: es') ↔
      (∀ k ∈ lower, cmp k x.1 = .lt) ∧ (∀ k ∈ upper, cmp x.1 k = .lt) ∧
        AscendingInside cmp lower (some x.1) es ∧ AscendingInside cmp (some x.1) upper es' := by
  unfold AscendingInside
  rw [ascending_append_cons]
  constructor
  · rintro ⟨⟨hl, hr, hx⟩, hAbove, hBelow⟩
    have hMem : x ∈ es ++ x :: es' := List.mem_append_right _ List.mem_cons_self
    have hLeft : ∀ e ∈ es, e ∈ es ++ x :: es' := fun e he => List.mem_append_left _ he
    have hRight : ∀ e ∈ es', e ∈ es ++ x :: es' :=
      fun e he => List.mem_append_right _ (List.mem_cons_of_mem x he)
    refine ⟨fun k hk => hAbove k hk x hMem, fun k hk => hBelow k hk x hMem, ⟨hl, ?_, ?_⟩,
      hr, ?_, ?_⟩
    · exact fun k hk e he => hAbove k hk e (hLeft e he)
    · rintro _ ⟨⟩
      exact hx.below
    · rintro _ ⟨⟩
      exact hx.above
    · exact fun k hk e he => hBelow k hk e (hRight e he)
  · rintro ⟨hAbove, hBelow, ⟨hl, hlAbove, hlBelow⟩, hr, hrAbove, hrBelow⟩
    have hx : Between cmp x.1 es es' := ⟨hlBelow _ rfl, hrAbove _ rfl⟩
    refine ⟨⟨hl, hr, hx⟩, fun k hk e he => ?_, fun k hk e he => ?_⟩
    · rcases List.mem_append.mp he with he | he
      · exact hlAbove k hk e he
      · exact hx.above_of_lt (hAbove k hk) e he
    · rcases List.mem_append.mp he with he | he
      · exact Std.TransCmp.lt_trans (hx.below e he) (hBelow k hk)
      · rcases List.mem_cons.mp he with rfl | he
        · exact hBelow k hk
        · exact hrBelow k hk e he

/-! ## Black heights -/

namespace Tree

/-- The colour invariant of a node is that of its children, with equal heights. -/
theorem exists_redBlack_node :
    (∃ c', RedBlack n c' (node c l x r)) ↔
      (c = .red → l.isRed = false ∧ r.isRed = false) ∧
        ∃ k, (∃ c₁, RedBlack k c₁ l) ∧ (∃ c₂, RedBlack k c₂ r) ∧
          n = k + if c = .black then 1 else 0 := by
  constructor
  · rintro ⟨c', h⟩
    cases h with
    | red hl hr => exact ⟨fun _ => ⟨hl.isRed_eq, hr.isRed_eq⟩, _, ⟨_, hl⟩, ⟨_, hr⟩, rfl⟩
    | black hl hr => exact ⟨fun hc => (nomatch hc), _, ⟨_, hl⟩, ⟨_, hr⟩, rfl⟩
  · rintro ⟨hc, k, ⟨c₁, hl⟩, ⟨c₂, hr⟩, rfl⟩
    cases c with
    | red =>
      obtain ⟨hlRed, hrRed⟩ := hc rfl
      exact ⟨_, .red ((Loose.tight hl).redBlack hlRed) ((Loose.tight hr).redBlack hrRed)⟩
    | black => exact ⟨_, .black hl hr⟩

end Tree

/-! ## The check of a tree -/

theorem Flaw.unless_eq_ok {condition : Bool} {u : Unit} :
    flaw.unless condition = .ok u ↔ condition = true := by
  cases condition with
  | true => exact iff_of_true rfl rfl
  | false => exact iff_of_false (fun h => nomatch h) Bool.false_ne_true

namespace Tree

/-- A node passes if its key is between the bounds, a red one has no red child, and its children
pass with equal heights. -/
theorem verify_node_eq_ok_iff :
    (node c l x r).verify cmp lower upper = .ok (h, n) ↔
      ((∀ k ∈ lower, cmp k x.1 = .lt) ∧ (∀ k ∈ upper, cmp x.1 k = .lt)) ∧
        (c = .red → l.isRed = false ∧ r.isRed = false) ∧
        ∃ k i j, l.verify cmp lower (some x.1) = .ok (k, i) ∧
          r.verify cmp (some x.1) upper = .ok (k, j) ∧
          h = k + (if c = .black then 1 else 0) ∧ n = i + j + 1 := by
  have hBound : ∀ (o : Option κ) (p : κ → Bool), o.all p = true ↔ ∀ k ∈ o, p k = true := by
    intro o p
    cases o <;> simp
  have hColor : (c == .black || !(l.isRed || r.isRed)) = true ↔
      (c = .red → l.isRed = false ∧ r.isRed = false) := by
    cases c <;> simp
  rw [verify]
  simp only [Result.bind_eq_ok, Flaw.unless_eq_ok, Prod.exists, hBound, hColor, beq_iff_eq]
  constructor
  · rintro ⟨-, hLower, -, hUpper, -, hRed, k, i, hl, k', j, hr, -, rfl, h⟩
    cases h
    exact ⟨⟨hLower, hUpper⟩, hRed, k, i, j, hl, hr, rfl, rfl⟩
  · rintro ⟨⟨hLower, hUpper⟩, hRed, k, i, j, hl, hr, rfl, rfl⟩
    exact ⟨(), hLower, (), hUpper, (), hRed, k, i, hl, k, j, hr, (), rfl, rfl⟩

/-- The check finds no flaw in the red-black trees with ascending keys between the bounds. A path
to an empty tree counts as one more black node. -/
theorem verify_eq_ok_iff [Std.TransCmp cmp] :
    t.verify cmp lower upper = .ok (h, n) ↔
      (∃ k, (∃ c, RedBlack k c t) ∧ h = k + 1) ∧ AscendingInside cmp lower upper t.entries ∧
        n = t.entries.length := by
  induction t generalizing lower upper h n with
  | nil =>
    have hNil : AscendingInside cmp lower upper ([] : List (κ × ν)) :=
      ⟨List.Pairwise.nil, inside_nil⟩
    constructor
    · intro hOk
      cases hOk
      exact ⟨⟨0, ⟨_, .nil⟩, rfl⟩, hNil, rfl⟩
    · rintro ⟨⟨k, ⟨c, hk⟩, rfl⟩, -, rfl⟩
      cases hk
      rfl
  | node c l x r ihl ihr =>
    rw [verify_node_eq_ok_iff, entries, ascendingInside_append_cons]
    simp only [ihl, ihr]
    constructor
    · rintro ⟨⟨hLower, hUpper⟩, hRed, _, i, j, ⟨⟨k, hl, rfl⟩, hlKeys, rfl⟩,
        ⟨⟨k', hr, hk⟩, hrKeys, rfl⟩, rfl, rfl⟩
      cases Nat.succ.inj hk
      refine ⟨⟨_, exists_redBlack_node.mpr ⟨hRed, k, hl, hr, rfl⟩, ?_⟩,
        ⟨hLower, hUpper, hlKeys, hrKeys⟩, ?_⟩
      · omega
      · simp [Nat.add_assoc]
    · rintro ⟨⟨_, hNode, rfl⟩, ⟨hLower, hUpper, hlKeys, hrKeys⟩, rfl⟩
      obtain ⟨hRed, k, hl, hr, rfl⟩ := exists_redBlack_node.mp hNode
      refine ⟨⟨hLower, hUpper⟩, hRed, k + 1, _, _, ⟨⟨k, hl, rfl⟩, hlKeys, rfl⟩,
        ⟨⟨k, hr, rfl⟩, hrKeys, rfl⟩, ?_, ?_⟩
      · omega
      · simp [Nat.add_assoc]

end Tree

/-! ## The check of a map -/

/-- With a total comparator the check passes exactly the maps whose tree is sound: the root is not
red, no red node has a red child, all paths have as many black nodes, the keys are ascending, and
the size is the number of entries. The tree can be any. -/
theorem check_eq_ok_iff (hc : m.comparator.Total) : m.check = .ok () ↔ m.Sound := by
  have := hc.transCmp
  have hCheck : m.check = .ok () ↔ m.root.isRed = false ∧ ∃ h n,
      m.root.verify m.comparator.compare none none = .ok (h, n) ∧ n = m.size := by
    rw [check]
    simp only [Result.bind_eq_ok, Flaw.unless_eq_ok, Prod.exists, beq_iff_eq, Bool.not_eq_true',
      exists_const]
  have hKeys : AscendingInside m.comparator.compare none none m.root.entries ↔
      (m.root.entries.map (·.1)).Pairwise fun a b => m.comparator.compare a b = .lt := by
    rw [AscendingInside, and_iff_left (inside_none _), ascending_iff_keys]
  rw [hCheck]
  simp only [Tree.verify_eq_ok_iff, hKeys, ← Tree.size_eq_length, Tree.exists_redBlack_iff]
  constructor
  · rintro ⟨hRoot, _, _, ⟨⟨k, ⟨hRed, hCount⟩, -⟩, hAscending, rfl⟩, hSize⟩
    exact ⟨hRoot, hRed, ⟨k, hCount⟩, hAscending, hSize⟩
  · rintro ⟨hRoot, hRed, ⟨k, hCount⟩, hAscending, hSize⟩
    exact ⟨hRoot, _, _, ⟨⟨k, ⟨hRed, hCount⟩, rfl⟩, hAscending, rfl⟩, hSize⟩

/-- Four entries by magnitude, one of them in the middle. -/
def aroundMinusThree (stray : Int) : SortedMap Int Char :=
  ⟨byMagnitude,
    .node .black (.node .black .nil (1, 'a') (.node .red .nil (stray, 'b') .nil)) (-3, 'c')
      (.node .black .nil (5, 'd') .nil),
    4, none⟩

/-- A key that is in order with its parent, but not with the root, is noticed. -/
theorem check_eq_ok_iff_aroundMinusThree : byMagnitude.Total ∧
    (aroundMinusThree 2).check = .ok () ∧ (aroundMinusThree 2).Sound ∧
      (aroundMinusThree 4).check = .error .keysOutOfOrder ∧ ¬ (aroundMinusThree 4).Sound := by
  refine ⟨byMagnitude_total, rfl, (check_eq_ok_iff byMagnitude_total).mp rfl, rfl, ?_⟩
  intro h
  have hCheck := (check_eq_ok_iff byMagnitude_total).mpr h
  exact nomatch hCheck

end PersistentCollections.SortedMap
