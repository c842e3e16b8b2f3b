import Mathlib.Data.Nat.Log
import PersistentCollections.Proofs.Outcome
import PersistentCollections.SortedMap.Tree

/-!
# Colours of a red-black tree

`RedBlack n c t` is the colour invariant: no red node has a red child, every path has `n` black
nodes, and the root has the colour `c`, where an empty tree counts as black. `redBlack_iff` reads it
off the paths of the tree.

While a change is on its way up, the root may be red and have red children: that is `Loose`.
An insertion into a subtree leaves its black height as it was and is loose only below a red root.
A removal takes one black node from every path of a subtree with a black root, and leaves a loose
one; below a red root it keeps the height and the colours (`Pruned`). Each of `balanceLeft`,
`balanceLeftDel`, `append` and their mirror images repairs exactly what its callers hand to it, so
none of them stops.
-/

namespace PersistentCollections.SortedMap.Tree

variable {κ ν : Type} {n : Nat} {c c₁ c₂ : Color} {t l r : Tree κ ν} {x : κ × ν}

/-! ## Invariants -/

/-- The colour invariant, with the number of black nodes on every path and the colour of the
root. -/
inductive RedBlack : (n : Nat) → (c : Color) → Tree κ ν → Prop
  | nil : RedBlack 0 .black nil
  | red {n : Nat} {l r : Tree κ ν} {x : κ × ν} :
      RedBlack n .black l → RedBlack n .black r → RedBlack n .red (node .red l x r)
  | black {n : Nat} {c₁ c₂ : Color} {l r : Tree κ ν} {x : κ × ν} :
      RedBlack n c₁ l → RedBlack n c₂ r → RedBlack (n + 1) .black (node .black l x r)

/-- The colour invariant, but for a red root that may have red children. -/
inductive Loose : (n : Nat) → Tree κ ν → Prop
  | tight {n : Nat} {c : Color} {t : Tree κ ν} : RedBlack n c t → Loose n t
  | red {n : Nat} {c₁ c₂ : Color} {l r : Tree κ ν} {x : κ × ν} :
      RedBlack n c₁ l → RedBlack n c₂ r → Loose n (node .red l x r)

/-- What a removal leaves of a tree with `n` black nodes on every path and a root of colour `c`. -/
inductive Pruned : (n : Nat) → (c : Color) → Tree κ ν → Prop
  | red {n : Nat} {c : Color} {t : Tree κ ν} : RedBlack n c t → Pruned n .red t
  | black {n : Nat} {t : Tree κ ν} : Loose n t → Pruned (n + 1) .black t

theorem RedBlack.isRed_eq (h : RedBlack n .black t) : t.isRed = false := by
  cases h with
  | nil => rfl
  | black => rfl

/-- A loose tree without a red root has the invariant. -/
theorem Loose.redBlack (h : Loose n t) (hRoot : t.isRed = false) : RedBlack n .black t := by
  cases h with
  | tight h =>
    cases h with
    | nil => exact .nil
    | red => cases hRoot
    | black hl hr => exact .black hl hr
  | red => cases hRoot

theorem Loose.children (h : Loose n (node .red l x r)) :
    ∃ c₁ c₂, RedBlack n c₁ l ∧ RedBlack n c₂ r := by
  cases h with
  | tight h =>
    cases h with
    | red hl hr => exact ⟨_, _, hl, hr⟩
  | red hl hr => exact ⟨_, _, hl, hr⟩

/-- The root can be made black. -/
theorem Loose.blacken (h : Loose n t) : ∃ m, RedBlack m .black t.blacken := by
  cases h with
  | tight h =>
    cases h with
    | nil => exact ⟨0, .nil⟩
    | red hl hr => exact ⟨_, .black hl hr⟩
    | black hl hr => exact ⟨_, .black hl hr⟩
  | red hl hr => exact ⟨_, .black hl hr⟩

/-! ## Mirror images -/

/-- The tree with left and right exchanged. -/
def mirror : Tree κ ν → Tree κ ν
  | nil => nil
  | node c l x r => node c r.mirror x l.mirror

@[simp] theorem mirror_mirror (t : Tree κ ν) : t.mirror.mirror = t := by
  induction t with
  | nil => rfl
  | node c l x r ihl ihr => rw [mirror, mirror, ihl, ihr]

theorem RedBlack.mirror (h : RedBlack n c t) : RedBlack n c t.mirror := by
  induction h with
  | nil => exact .nil
  | red _ _ ihl ihr => exact .red ihr ihl
  | black _ _ ihl ihr => exact .black ihr ihl

theorem Loose.mirror (h : Loose n t) : Loose n t.mirror := by
  cases h with
  | tight h => exact .tight h.mirror
  | red hl hr => exact .red hr.mirror hl.mirror

theorem map_mirror_broken (b : Breach) :
    mirror <$> (broken b : Result (Tree κ ν)) = broken b := rfl

theorem redden_mirror (t : Tree κ ν) : redden t.mirror = mirror <$> redden t := by
  rcases t with _ | ⟨_ | _, l, x, r⟩
  · rfl
  · rfl
  · rfl

theorem balanceRight_eq_mirror (l : Tree κ ν) (x : κ × ν) (r : Tree κ ν) :
    balanceRight l x r = (balanceLeft r.mirror x l.mirror).mirror := by
  rcases r with _ | ⟨_ | _, _ | ⟨_ | _, a, y, b⟩, z, _ | ⟨_ | _, c, w, d⟩⟩ <;>
    simp [balanceRight, balanceLeft, mirror]

theorem balanceRightDel_eq_mirror (l : Tree κ ν) (x : κ × ν) (r : Tree κ ν) :
    balanceRightDel l x r = mirror <$> balanceLeftDel r.mirror x l.mirror := by
  have hLeft : ∀ r : Tree κ ν, r.isRed = false →
      balanceRightDel l x r = mirror <$> balanceLeftDel r.mirror x l.mirror := by
    intro r hr
    rcases r with _ | ⟨_ | _, b, y, c⟩
    · rcases l with _ | ⟨_ | _, a, z, _ | ⟨_ | _, d, w, e⟩⟩ <;>
        simp [balanceRightDel, balanceLeftDel, balanceRight_eq_mirror, redden_mirror, mirror,
          map_mirror_broken]
    · cases hr
    · rcases l with _ | ⟨_ | _, a, z, _ | ⟨_ | _, d, w, e⟩⟩ <;>
        simp [balanceRightDel, balanceLeftDel, balanceRight_eq_mirror, redden_mirror, mirror,
          map_mirror_broken]
  rcases r with _ | ⟨_ | _, b, y, c⟩
  · exact hLeft _ rfl
  · simp [balanceRightDel, balanceLeftDel, mirror]
  · exact hLeft _ rfl

/-! ## Mending -/

theorem balanceLeft_of_child {a b : Tree κ ν} (ha : a.isRed = false) (y x : κ × ν)
    (r : Tree κ ν) :
    balanceLeft (node .red a y b) x r =
      match b with
      | node .red b z c => node .red (node .black a y b) z (node .black c x r)
      | b => node .black (node .red a y b) x r := by
  rcases a with _ | ⟨_ | _, a₁, w, a₂⟩
  · rcases b with _ | ⟨_ | _, b₁, z, b₂⟩ <;> rfl
  · cases ha
  · rcases b with _ | ⟨_ | _, b₁, z, b₂⟩ <;> rfl

/-- A loose left subtree is mended below a black node. -/
theorem balanceLeft_spec (hl : Loose n l) (hr : RedBlack n c r) (x : κ × ν) :
    ∃ c', RedBlack (n + 1) c' (balanceLeft l x r) := by
  rcases l with _ | ⟨_ | _, a, y, b⟩
  · exact ⟨_, .black (hl.redBlack rfl) hr⟩
  · obtain ⟨c₁, c₂, ha, hb⟩ := hl.children
    cases c₁ with
    | red =>
      cases ha with
      | red ha₁ ha₂ => exact ⟨_, .red (.black ha₁ ha₂) (.black hb hr)⟩
    | black =>
      rw [balanceLeft_of_child ha.isRed_eq]
      cases hb with
      | nil => exact ⟨_, .black (.red ha .nil) hr⟩
      | red hb₁ hb₂ => exact ⟨_, .red (.black ha hb₁) (.black hb₂ hr)⟩
      | black hb₁ hb₂ => exact ⟨_, .black (.red ha (.black hb₁ hb₂)) hr⟩
  · exact ⟨_, .black (hl.redBlack rfl) hr⟩

theorem balanceRight_spec (hl : RedBlack n c l) (hr : Loose n r) (x : κ × ν) :
    ∃ c', RedBlack (n + 1) c' (balanceRight l x r) := by
  obtain ⟨c', h⟩ := balanceLeft_spec hr.mirror hl.mirror x
  rw [balanceRight_eq_mirror]
  exact ⟨c', h.mirror⟩

theorem balanceLeftDel_of_not_red (hl : l.isRed = false) (x : κ × ν) (r : Tree κ ν) :
    balanceLeftDel l x r =
      match r with
      | node .black b y c => .ok (balanceRight l x (node .red b y c))
      | node .red (node .black b y c) z d =>
        redden d >>= fun d => .ok (node .red (node .black l x b) y (balanceRight c z d))
      | _ => broken .colouring := by
  rcases l with _ | ⟨_ | _, a, w, b⟩
  · rcases r with _ | ⟨_ | _, _ | ⟨_ | _, a, y, b⟩, z, c⟩ <;> rfl
  · cases hl
  · rcases r with _ | ⟨_ | _, _ | ⟨_ | _, a, y, b⟩, z, c⟩ <;> rfl

/-- A left subtree that lacks a black node is mended below any node; below a black sibling the
result is not loose. -/
theorem balanceLeftDel_spec (hl : Loose n l) (hr : RedBlack (n + 1) c r) (x : κ × ν) :
    ∃ t, balanceLeftDel l x r = .ok t ∧ Loose (n + 1) t ∧
      (c = .black → ∃ c', RedBlack (n + 1) c' t) := by
  by_cases hRoot : l.isRed = true
  · rcases l with _ | ⟨_ | _, a, y, b⟩
    · cases hRoot
    · obtain ⟨c₁, c₂, ha, hb⟩ := hl.children
      refine ⟨_, rfl, .red (.black ha hb) hr, ?_⟩
      rintro rfl
      exact ⟨_, .red (.black ha hb) hr⟩
    · cases hRoot
  · have hRoot : l.isRed = false := Bool.eq_false_iff.mpr hRoot
    have hl : RedBlack n .black l := hl.redBlack hRoot
    rw [balanceLeftDel_of_not_red hRoot]
    cases hr with
    | black hb hc =>
      obtain ⟨c', h⟩ := balanceRight_spec hl (.red hb hc) x
      exact ⟨_, rfl, .tight h, fun _ => ⟨c', h⟩⟩
    | red hb hd =>
      -- The sibling is red, so its children have the black root that the rotation needs.
      cases hb with
      | black hb₁ hb₂ =>
        cases hd with
        | black hd₁ hd₂ =>
          obtain ⟨c', h⟩ := balanceRight_spec hb₂ (.red hd₁ hd₂) _
          exact ⟨_, rfl, .red (.black hl hb₁) h, fun hc => nomatch hc⟩

theorem balanceRightDel_spec (hl : RedBlack (n + 1) c l) (hr : Loose n r) (x : κ × ν) :
    ∃ t, balanceRightDel l x r = .ok t ∧ Loose (n + 1) t ∧
      (c = .black → ∃ c', RedBlack (n + 1) c' t) := by
  obtain ⟨t, ht, hLoose, hc⟩ := balanceLeftDel_spec hr.mirror hl.mirror x
  refine ⟨t.mirror, ?_, hLoose.mirror, fun h => ?_⟩
  · rw [balanceRightDel_eq_mirror, ht, Result.map_ok]
  · obtain ⟨c', h'⟩ := hc h
    exact ⟨c', h'.mirror⟩

/-- Two subtrees of one black height are joined to one of the same height. It is loose at most, and
not even that if both roots are black. -/
theorem append_spec (l r : Tree κ ν) (hl : RedBlack n c₁ l) (hr : RedBlack n c₂ r) :
    ∃ t, append l r = .ok t ∧ Loose n t ∧
      (c₁ = .black → c₂ = .black → ∃ c, RedBlack n c t) := by
  induction l, r using append.induct generalizing n c₁ c₂ with
  | case1 r =>
    rw [append]
    exact ⟨r, rfl, .tight hr, fun _ _ => ⟨c₂, hr⟩⟩
  | case2 l hne =>
    have hAppend : append l nil = .ok l := by
      cases l with
      | nil => exact (hne rfl).elim
      | node => rw [append]; exact hne
    cases hr with
    | nil => exact ⟨l, hAppend, .tight hl, fun _ _ => ⟨c₁, hl⟩⟩
  | case3 a x b c y d ih =>
    cases hl with
    | red ha hb =>
      cases hr with
      | red hc hd =>
        obtain ⟨bc, hbc, -, hBlack⟩ := ih hb hc
        obtain ⟨c', hbc'⟩ := hBlack rfl rfl
        rw [append, hbc, Result.bind_ok]
        cases hbc' with
        | nil => exact ⟨_, rfl, .red ha (.red .nil hd), fun h => nomatch h⟩
        | red h₁ h₂ => exact ⟨_, rfl, .red (.red ha h₁) (.red h₂ hd), fun h => nomatch h⟩
        | black h₁ h₂ => exact ⟨_, rfl, .red ha (.red (.black h₁ h₂) hd), fun h => nomatch h⟩
  | case4 a x b c y d ih =>
    cases hl with
    | red ha hb =>
      cases hr with
      | black hc hd =>
        obtain ⟨t, ht, -, hBlack⟩ := ih hb (.black hc hd)
        obtain ⟨c', ht'⟩ := hBlack rfl rfl
        rw [append, ht, Result.bind_ok]
        exact ⟨_, rfl, .red ha ht', fun h => nomatch h⟩
  | case5 a x b c y d ih =>
    cases hl with
    | black ha hb =>
      cases hr with
      | red hc hd =>
        obtain ⟨t, ht, -, hBlack⟩ := ih (.black ha hb) hc
        obtain ⟨c', ht'⟩ := hBlack rfl rfl
        rw [append, ht, Result.bind_ok]
        exact ⟨_, rfl, .red ht' hd, fun _ h => nomatch h⟩
  | case6 a x b c y d ih =>
    cases hl with
    | black ha hb =>
      cases hr with
      | black hc hd =>
        obtain ⟨bc, hbc, hLoose, -⟩ := ih hb hc
        rw [append, hbc, Result.bind_ok]
        rcases bc with _ | ⟨_ | _, b', z, c'⟩
        · obtain ⟨t, ht, hLoose', hBlack⟩ :=
            balanceLeftDel_spec (.tight ha) (.black (hLoose.redBlack rfl) hd) x
          exact ⟨t, ht, hLoose', fun _ _ => hBlack rfl⟩
        · obtain ⟨c₃, c₄, h₁, h₂⟩ := hLoose.children
          have h : RedBlack _ .red (node .red (node .black a x b') z (node .black c' y d)) :=
            .red (.black ha h₁) (.black h₂ hd)
          exact ⟨_, rfl, .tight h, fun _ _ => ⟨_, h⟩⟩
        · obtain ⟨t, ht, hLoose', hBlack⟩ :=
            balanceLeftDel_spec (.tight ha) (.black (hLoose.redBlack rfl) hd) x
          exact ⟨t, ht, hLoose', fun _ _ => hBlack rfl⟩

/-! ## Changes -/

variable {cmp : κ → κ → Ordering} {key : κ} {value : ν} {t' : Tree κ ν}

/-- An insertion keeps the black height. It is loose at most, and not even that below a black
root. -/
theorem add?_spec {e : κ × ν} (h : RedBlack n c t) (ht : add? cmp e t = some t') :
    Loose n t' ∧ (c = .black → ∃ c', RedBlack n c' t') := by
  induction h generalizing t' with
  | nil =>
    cases ht
    exact ⟨.tight (.red .nil .nil), fun _ => ⟨_, .red .nil .nil⟩⟩
  | red hl hr ihl ihr =>
    rw [add?] at ht
    split at ht
    · cases ht
    · obtain ⟨l', hl', rfl⟩ := Option.map_eq_some_iff.mp ht
      obtain ⟨c', h'⟩ := (ihl hl').2 rfl
      exact ⟨.red h' hr, fun hc => nomatch hc⟩
    · obtain ⟨r', hr', rfl⟩ := Option.map_eq_some_iff.mp ht
      obtain ⟨c', h'⟩ := (ihr hr').2 rfl
      exact ⟨.red hl h', fun hc => nomatch hc⟩
  | black hl hr ihl ihr =>
    rw [add?] at ht
    split at ht
    · cases ht
    · obtain ⟨l', hl', rfl⟩ := Option.map_eq_some_iff.mp ht
      obtain ⟨c', h'⟩ := balanceLeft_spec (ihl hl').1 hr _
      exact ⟨.tight h', fun _ => ⟨c', h'⟩⟩
    · obtain ⟨r', hr', rfl⟩ := Option.map_eq_some_iff.mp ht
      obtain ⟨c', h'⟩ := balanceRight_spec hl (ihr hr').1 _
      exact ⟨.tight h', fun _ => ⟨c', h'⟩⟩

/-- Another value changes no colour. -/
theorem RedBlack.setValue (h : RedBlack n c t) : RedBlack n c (t.setValue cmp key value) := by
  induction h with
  | nil => exact .nil
  | red hl hr ihl ihr =>
    rw [Tree.setValue]
    split
    · exact .red hl hr
    · exact .red ihl hr
    · exact .red hl ihr
  | black hl hr ihl ihr =>
    rw [Tree.setValue]
    split
    · exact .black hl hr
    · exact .black ihl hr
    · exact .black hl ihr

/-- What a removal leaves of a left subtree is mended. -/
theorem mendLeft_spec (hl : RedBlack n c₁ l) (hr : RedBlack n c₂ r) (ht : Pruned n c₁ t)
    (hne : l ≠ nil) (x : κ × ν) :
    ∃ t', (if l.isBlack then some <$> balanceLeftDel t x r else .ok (some (node .red t x r))) =
        .ok (some t') ∧ Loose n t' ∧
      (c₁ = .black → c₂ = .black → ∃ c, RedBlack n c t') := by
  cases hl with
  | nil => exact (hne rfl).elim
  | red ha hb =>
    cases ht with
    | red ht => exact ⟨_, rfl, .red ht hr, fun h => nomatch h⟩
  | black ha hb =>
    cases ht with
    | black ht =>
      obtain ⟨t', ht', hLoose, hBlack⟩ := balanceLeftDel_spec ht hr x
      exact ⟨t', by rw [ht']; rfl, hLoose, fun _ => hBlack⟩

theorem mendRight_spec (hl : RedBlack n c₁ l) (hr : RedBlack n c₂ r) (ht : Pruned n c₂ t)
    (hne : r ≠ nil) (x : κ × ν) :
    ∃ t', (if r.isBlack then some <$> balanceRightDel l x t else .ok (some (node .red l x t))) =
        .ok (some t') ∧ Loose n t' ∧
      (c₁ = .black → c₂ = .black → ∃ c, RedBlack n c t') := by
  cases hr with
  | nil => exact (hne rfl).elim
  | red ha hb =>
    cases ht with
    | red ht => exact ⟨_, rfl, .red hl ht, fun _ h => nomatch h⟩
  | black ha hb =>
    cases ht with
    | black ht =>
      obtain ⟨t', ht', hLoose, hBlack⟩ := balanceRightDel_spec hl ht x
      exact ⟨t', by rw [ht']; rfl, hLoose, fun h _ => hBlack h⟩

/-- What the result of a removal below a node has to be. -/
theorem RedBlack.pruned (h : RedBlack n c (node c₀ l x r)) :
    ∃ m c₁ c₂, RedBlack m c₁ l ∧ RedBlack m c₂ r ∧ ∀ t : Tree κ ν, Loose m t →
      (c₁ = .black → c₂ = .black → ∃ c, RedBlack m c t) → Pruned n c t := by
  cases h with
  | red hl hr =>
    refine ⟨_, _, _, hl, hr, fun t _ hBlack => ?_⟩
    obtain ⟨c', h'⟩ := hBlack rfl rfl
    exact .red h'
  | black hl hr => exact ⟨_, _, _, hl, hr, fun t hLoose _ => .black hLoose⟩

/-- A removal never stops. -/
theorem erase?_spec (cmp : κ → κ → Ordering) (key : κ) (h : RedBlack n c t) :
    ∃ o, erase? cmp key t = .ok o ∧ ∀ t', o = some t' → Pruned n c t' := by
  induction t generalizing n c with
  | nil => exact ⟨none, rfl, fun t' h => nomatch h⟩
  | node c₀ l x r ihl ihr =>
    obtain ⟨m, c₁, c₂, hl, hr, hPruned⟩ := h.pruned
    rw [erase?]
    split
    · obtain ⟨t, ht, hLoose, hBlack⟩ := append_spec l r hl hr
      rw [ht, Result.map_ok]
      refine ⟨_, rfl, fun t' h => ?_⟩
      cases h
      exact hPruned t hLoose hBlack
    · obtain ⟨o, ho, hSome⟩ := ihl hl
      rw [ho, Result.bind_ok]
      cases o with
      | none => exact ⟨none, rfl, fun t' h => nomatch h⟩
      | some l' =>
        have hne : l ≠ nil := by
          rintro rfl
          cases ho
        obtain ⟨t, ht, hLoose, hBlack⟩ := mendLeft_spec hl hr (hSome l' rfl) hne x
        refine ⟨some t, ht, fun t' h => ?_⟩
        cases h
        exact hPruned t hLoose hBlack
    · obtain ⟨o, ho, hSome⟩ := ihr hr
      rw [ho, Result.bind_ok]
      cases o with
      | none => exact ⟨none, rfl, fun t' h => nomatch h⟩
      | some r' =>
        have hne : r ≠ nil := by
          rintro rfl
          cases ho
        obtain ⟨t, ht, hLoose, hBlack⟩ := mendRight_spec hl hr (hSome r' rfl) hne x
        refine ⟨some t, ht, fun t' h => ?_⟩
        cases h
        exact hPruned t hLoose hBlack

theorem Pruned.blacken (h : Pruned n c t) : ∃ m, RedBlack m .black t.blacken := by
  cases h with
  | red h => exact Loose.blacken (.tight h)
  | black h => exact h.blacken

/-! ## Paths -/

/-- No red node has a red child. -/
def NoRedRed : Tree κ ν → Prop
  | nil => True
  | node c l _ r => (c = .red → l.isRed = false ∧ r.isRed = false) ∧ l.NoRedRed ∧ r.NoRedRed

/-- The colours on each path from the root to an empty tree. -/
def paths : Tree κ ν → List (List Color)
  | nil => [[]]
  | node c l _ r => (l.paths ++ r.paths).map (c :: ·)

/-- Every path has the same number of black nodes. -/
def SameBlacks (t : Tree κ ν) : Prop := ∃ n, ∀ p ∈ t.paths, p.count .black = n

theorem mem_paths_node {p : List Color} :
    p ∈ (node c l x r).paths ↔ ∃ q, (q ∈ l.paths ∨ q ∈ r.paths) ∧ c :: q = p := by
  rw [paths, List.mem_map]
  simp only [List.mem_append]

theorem exists_path (t : Tree κ ν) : ∃ p, p ∈ t.paths := by
  induction t with
  | nil => exact ⟨[], List.mem_singleton_self _⟩
  | node c l x r ihl ihr =>
    obtain ⟨q, hq⟩ := ihl
    exact ⟨c :: q, mem_paths_node.mpr ⟨q, Or.inl hq, rfl⟩⟩

theorem RedBlack.noRedRed (h : RedBlack n c t) : t.NoRedRed := by
  induction h with
  | nil => exact trivial
  | red hl hr ihl ihr => exact ⟨fun _ => ⟨hl.isRed_eq, hr.isRed_eq⟩, ihl, ihr⟩
  | black hl hr ihl ihr => exact ⟨fun hc => (nomatch hc), ihl, ihr⟩

theorem RedBlack.count_black (h : RedBlack n c t) : ∀ p ∈ t.paths, p.count .black = n := by
  induction h with
  | nil =>
    intro p hp
    rw [List.mem_singleton.mp hp]
    rfl
  | red hl hr ihl ihr =>
    intro p hp
    obtain ⟨q, hq | hq, rfl⟩ := mem_paths_node.mp hp
    · rw [List.count_cons_of_ne (by decide), ihl q hq]
    · rw [List.count_cons_of_ne (by decide), ihr q hq]
  | black hl hr ihl ihr =>
    intro p hp
    obtain ⟨q, hq | hq, rfl⟩ := mem_paths_node.mp hp
    · rw [List.count_cons_self, ihl q hq]
    · rw [List.count_cons_self, ihr q hq]

/-- The invariant, read off the paths. -/
theorem exists_redBlack_iff :
    (∃ c, RedBlack n c t) ↔ t.NoRedRed ∧ ∀ p ∈ t.paths, p.count .black = n := by
  constructor
  · rintro ⟨c, h⟩
    exact ⟨h.noRedRed, h.count_black⟩
  · rintro ⟨hRed, hCount⟩
    induction t generalizing n with
    | nil =>
      have hn : n = 0 := (hCount [] (List.mem_singleton_self _)).symm
      subst hn
      exact ⟨_, .nil⟩
    | node c l x r ihl ihr =>
      obtain ⟨hc, hl, hr⟩ := hRed
      have hLeft : ∀ q ∈ l.paths, (c :: q).count .black = n :=
        fun q hq => hCount _ (mem_paths_node.mpr ⟨q, Or.inl hq, rfl⟩)
      have hRight : ∀ q ∈ r.paths, (c :: q).count .black = n :=
        fun q hq => hCount _ (mem_paths_node.mpr ⟨q, Or.inr hq, rfl⟩)
      cases c with
      | red =>
        have hCons : ∀ q : List Color, (Color.red :: q).count .black = q.count .black :=
          fun q => List.count_cons_of_ne (by decide)
        simp only [hCons] at hLeft hRight
        obtain ⟨c₁, h₁⟩ := ihl hl hLeft
        obtain ⟨c₂, h₂⟩ := ihr hr hRight
        obtain ⟨hlRed, hrRed⟩ := hc rfl
        exact ⟨_, .red ((Loose.tight h₁).redBlack hlRed) ((Loose.tight h₂).redBlack hrRed)⟩
      | black =>
        obtain ⟨q, hq⟩ := exists_path l
        obtain ⟨m, rfl⟩ : ∃ m, n = m + 1 := ⟨_, by rw [← hLeft q hq, List.count_cons_self]⟩
        simp only [List.count_cons_self, Nat.add_right_cancel_iff] at hLeft hRight
        obtain ⟨c₁, h₁⟩ := ihl hl hLeft
        obtain ⟨c₂, h₂⟩ := ihr hr hRight
        exact ⟨_, .black h₁ h₂⟩

/-! ## Height -/

/-- At most every other node of a path is red. -/
theorem RedBlack.length_path_le (h : RedBlack n c t) :
    ∀ p ∈ t.paths, p.length ≤ 2 * n + (if c = .red then 1 else 0) := by
  induction h with
  | nil =>
    intro p hp
    rw [List.mem_singleton.mp hp]
    exact Nat.zero_le _
  | red hl hr ihl ihr =>
    intro p hp
    obtain ⟨q, hq | hq, rfl⟩ := mem_paths_node.mp hp
    · exact Nat.succ_le_succ (ihl q hq)
    · exact Nat.succ_le_succ (ihr q hq)
  | @black n c₁ c₂ l r x hl hr ihl ihr =>
    have hOne : ∀ c : Color, (if c = .red then 1 else 0) ≤ 1 := by
      intro c
      split <;> omega
    intro p hp
    obtain ⟨q, hq | hq, rfl⟩ := mem_paths_node.mp hp
    · have := ihl q hq
      have := hOne c₁
      rw [List.length_cons]
      omega
    · have := ihr q hq
      have := hOne c₂
      rw [List.length_cons]
      omega

/-- A tree of some black height is not small. -/
theorem RedBlack.two_pow_le (h : RedBlack n c t) : Nat.pow 2 n ≤ t.size + 1 := by
  induction h with
  | nil => exact Nat.le_refl 1
  | red hl hr ihl ihr =>
    rw [size]
    omega
  | @black n c₁ c₂ l r x hl hr ihl ihr =>
    have hPow : Nat.pow 2 (n + 1) = Nat.pow 2 n * 2 := rfl
    rw [size, hPow]
    omega

/-- No path is longer than twice the logarithm of the number of empty trees. -/
theorem RedBlack.height_le (h : RedBlack n .black t) :
    ∀ p ∈ t.paths, p.length ≤ 2 * Nat.log 2 (t.size + 1) := by
  intro p hp
  have hLength := h.length_path_le p hp
  have hLog : n ≤ Nat.log 2 (t.size + 1) := Nat.le_log_of_pow_le (by decide) h.two_pow_le
  simp at hLength
  omega

end PersistentCollections.SortedMap.Tree
