import PersistentCollections.Comparator
import PersistentCollections.Proofs.SortedMap.RedBlack

/-!
# Order of a search tree

`Tree.entries` lists the entries of a tree from left to right. Mending and joining keep that list as
it is, whatever the colours are. In a tree with strictly ascending keys an insertion puts its entry
between the smaller and the greater ones (`Adds`), and a removal takes an entry out from between
them (`Drops`); the keys stay ascending.
-/

namespace PersistentCollections

/-- A total comparator is a lawful comparison function. -/
theorem Comparator.Total.transCmp {κ : Type} {c : Comparator κ} (h : c.Total) :
    Std.TransCmp c.compare where
  eq_swap {a b} := h.1 b a
  isLE_trans {a b d} := h.2 a b d

theorem Comparator.total_of_transCmp {κ : Type} {c : Comparator κ} (h : Std.TransCmp c.compare) :
    c.Total :=
  ⟨fun _ _ => Std.OrientedCmp.eq_swap, fun _ _ _ => Std.TransCmp.isLE_trans⟩

/-- The opposite of a total comparator is total. -/
theorem Comparator.Total.reversed {κ : Type} {c : Comparator κ} (h : c.Total) :
    c.reversed.Total := by
  have := h.transCmp
  exact total_of_transCmp (inferInstanceAs (Std.TransCmp fun a b => c.compare b a))

/-- No member of an ascending list is there twice. -/
theorem Comparator.Total.nodup {κ : Type} {c : Comparator κ} (h : c.Total) {xs : List κ}
    (hAscending : xs.Pairwise fun x x' => c.compare x x' = .lt) : xs.Nodup := by
  have := h.transCmp
  apply hAscending.imp
  rintro x _ hlt rfl
  have hSame : c.compare x x = .eq := Std.ReflCmp.compare_self
  rw [hSame] at hlt
  cases hlt

/-- No two members of an ascending list match the same, if a match makes the keys equivalent. -/
theorem Comparator.Total.apart {κ α β : Type} {c : Comparator κ} (h : c.Total) {f : α → κ}
    {g : β → κ} {R : α → β → Prop} {xs : List α} {ys : List β}
    (hAscending : xs.Pairwise fun x x' => c.compare (f x) (f x') = .lt)
    (hMatch : ∀ x ∈ xs, ∀ y ∈ ys, R x y → c.compare (f x) (g y) = .eq) :
    xs.Pairwise fun x x' => ∀ y ∈ ys, R x y → ¬ R x' y := by
  have := h.transCmp
  apply hAscending.imp_of_mem
  intro x x' hx hx' hlt y hy hxy hxy'
  have hEquivalent : c.compare (f x) (f x') = .eq :=
    Std.TransCmp.eq_trans (hMatch x hx y hy hxy) (Std.OrientedCmp.eq_symm (hMatch x' hx' y hy hxy'))
  rw [hEquivalent] at hlt
  cases hlt

namespace SortedMap

variable {κ ν : Type} {cmp : κ → κ → Ordering} {key : κ} {value : ν} {e x : κ × ν}
  {es es' before after : List (κ × ν)}

/-! ## Ascending lists -/

/-- The keys are strictly ascending. -/
def Ascending (cmp : κ → κ → Ordering) (es : List (κ × ν)) : Prop :=
  es.Pairwise fun a b => cmp a.1 b.1 = .lt

theorem ascending_iff_keys :
    Ascending cmp es ↔ (es.map (·.1)).Pairwise fun a b => cmp a b = .lt := by
  rw [List.pairwise_map]
  rfl

/-- A key has its place between two lists. -/
structure Between (cmp : κ → κ → Ordering) (key : κ) (before after : List (κ × ν)) : Prop where
  below : ∀ a ∈ before, cmp a.1 key = .lt
  above : ∀ a ∈ after, cmp key a.1 = .lt

/-- An entry with a new key is added in its place. -/
inductive Adds (cmp : κ → κ → Ordering) (e : κ × ν) : List (κ × ν) → List (κ × ν) → Prop
  | intro {before after : List (κ × ν)} :
      Between cmp e.1 before after → Adds cmp e (before ++ after) (before ++ e :: after)

/-- The entry with an equivalent key is taken out. -/
inductive Drops (cmp : κ → κ → Ordering) (key : κ) : List (κ × ν) → List (κ × ν) → Prop
  | intro {before after : List (κ × ν)} {x : κ × ν} :
      Between cmp key before after → cmp key x.1 = .eq →
        Drops cmp key (before ++ x :: after) (before ++ after)

theorem Between.within {before' after' : List (κ × ν)} (h : Between cmp key before' after')
    (hb : ∀ a ∈ before, cmp a.1 key = .lt) (ha : ∀ a ∈ after, cmp key a.1 = .lt) :
    Between cmp key (before ++ before') (after' ++ after) := by
  constructor
  · intro a h'
    rcases List.mem_append.mp h' with h' | h'
    · exact hb a h'
    · exact h.below a h'
  · intro a h'
    rcases List.mem_append.mp h' with h' | h'
    · exact h.above a h'
    · exact ha a h'

/-- An addition goes into the middle of three parts, if its key is between the outer ones. -/
theorem Adds.within (h : Adds cmp e es es') (hb : ∀ a ∈ before, cmp a.1 e.1 = .lt)
    (ha : ∀ a ∈ after, cmp e.1 a.1 = .lt) :
    Adds cmp e (before ++ es ++ after) (before ++ es' ++ after) := by
  cases h with
  | @intro before' after' h =>
    have h' : Adds cmp e _ _ := .intro (h.within hb ha)
    simpa only [List.append_assoc, List.cons_append] using h'

theorem Drops.within (h : Drops cmp key es es') (hb : ∀ a ∈ before, cmp a.1 key = .lt)
    (ha : ∀ a ∈ after, cmp key a.1 = .lt) :
    Drops cmp key (before ++ es ++ after) (before ++ es' ++ after) := by
  cases h with
  | @intro before' after' x h hx =>
    have h' : Drops cmp key _ _ := .intro (h.within hb ha) hx
    simpa only [List.append_assoc, List.cons_append] using h'

theorem Adds.length (h : Adds cmp e es es') : es'.length = es.length + 1 := by
  cases h with
  | intro => simp [Nat.add_assoc]

theorem Drops.length (h : Drops cmp key es es') : es.length = es'.length + 1 := by
  cases h with
  | intro => simp [Nat.add_assoc]

theorem Adds.ascending (h : Adds cmp e es es') (hs : Ascending cmp es) : Ascending cmp es' := by
  cases h with
  | @intro before after h =>
    obtain ⟨hb, ha, hba⟩ := List.pairwise_append.mp hs
    refine List.pairwise_append.mpr ⟨hb, List.pairwise_cons.mpr ⟨h.above, ha⟩, ?_⟩
    intro a haMem b hbMem
    rcases List.mem_cons.mp hbMem with rfl | hbMem
    · exact h.below a haMem
    · exact hba a haMem b hbMem

theorem Drops.ascending (h : Drops cmp key es es') (hs : Ascending cmp es) :
    Ascending cmp es' := by
  cases h with
  | intro => exact hs.sublist (List.Sublist.append_left (List.sublist_cons_self _ _) _)

section Trans

variable [Std.TransCmp cmp]

/-- The three parts of an ascending list around one of its entries. -/
theorem ascending_append_cons :
    Ascending cmp (before ++ x :: after) ↔
      Ascending cmp before ∧ Ascending cmp after ∧ Between cmp x.1 before after := by
  rw [Ascending, List.pairwise_append, List.pairwise_cons]
  constructor
  · rintro ⟨hb, ⟨hx, ha⟩, h⟩
    exact ⟨hb, ha, fun a haMem => h a haMem x List.mem_cons_self, hx⟩
  · rintro ⟨hb, ha, h⟩
    refine ⟨hb, ⟨h.above, ha⟩, fun a haMem b hbMem => ?_⟩
    rcases List.mem_cons.mp hbMem with rfl | hbMem
    · exact h.below a haMem
    · exact Std.TransCmp.lt_trans (h.below a haMem) (h.above b hbMem)

/-- A key below an entry is below all that come after it. -/
theorem Between.above_of_lt (h : Between cmp x.1 before after) (hk : cmp key x.1 = .lt) :
    ∀ a ∈ x :: after, cmp key a.1 = .lt := by
  intro a ha
  rcases List.mem_cons.mp ha with rfl | ha
  · exact hk
  · exact Std.TransCmp.lt_trans hk (h.above a ha)

/-- A key above an entry is above all that come before it. -/
theorem Between.below_of_gt (h : Between cmp x.1 before after) (hk : cmp key x.1 = .gt) :
    ∀ a ∈ before ++ [x], cmp a.1 key = .lt := by
  intro a ha
  have hx : cmp x.1 key = .lt := Std.OrientedCmp.lt_of_gt hk
  rcases List.mem_append.mp ha with ha | ha
  · exact Std.TransCmp.lt_trans (h.below a ha) hx
  · rw [List.mem_singleton.mp ha]
    exact hx

/-- A key is equivalent to nothing below it and to nothing above it. -/
theorem Between.not_equivalent (h : Between cmp key before after) :
    ∀ a ∈ before ++ after, cmp key a.1 ≠ .eq := by
  intro a ha he
  rcases List.mem_append.mp ha with ha | ha
  · have hlt := h.below a ha
    rw [Std.OrientedCmp.eq_symm he] at hlt
    cases hlt
  · rw [h.above a ha] at he
    cases he

theorem Between.not_equivalent_of_lt (h : Between cmp x.1 before after)
    (hk : cmp key x.1 = .lt) : ∀ a ∈ x :: after, cmp key a.1 ≠ .eq := by
  have hAbove : Between cmp key [] (x :: after) := ⟨List.forall_mem_nil _, h.above_of_lt hk⟩
  exact hAbove.not_equivalent

theorem Between.not_equivalent_of_gt (h : Between cmp x.1 before after)
    (hk : cmp key x.1 = .gt) : ∀ a ∈ before ++ [x], cmp key a.1 ≠ .eq := by
  have hBelow : Between cmp key (before ++ [x]) [] := ⟨h.below_of_gt hk, List.forall_mem_nil _⟩
  intro a ha
  exact hBelow.not_equivalent a (List.mem_append_left _ ha)

theorem Between.congr {key' : κ} (h : Between cmp key' before after)
    (hk : cmp key key' = .eq) : Between cmp key before after where
  below a ha := by rw [Std.TransCmp.congr_right hk, h.below a ha]
  above a ha := by rw [Std.TransCmp.congr_left hk, h.above a ha]

end Trans

/-! ## Entries -/

namespace Tree

variable {l r t t' : Tree κ ν}

/-- The entries of a tree, from left to right. -/
def entries : Tree κ ν → List (κ × ν)
  | nil => []
  | node _ l x r => l.entries ++ x :: r.entries

theorem size_eq_length (t : Tree κ ν) : t.size = t.entries.length := by
  induction t with
  | nil => rfl
  | node c l x r ihl ihr =>
    rw [size, entries, List.length_append, List.length_cons, ihl, ihr]
    omega

theorem entries_mirror (t : Tree κ ν) : t.mirror.entries = t.entries.reverse := by
  induction t with
  | nil => rfl
  | node c l x r ihl ihr => simp [mirror, entries, ihl, ihr]

@[simp] theorem entries_blacken (t : Tree κ ν) : t.blacken.entries = t.entries := by
  cases t with
  | nil => rfl
  | node => rfl

theorem entries_redden (h : redden t = .ok t') : t'.entries = t.entries := by
  rcases t with _ | ⟨_ | _, l, x, r⟩
  · cases h
  · cases h
  · cases h
    rfl

theorem entries_balanceLeft (l : Tree κ ν) (x : κ × ν) (r : Tree κ ν) :
    (balanceLeft l x r).entries = l.entries ++ x :: r.entries := by
  rcases l with _ | ⟨_ | _, _ | ⟨_ | _, a, y, b⟩, z, _ | ⟨_ | _, c, w, d⟩⟩ <;>
    simp [balanceLeft, entries]

theorem entries_balanceRight (l : Tree κ ν) (x : κ × ν) (r : Tree κ ν) :
    (balanceRight l x r).entries = l.entries ++ x :: r.entries := by
  rw [balanceRight_eq_mirror, entries_mirror, entries_balanceLeft, entries_mirror, entries_mirror]
  simp

theorem entries_balanceLeftDel (h : balanceLeftDel l x r = .ok t) :
    t.entries = l.entries ++ x :: r.entries := by
  by_cases hRoot : l.isRed = true
  · rcases l with _ | ⟨_ | _, a, y, b⟩
    · cases hRoot
    · cases h
      simp [entries]
    · cases hRoot
  · rw [balanceLeftDel_of_not_red (Bool.eq_false_iff.mpr hRoot)] at h
    split at h
    · cases h
      rw [entries_balanceRight, entries, entries]
    · obtain ⟨d', hd, h⟩ := Result.bind_eq_ok.mp h
      cases h
      simp [entries, entries_balanceRight, entries_redden hd]
    · cases h

theorem entries_balanceRightDel (h : balanceRightDel l x r = .ok t) :
    t.entries = l.entries ++ x :: r.entries := by
  rw [balanceRightDel_eq_mirror] at h
  obtain ⟨t', ht', rfl⟩ := Result.map_eq_ok.mp h
  rw [entries_mirror, entries_balanceLeftDel ht', entries_mirror, entries_mirror]
  simp

/-- The entries of a node that was built from two parts, with more on the right. -/
theorem entries_around {c : Color} {b₁ b₂ b c' : Tree κ ν}
    (h : (node c b₁ x b₂).entries = b.entries ++ c'.entries) (es : List (κ × ν)) :
    b₁.entries ++ x :: (b₂.entries ++ es) = b.entries ++ (c'.entries ++ es) := by
  have h' : (b₁.entries ++ x :: b₂.entries) ++ es = (b.entries ++ c'.entries) ++ es := by
    rw [← h, entries]
  simpa only [List.append_assoc, List.cons_append] using h'

theorem entries_append (l r : Tree κ ν) (h : append l r = .ok t) :
    t.entries = l.entries ++ r.entries := by
  induction l, r using append.induct generalizing t with
  | case1 r =>
    rw [append] at h
    cases h
    rfl
  | case2 l hne =>
    cases l with
    | nil => exact (hne rfl).elim
    | node =>
      rw [append] at h
      · cases h
        exact (List.append_nil _).symm
      · exact hne
  | case3 a x b c y d ih =>
    rw [append] at h
    obtain ⟨bc, hbc, h⟩ := Result.bind_eq_ok.mp h
    have hEntries := ih hbc
    split at h
    · next b' z c' _ =>
      cases h
      simp [entries, entries_around hEntries]
    · cases h
      simp [entries, hEntries]
  | case4 a x b c y d ih =>
    rw [append] at h
    obtain ⟨t', ht', h⟩ := Result.bind_eq_ok.mp h
    cases h
    simp [entries, ih ht']
  | case5 a x b c y d ih =>
    rw [append] at h
    obtain ⟨t', ht', h⟩ := Result.bind_eq_ok.mp h
    cases h
    simp [entries, ih ht']
  | case6 a x b c y d ih =>
    rw [append] at h
    obtain ⟨bc, hbc, h⟩ := Result.bind_eq_ok.mp h
    have hEntries := ih hbc
    split at h
    · next b' z c' _ =>
      cases h
      simp [entries, entries_around hEntries]
    · rw [entries_balanceLeftDel h]
      simp [entries, hEntries]

/-! ## Changes -/

section Trans

variable [Std.TransCmp cmp]

/-- What an insertion below a node does to all entries. -/
theorem adds_left (hx : Between cmp x.1 l.entries r.entries) (hk : cmp e.1 x.1 = .lt)
    (h : Adds cmp e l.entries es) :
    Adds cmp e (l.entries ++ x :: r.entries) (es ++ x :: r.entries) := by
  have h' := h.within (List.forall_mem_nil _) (hx.above_of_lt hk)
  simpa using h'

theorem adds_right (hx : Between cmp x.1 l.entries r.entries) (hk : cmp e.1 x.1 = .gt)
    (h : Adds cmp e r.entries es) :
    Adds cmp e (l.entries ++ x :: r.entries) (l.entries ++ x :: es) := by
  have h' := h.within (hx.below_of_gt hk) (List.forall_mem_nil _)
  simpa using h'

/-- An insertion adds the entry in its place. There is none if a key is equivalent. -/
theorem add?_entries (e : κ × ν) (hs : Ascending cmp t.entries) :
    (∃ t', add? cmp e t = some t' ∧ Adds cmp e t.entries t'.entries) ∨
      (add? cmp e t = none ∧ ∃ x ∈ t.entries, cmp e.1 x.1 = .eq) := by
  induction t with
  | nil =>
    have h : Adds cmp e ([] ++ []) ([] ++ e :: []) :=
      .intro ⟨fun a ha => (nomatch ha), fun a ha => nomatch ha⟩
    exact Or.inl ⟨_, rfl, h⟩
  | node c l x r ihl ihr =>
    obtain ⟨hl, hr, hx⟩ := ascending_append_cons.mp hs
    rw [add?]
    cases hk : cmp e.1 x.1 with
    | eq => exact Or.inr ⟨rfl, x, by simp [entries], hk⟩
    | lt =>
      rcases ihl hl with ⟨l', hl', h⟩ | ⟨hNone, y, hy, he⟩
      · refine Or.inl ⟨_, by rw [hl']; rfl, ?_⟩
        cases c with
        | red => exact adds_left hx hk h
        | black =>
          simp only [entries_balanceLeft]
          exact adds_left hx hk h
      · exact Or.inr ⟨by rw [hNone]; rfl, y, by simp [entries, hy], he⟩
    | gt =>
      rcases ihr hr with ⟨r', hr', h⟩ | ⟨hNone, y, hy, he⟩
      · refine Or.inl ⟨_, by rw [hr']; rfl, ?_⟩
        cases c with
        | red => exact adds_right hx hk h
        | black =>
          simp only [entries_balanceRight]
          exact adds_right hx hk h
      · exact Or.inr ⟨by rw [hNone]; rfl, y, by simp [entries, hy], he⟩

omit [Std.TransCmp cmp] in
/-- Another value changes no key. -/
theorem keys_setValue (cmp : κ → κ → Ordering) (key : κ) (value : ν) (t : Tree κ ν) :
    (t.setValue cmp key value).entries.map (·.1) = t.entries.map (·.1) := by
  induction t with
  | nil => rfl
  | node c l x r ihl ihr =>
    rw [setValue]
    split
    · simp [entries]
    · simp [entries, ihl]
    · simp [entries, ihr]

omit [Std.TransCmp cmp] in
theorem ascending_setValue {t : Tree κ ν} (hs : Ascending cmp t.entries) (key : κ) (value : ν) :
    Ascending cmp (t.setValue cmp key value).entries := by
  rw [ascending_iff_keys, keys_setValue, ← ascending_iff_keys]
  exact hs

theorem drops_left (hx : Between cmp x.1 l.entries r.entries) (hk : cmp key x.1 = .lt)
    (h : Drops cmp key l.entries es) :
    Drops cmp key (l.entries ++ x :: r.entries) (es ++ x :: r.entries) := by
  have h' := h.within (List.forall_mem_nil _) (hx.above_of_lt hk)
  simpa using h'

theorem drops_right (hx : Between cmp x.1 l.entries r.entries) (hk : cmp key x.1 = .gt)
    (h : Drops cmp key r.entries es) :
    Drops cmp key (l.entries ++ x :: r.entries) (l.entries ++ x :: es) := by
  have h' := h.within (hx.below_of_gt hk) (List.forall_mem_nil _)
  simpa using h'

/-- A removal takes out the entry with an equivalent key. -/
theorem erase?_entries (hs : Ascending cmp t.entries) (h : erase? cmp key t = .ok (some t')) :
    Drops cmp key t.entries t'.entries := by
  induction t generalizing t' with
  | nil => cases h
  | node c l x r ihl ihr =>
    obtain ⟨hl, hr, hx⟩ := ascending_append_cons.mp hs
    rw [erase?] at h
    cases hk : cmp key x.1 with
    | eq =>
      simp only [hk] at h
      obtain ⟨t'', ht, hSome⟩ := Result.map_eq_ok.mp h
      cases hSome
      rw [entries_append l r ht]
      exact .intro (hx.congr hk) hk
    | lt =>
      simp only [hk] at h
      obtain ⟨o, ho, h⟩ := Result.bind_eq_ok.mp h
      cases o with
      | none => cases h
      | some l' =>
        have hDrops := drops_left hx hk (ihl hl ho)
        simp only at h
        split at h
        · obtain ⟨t'', ht, hSome⟩ := Result.map_eq_ok.mp h
          cases hSome
          rw [entries_balanceLeftDel ht]
          exact hDrops
        · cases h
          exact hDrops
    | gt =>
      simp only [hk] at h
      obtain ⟨o, ho, h⟩ := Result.bind_eq_ok.mp h
      cases o with
      | none => cases h
      | some r' =>
        have hDrops := drops_right hx hk (ihr hr ho)
        simp only at h
        split at h
        · obtain ⟨t'', ht, hSome⟩ := Result.map_eq_ok.mp h
          cases hSome
          rw [entries_balanceRightDel ht]
          exact hDrops
        · cases h
          exact hDrops

end Trans

end Tree

end SortedMap

end PersistentCollections
