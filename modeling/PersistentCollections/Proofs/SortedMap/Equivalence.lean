import PersistentCollections.Proofs.SortedMap.Equality

/-!
# Equality of sorted collections as a relation

Equality looks the keys of the one collection up by the order of the other. If all have one order
it is an equivalence relation. If they have not, what is equivalent for the order that looks keys
up has to be equivalent for the order of the collection on the other side: `equals_equivalence`
says so for the keys that are stored. Without it equality goes one way only, and does not go on
from the second collection to a third (`equals_one_way`).
-/

namespace PersistentCollections

namespace Comparator

variable {κ : Type} {c c' : Comparator κ} {xs ys : List κ}

/-- A key of the one list and a key of the other that an order takes for equivalent are so for a
second order as well. -/
def RefinesOn (c c' : Comparator κ) (xs ys : List κ) : Prop :=
  ∀ x ∈ xs, ∀ y ∈ ys, c.compare x y = .eq → c'.compare x y = .eq

/-- An order that takes no two keys for equivalent refines each order. -/
theorem refinesOn_of_eq (hc : ∀ x y, c.compare x y = .eq → x = y) (hc' : c'.Total)
    (xs ys : List κ) : c.RefinesOn c' xs ys := by
  have := hc'.transCmp
  intro x _ y _ hxy
  rw [hc x y hxy]
  exact Std.ReflCmp.compare_self

end Comparator

section

variable {κ ν : Type} [HashCode κ] [BEq ν] [EquivBEq ν] [HashCode ν] {ca cb cd : Comparator κ}

namespace SortedMap

variable {a b d : SortedMap κ ν}

omit [EquivBEq ν] in
theorem Reachable.equals_iff (ha : a.Reachable ca) (hb : b.Reachable cb) (hca : ca.Total)
    (hcb : cb.Total) :
    a.equals b = true ↔ Covers (Matches cb) a.toList b.toList := by
  obtain ⟨-, hwa, -⟩ := ha.spec hca
  obtain ⟨rfl, hwb, -⟩ := hb.spec hcb
  rw [toList_eq_entries, toList_eq_entries]
  exact SortedMap.equals_iff hwa hwb hcb

theorem equals_refl (hca : ca.Total) (ha : a.Reachable ca) : a.equals a = true := by
  have := hca.transCmp
  rw [ha.equals_iff ha hca hca]
  exact Covers.refl fun e _ => ⟨Std.ReflCmp.compare_self, BEq.rfl⟩

theorem equals_symm (hca : ca.Total) (hcb : cb.Total) (ha : a.Reachable ca) (hb : b.Reachable cb)
    (hKeys : cb.RefinesOn ca a.keys b.keys) (h : a.equals b = true) : b.equals a = true := by
  have := hca.transCmp
  rw [ha.equals_iff hb hca hcb] at h
  rw [hb.equals_iff ha hcb hca]
  -- the lookup went by the order of `b`; the one back goes by that of `a`
  have hEquivalent : ∀ e ∈ a.toList, ∀ e' ∈ b.toList, Matches cb e e' →
      ca.compare e.1 e'.1 = .eq := by
    intro e he e' he' hMatch
    exact hKeys e.1 (List.mem_map_of_mem he) e'.1 (List.mem_map_of_mem he') hMatch.1
  apply h.symm
  · obtain ⟨rfl, hw, -⟩ := ha.spec hca
    have hAscending := hw.ascending
    rw [← toList_eq_entries] at hAscending
    exact hca.apart hAscending hEquivalent
  · intro e he e' he' hMatch
    exact ⟨Std.OrientedCmp.eq_symm (hEquivalent e he e' he' hMatch), BEq.symm hMatch.2⟩

theorem equals_trans (hca : ca.Total) (hcb : cb.Total) (hcd : cd.Total) (ha : a.Reachable ca)
    (hb : b.Reachable cb) (hd : d.Reachable cd) (hKeys : cb.RefinesOn cd a.keys b.keys)
    (h : a.equals b = true) (h' : b.equals d = true) : a.equals d = true := by
  have := hcd.transCmp
  rw [ha.equals_iff hb hca hcb] at h
  rw [hb.equals_iff hd hcb hcd] at h'
  rw [ha.equals_iff hd hca hcd]
  apply h.trans h'
  intro e he e' he' e'' _ hMatch hMatch'
  have hEquivalent : cd.compare e.1 e'.1 = .eq :=
    hKeys e.1 (List.mem_map_of_mem he) e'.1 (List.mem_map_of_mem he') hMatch.1
  exact ⟨Std.TransCmp.eq_trans hEquivalent hMatch'.1, BEq.trans hMatch.2 hMatch'.2⟩

end SortedMap

namespace SortedSet

variable {a b d : SortedSet κ}

theorem Reachable.equals_iff (ha : a.Reachable ca) (hb : b.Reachable cb) (hca : ca.Total)
    (hcb : cb.Total) :
    a.equals b = true ↔ Covers (fun x y => cb.compare x y = .eq) a.toList b.toList := by
  obtain ⟨rfl, hwa, -⟩ := ha.spec hca
  obtain ⟨rfl, hwb, -⟩ := hb.spec hcb
  rw [(lists_elements hwa hca).toList, (lists_elements hwb hcb).toList]
  exact SortedSet.equals_iff hwa hwb hca hcb

theorem equals_refl (hca : ca.Total) (ha : a.Reachable ca) : a.equals a = true := by
  have := hca.transCmp
  rw [ha.equals_iff ha hca hca]
  exact Covers.refl fun _ _ => Std.ReflCmp.compare_self

theorem equals_symm (hca : ca.Total) (hcb : cb.Total) (ha : a.Reachable ca) (hb : b.Reachable cb)
    (hElements : cb.RefinesOn ca a.toList b.toList) (h : a.equals b = true) :
    b.equals a = true := by
  have := hca.transCmp
  rw [ha.equals_iff hb hca hcb] at h
  rw [hb.equals_iff ha hcb hca]
  apply h.symm
  · obtain ⟨rfl, hw, -⟩ := ha.spec hca
    have hLists := lists_elements hw hca
    rw [hLists.toList] at hElements ⊢
    exact hca.apart hLists.ascending hElements
  · intro x hx y hy hxy
    exact Std.OrientedCmp.eq_symm (hElements x hx y hy hxy)

theorem equals_trans (hca : ca.Total) (hcb : cb.Total) (hcd : cd.Total) (ha : a.Reachable ca)
    (hb : b.Reachable cb) (hd : d.Reachable cd) (hElements : cb.RefinesOn cd a.toList b.toList)
    (h : a.equals b = true) (h' : b.equals d = true) : a.equals d = true := by
  have := hcd.transCmp
  rw [ha.equals_iff hb hca hcb] at h
  rw [hb.equals_iff hd hcb hcd] at h'
  rw [ha.equals_iff hd hca hcd]
  apply h.trans h'
  intro x hx y hy z _ hxy hyz
  exact Std.TransCmp.eq_trans (hElements x hx y hy hxy) hyz

end SortedSet

/-- Equality of sorted maps and of sorted sets, each with an order of its own, is reflexive; it is
symmetric and transitive where the order of the second collection refines that of the first, or
that of the third, on the keys that are stored in the first and the second. -/
theorem equals_equivalence (hca : ca.Total) (hcb : cb.Total) (hcd : cd.Total) :
    (∀ a b d : SortedMap κ ν, a.Reachable ca → b.Reachable cb → d.Reachable cd →
      a.equals a = true ∧
      (cb.RefinesOn ca a.keys b.keys → a.equals b = true → b.equals a = true) ∧
      (cb.RefinesOn cd a.keys b.keys → a.equals b = true → b.equals d = true →
        a.equals d = true)) ∧
    ∀ a b d : SortedSet κ, a.Reachable ca → b.Reachable cb → d.Reachable cd →
      a.equals a = true ∧
      (cb.RefinesOn ca a.toList b.toList → a.equals b = true → b.equals a = true) ∧
      (cb.RefinesOn cd a.toList b.toList → a.equals b = true → b.equals d = true →
        a.equals d = true) := by
  constructor
  · intro a b d ha hb hd
    exact ⟨SortedMap.equals_refl hca ha, SortedMap.equals_symm hca hcb ha hb,
      SortedMap.equals_trans hca hcb hcd ha hb hd⟩
  · intro a b d ha hb hd
    exact ⟨SortedSet.equals_refl hca ha, SortedSet.equals_symm hca hcb ha hb,
      SortedSet.equals_trans hca hcb hcd ha hb hd⟩

end

/-- 64-bit numbers in ascending and in descending order. -/
def longsUpward : Comparator Int64 := .natural

def longsDownward : Comparator Int64 := longsUpward.reversed

theorem longsUpward_total : longsUpward.Total :=
  Comparator.total_of_transCmp (inferInstanceAs (Std.TransCmp (compare : Int64 → Int64 → _)))

theorem longsDownward_total : longsDownward.Total := longsUpward_total.reversed

theorem longsDownward_refinesOn {c : Comparator Int64} (hc : c.Total) (xs ys : List Int64) :
    longsDownward.RefinesOn c xs ys := by
  apply Comparator.refinesOn_of_eq _ hc
  intro x y hxy
  have hCompare : compare y x = .eq := hxy
  exact (Std.LawfulEqOrd.eq_of_compare hCompare).symm

/-- A map upwards, the same map downwards, and one by magnitude with an opposite key. -/
def upward : SortedMap Int64 Int64 := ((SortedMap.empty longsUpward).insert 1 5).insert 2 6

def downward : SortedMap Int64 Int64 := ((SortedMap.empty longsDownward).insert 1 5).insert 2 6

def minusTwo : SortedMap Int64 Int64 :=
  ((SortedMap.empty longsByMagnitude).insert (-2) 6).insert 1 5

theorem equals_equivalence_longs : longsUpward.Total ∧ longsDownward.Total ∧
    longsByMagnitude.Total ∧ upward.Reachable longsUpward ∧ downward.Reachable longsDownward ∧
    minusTwo.Reachable longsByMagnitude ∧
    longsDownward.RefinesOn longsUpward upward.keys downward.keys ∧
    longsDownward.RefinesOn longsByMagnitude upward.keys downward.keys ∧
    upward.equals downward = true ∧ downward.equals minusTwo = true ∧
    upward.equals upward = true ∧ downward.equals upward = true ∧
    upward.equals minusTwo = true := by
  have hUpward : upward.Reachable longsUpward := .insert 2 6 (.insert 1 5 .empty)
  have hDownward : downward.Reachable longsDownward := .insert 2 6 (.insert 1 5 .empty)
  have hMinusTwo : minusTwo.Reachable longsByMagnitude := .insert 1 5 (.insert (-2) 6 .empty)
  have hEquals : upward.equals downward = true := by
    rw [hUpward.equals_iff hDownward longsUpward_total longsDownward_total,
      SortedMap.toList_eq_entries, SortedMap.toList_eq_entries]
    decide +kernel
  have hEquals' : downward.equals minusTwo = true := by
    rw [hDownward.equals_iff hMinusTwo longsDownward_total longsByMagnitude_total,
      SortedMap.toList_eq_entries, SortedMap.toList_eq_entries]
    decide +kernel
  have hRefines := longsDownward_refinesOn longsUpward_total upward.keys downward.keys
  have hRefines' := longsDownward_refinesOn longsByMagnitude_total upward.keys downward.keys
  obtain ⟨hRefl, hSymm, hTrans⟩ := (equals_equivalence longsUpward_total longsDownward_total
    longsByMagnitude_total).1 _ _ _ hUpward hDownward hMinusTwo
  exact ⟨longsUpward_total, longsDownward_total, longsByMagnitude_total, hUpward, hDownward,
    hMinusTwo, hRefines, hRefines', hEquals, hEquals', hRefl, hSymm hRefines hEquals,
    hTrans hRefines' hEquals hEquals'⟩

/-- A map with a number and its opposite equals a map by magnitude that has other keys, but not the
other way round; the latter equals a third map, which the first does not equal. And so for sets. -/
theorem equals_one_way : longsUpward.Total ∧ longsByMagnitude.Total ∧
    (∃ a b d : SortedMap Int64 Int64, a.Reachable longsUpward ∧ b.Reachable longsByMagnitude ∧
      d.Reachable longsUpward ∧ a.equals b = true ∧ ¬ b.equals a = true ∧
      b.equals d = true ∧ ¬ a.equals d = true) ∧
    ∃ a b d : SortedSet Int64, a.Reachable longsUpward ∧ b.Reachable longsByMagnitude ∧
      d.Reachable longsUpward ∧ a.equals b = true ∧ ¬ b.equals a = true ∧
      b.equals d = true ∧ ¬ a.equals d = true := by
  have hc := longsUpward_total
  have hc' := longsByMagnitude_total
  have hMap : ∀ (c : Comparator Int64) (k : Int64),
      (((SortedMap.empty c).insert 1 (5 : Int64)).insert k 5).Reachable c :=
    fun c k => .insert k 5 (.insert 1 5 .empty)
  have hSet : ∀ (c : Comparator Int64) (k : Int64),
      (((SortedSet.empty c).insert 1).insert k).Reachable c :=
    fun c k => .insert k (.insert 1 .empty)
  refine ⟨hc, hc', ⟨_, _, _, hMap _ (-1), hMap _ 2, hMap _ 2, ?_⟩,
    ⟨_, _, _, hSet _ (-1), hSet _ 2, hSet _ 2, ?_⟩⟩
  · rw [(hMap _ (-1)).equals_iff (hMap _ 2) hc hc', (hMap _ 2).equals_iff (hMap _ (-1)) hc' hc,
      (hMap _ 2).equals_iff (hMap _ 2) hc' hc, (hMap _ (-1)).equals_iff (hMap _ 2) hc hc]
    simp only [SortedMap.toList_eq_entries]
    decide +kernel
  · rw [(hSet _ (-1)).equals_iff (hSet _ 2) hc hc', (hSet _ 2).equals_iff (hSet _ (-1)) hc' hc,
      (hSet _ 2).equals_iff (hSet _ 2) hc' hc, (hSet _ (-1)).equals_iff (hSet _ 2) hc hc]
    simp only [SortedSet.toList, SortedMap.keys, SortedMap.toList_eq_entries]
    decide +kernel

end PersistentCollections
