import Mathlib.Data.List.Perm.Basic
import Mathlib.Tactic.Common

/-!
# Sorting by a comparator

A comparator answers a negative, zero or positive number. A permutation is stable when the elements
that compare equal to any given one keep their order.
-/

namespace StableOrder

/-- The comparator orders its elements as a total preorder does. -/
structure TotalPreorder (cmp : α → α → Int) : Prop where
  swap : ∀ x y, cmp x y < 0 ↔ 0 < cmp y x
  trans : ∀ x y z, cmp x y ≤ 0 → cmp y z ≤ 0 → cmp x z ≤ 0

section

variable {cmp : α → α → Int}

/-- No element comes before an earlier one. -/
def Sorted (cmp : α → α → Int) (s : List α) : Prop := s.Pairwise fun x y => cmp x y ≤ 0

namespace TotalPreorder

theorem refl (h : TotalPreorder cmp) (x : α) : cmp x x = 0 := by
  have hswap := h.swap x x
  omega

theorem le_of_not_lt (h : TotalPreorder cmp) (hxy : ¬ cmp x y < 0) : cmp y x ≤ 0 := by
  have hswap := h.swap x y
  omega

theorem lt_of_lt_of_le (h : TotalPreorder cmp) (hxy : cmp x y < 0) (hyz : cmp y z ≤ 0) :
    cmp x z < 0 := by
  by_contra hxz
  have hzy := h.trans z x y (h.le_of_not_lt hxz) (by omega)
  have hyx := h.trans y z x hyz (h.le_of_not_lt hxz)
  have hswap := h.swap x y
  omega

theorem lt_of_le_of_lt (h : TotalPreorder cmp) (hxy : cmp x y ≤ 0) (hyz : cmp y z < 0) :
    cmp x z < 0 := by
  by_contra hxz
  have hzx := h.le_of_not_lt hxz
  have hzy := h.trans z x y hzx hxy
  have hswap := h.swap y z
  omega

theorem not_lt_of_eq (h : TotalPreorder cmp) (hzx : cmp z x = 0) (hzy : cmp z y = 0) :
    ¬ cmp x y < 0 := by
  intro hxy
  have hzy' := h.lt_of_le_of_lt (Int.le_of_eq hzx) hxy
  omega

end TotalPreorder

/-- The elements of `s` that compare equal to `x`, in their order. -/
def ties (cmp : α → α → Int) (x : α) (s : List α) : List α := s.filter fun y => cmp x y = 0

theorem ties_append (cmp : α → α → Int) (x : α) (u v : List α) :
    ties cmp x (u ++ v) = ties cmp x u ++ ties cmp x v := List.filter_append ..

structure Stable (cmp : α → α → Int) (s s' : List α) : Prop where
  perm : s'.Perm s
  ties : ∀ x, ties cmp x s' = ties cmp x s

namespace Stable

theorem refl (s : List α) : Stable cmp s s := ⟨.refl _, fun _ => rfl⟩

theorem trans (h : Stable cmp s s') (h' : Stable cmp s' s'') : Stable cmp s s'' :=
  ⟨h'.perm.trans h.perm, fun x => (h'.ties x).trans (h.ties x)⟩

theorem append (hs : Stable cmp s s') (ht : Stable cmp t t') : Stable cmp (s ++ t) (s' ++ t') := by
  refine ⟨hs.perm.append ht.perm, fun x => ?_⟩
  rw [ties_append, ties_append, hs.ties, ht.ties]

theorem moveLeft (h : TotalPreorder cmp) (hv : ∀ y ∈ v, cmp x y < 0) :
    Stable cmp (v ++ [x]) (x :: v) := by
  refine ⟨(List.perm_append_singleton x v).symm, fun z => ?_⟩
  simp only [StableOrder.ties, List.filter_append, List.filter_cons, List.filter_nil]
  split
  · next hzx =>
    have hnil : v.filter (fun y => decide (cmp z y = 0)) = [] := by
      refine List.filter_eq_nil_iff.mpr fun y hy hzy => ?_
      exact h.not_lt_of_eq (of_decide_eq_true hzx) (of_decide_eq_true hzy) (hv y hy)
    rw [hnil, List.nil_append]
  · rw [List.append_nil]

theorem reverse (h : TotalPreorder cmp) (hs : s.Pairwise fun x y => cmp y x < 0) :
    Stable cmp s s.reverse := by
  induction s with
  | nil => exact refl []
  | cons x s ih =>
    obtain ⟨hx, hs⟩ := List.pairwise_cons.mp hs
    rw [List.reverse_cons]
    have htail := (ih hs).append (refl [x])
    refine trans ⟨List.perm_append_singleton x s, fun z => ?_⟩ htail
    simp only [StableOrder.ties, List.filter_append, List.filter_cons, List.filter_nil]
    split
    · next hzx =>
      have hnil : s.filter (fun y => decide (cmp z y = 0)) = [] := by
        refine List.filter_eq_nil_iff.mpr fun y hy hzy => ?_
        exact h.not_lt_of_eq (of_decide_eq_true hzy) (of_decide_eq_true hzx) (hx y hy)
      rw [hnil, List.nil_append]
    · rw [List.append_nil]

end Stable

theorem Sorted.insert (hs : Sorted cmp (u ++ v))
    (hu : ∀ y ∈ u, cmp y x ≤ 0) (hv : ∀ y ∈ v, cmp x y < 0) : Sorted cmp (u ++ x :: v) := by
  obtain ⟨hsu, hsv, huv⟩ := List.pairwise_append.mp hs
  refine List.pairwise_append.mpr ⟨hsu, List.pairwise_cons.mpr ⟨?_, hsv⟩, ?_⟩
  · intro y hy
    exact Int.le_of_lt (hv y hy)
  · intro y hy z hz
    rcases List.mem_cons.mp hz with rfl | hz
    · exact hu y hy
    · exact huv y hy z hz

theorem Sorted.le_last (h : TotalPreorder cmp) (hs : Sorted cmp (u ++ [y])) (hyx : cmp y x ≤ 0) :
    ∀ z ∈ u ++ [y], cmp z x ≤ 0 := by
  intro z hz
  rcases List.mem_append.mp hz with hz | hz
  · have hzy := (List.pairwise_append.mp hs).2.2 z hz y (List.mem_singleton_self y)
    exact h.trans z y x hzy hyx
  · rw [List.mem_singleton.mp hz]
    exact hyx

end

end StableOrder
