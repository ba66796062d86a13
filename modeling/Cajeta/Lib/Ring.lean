import Cajeta.Lib.Slots
import Mathlib.Data.List.Rotate
import Mathlib.Data.Nat.ModEq
import Mathlib.Data.List.Range
import Mathlib.Logic.Function.Basic
import Mathlib.Data.Int.ModEq
import Mathlib.Tactic.Common

/-!
# Ring buffers

A queue in an array: its elements start at `head` and go round the end.
-/

namespace Ring
variable {α : Type}

/-- The `n` elements from `head` on. -/
def items (buf : List α) (head n : Nat) : List α := (buf.rotate head).take n

theorem length_items {buf : List α} (h : n ≤ buf.length) : (items buf head n).length = n := by
  rw [items, List.length_take, List.length_rotate, Nat.min_eq_left h]

theorem rotate_set {buf : List α} (hn : n < buf.length) :
    (buf.set ((head + n) % buf.length) x).rotate head = (buf.rotate head).set n x := by
  apply List.ext_getElem
  · simp
  · intro i hi hi'
    rw [List.length_rotate, List.length_set] at hi
    rw [List.getElem_rotate, List.getElem_set, List.getElem_set, List.getElem_rotate]
    simp only [List.length_set]
    by_cases heq : n = i
    · subst heq
      rw [if_pos (by rw [Nat.add_comm]), if_pos rfl]
    · rw [if_neg heq, if_neg]
      rw [Nat.add_comm head n]
      intro hmod
      have hmod' : n % buf.length = i % buf.length := Nat.ModEq.add_right_cancel' head hmod
      rw [Nat.mod_eq_of_lt hn, Nat.mod_eq_of_lt hi] at hmod'
      exact heq hmod'

theorem items_set {buf : List α} (hn : n < buf.length) :
    items (buf.set ((head + n) % buf.length) x) head (n + 1) = items buf head n ++ [x] := by
  rw [items, rotate_set hn, List.take_succ_eq_append_getElem (by simpa using hn), items,
    List.take_set_of_le (Nat.le_refl n), List.getElem_set_self]

theorem items_eq_cons {buf : List α} (hhead : buf[head]? = some x) (hn : n < buf.length) :
    items buf head (n + 1) = x :: items buf ((head + 1) % buf.length) n := by
  have hlt := (List.getElem?_eq_some_iff.mp hhead).1
  have hfirst := List.head?_rotate hlt
  rw [hhead] at hfirst
  obtain ⟨rest, hrest⟩ := List.head?_eq_some_iff.mp hfirst
  have hlen : rest.length + 1 = buf.length := by
    rw [← List.length_rotate buf head, hrest, List.length_cons]
  have hnext : buf.rotate ((head + 1) % buf.length) = rest ++ [x] := by
    rw [List.rotate_mod, ← List.rotate_rotate, hrest, List.rotate_cons_succ, List.rotate_zero]
  rw [items, items, hrest, hnext, List.take_succ_cons, List.take_append_of_le_length (by omega)]

end Ring

/-!
## Windows of a circular buffer

Sequence numbers only grow; the element of number `i` is in slot `i % cap`. A window is what stands
between two sequence numbers.
-/

namespace Window
variable {α : Type} {slots : Int → α} {cap lo hi : Int}

/-- The elements from number `lo` on, below `hi`. -/
def elems (slots : Int → α) (cap lo hi : Int) : List α :=
  (List.range (hi - lo).toNat).map fun n : Nat => slots ((lo + n) % cap)

theorem elems_eq_nil (h : hi ≤ lo) : elems slots cap lo hi = [] := by
  rw [elems, Int.toNat_of_nonpos (by omega), List.range_zero, List.map_nil]

theorem elems_eq_cons (h : lo < hi) :
    elems slots cap lo hi = slots (lo % cap) :: elems slots cap (lo + 1) hi := by
  have hsize : (hi - lo).toNat = (hi - (lo + 1)).toNat + 1 := by omega
  rw [elems, hsize, List.range_succ_eq_map, List.map_cons, List.map_map, elems]
  congr 1
  · simp
  · refine List.map_congr_left fun n _ => ?_
    simp only [Function.comp_apply]
    congr 2
    omega

theorem elems_concat (h : lo ≤ hi) :
    elems slots cap lo (hi + 1) = elems slots cap lo hi ++ [slots (hi % cap)] := by
  have hsize : (hi + 1 - lo).toNat = (hi - lo).toNat + 1 := by omega
  rw [elems, hsize, List.range_succ, List.map_append, elems, List.map_cons, List.map_nil,
    Int.toNat_of_nonneg (by omega), show lo + (hi - lo) = hi by omega]

theorem emod_ne (hlt : i < j) (hturn : j < i + cap) : i % cap ≠ j % cap := by
  intro heq
  have hdvd : cap ∣ j - i := Int.ModEq.dvd heq
  exact absurd (Int.le_of_dvd (by omega) hdvd) (by omega)

theorem elems_update (h : hi < lo + cap) (x : α) :
    elems (Function.update slots (hi % cap) x) cap lo hi = elems slots cap lo hi := by
  refine List.map_congr_left fun n hn => ?_
  rw [List.mem_range] at hn
  rw [Function.update_of_ne]
  exact emod_ne (by omega) (by omega)

end Window
