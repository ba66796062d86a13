import Mathlib.Data.List.Basic
import Mathlib.Logic.Function.Basic
import Mathlib.Tactic.Common

/-!
# Slots that hold titles

What an array of slots does with the titles of the objects that are stored into it: it receives a
title with a slot, gives it back, or drops the object. `holds i` is the object whose title slot `i`
holds. The ledger knows where each title is and counts the drops.
-/

namespace TitledSlots
variable {ι α : Type}

/-- Where a title is. -/
inductive Place (ι : Type) where
  | outside
  | held (i : ι)
  | dropped
  /-- Received, and recorded nowhere. -/
  | lost
deriving DecidableEq

structure Ledger (ι α : Type) where
  place : α → Place ι
  drops : α → Nat

namespace Ledger

def initial : Ledger ι α := ⟨fun _ => .outside, fun _ => 0⟩

variable [DecidableEq α]

def move (l : Ledger ι α) (x : α) (p : Place ι) : Ledger ι α :=
  { l with place := Function.update l.place x p }

def drop (l : Ledger ι α) (x : α) : Ledger ι α :=
  ⟨Function.update l.place x .dropped, Function.update l.drops x (l.drops x + 1)⟩

def dropAll (l : Ledger ι α) (xs : List α) : Ledger ι α := xs.foldl drop l

@[simp] theorem drops_move (l : Ledger ι α) : (l.move x p).drops = l.drops := rfl

theorem place_move (l : Ledger ι α) :
    (l.move x p).place y = if y = x then p else l.place y := by
  simp only [move, Function.update_apply]

theorem place_drop (l : Ledger ι α) :
    (l.drop x).place y = if y = x then .dropped else l.place y := by
  simp only [drop, Function.update_apply]

theorem drops_drop (l : Ledger ι α) :
    (l.drop x).drops y = if y = x then l.drops x + 1 else l.drops y := by
  simp only [drop, Function.update_apply]

theorem move_self {l : Ledger ι α} (h : l.place x = p) : l.move x p = l := by
  rw [move, ← h, Function.update_eq_self]

theorem place_dropAll {l : Ledger ι α} {xs : List α} :
    (l.dropAll xs).place x = if x ∈ xs then .dropped else l.place x := by
  unfold dropAll
  induction xs generalizing l with
  | nil => simp
  | cons y ys ih =>
    rw [List.foldl_cons, ih, place_drop]
    by_cases hx : x = y
    · simp [hx]
    · simp [hx]

end Ledger

variable [DecidableEq ι]

/-- The slots and the ledger agree, and nothing is dropped twice. -/
structure Exact (holds : ι → Option α) (l : Ledger ι α) : Prop where
  held : ∀ {i x}, holds i = some x ↔ l.place x = .held i
  drops : ∀ x, l.drops x = if l.place x = .dropped then 1 else 0

namespace Exact
variable {holds : ι → Option α} {l : Ledger ι α}

theorem initial : Exact (fun _ => none) (Ledger.initial : Ledger ι α) where
  held := by simp [Ledger.initial]
  drops := by simp [Ledger.initial]

variable [DecidableEq α]

theorem move_out (h : Exact holds l) (hi : holds i = some x) (hp : p = .outside ∨ p = .lost) :
    Exact (Function.update holds i none) (l.move x p) where
  held := by
    intro j y
    rw [Function.update_apply, Ledger.place_move]
    by_cases hy : y = x
    · rw [if_pos hy]
      have hne : p ≠ .held j := by rcases hp with rfl | rfl <;> simp
      refine ⟨fun hj => ?_, fun hp => absurd hp hne⟩
      split at hj
      · cases hj
      · rename_i hji
        rw [h.held, hy, h.held.mp hi] at hj
        cases hj
        exact absurd rfl hji
    · rw [if_neg hy, ← h.held]
      split
      · rename_i hji
        rw [hji, hi]
        exact ⟨fun hj => (by cases hj), fun hj => absurd (Option.some.inj hj).symm hy⟩
      · exact Iff.rfl
  drops := by
    intro y
    rw [Ledger.drops_move, Ledger.place_move]
    by_cases hy : y = x
    · have hplace := h.held.mp hi
      rw [if_pos hy, hy, h.drops, hplace]
      rcases hp with rfl | rfl <;> rfl
    · rw [if_neg hy, h.drops]

theorem take (h : Exact holds l) (hi : holds i = some x) :
    Exact (Function.update holds i none) (l.move x .outside) :=
  h.move_out hi (.inl rfl)

theorem receive (h : Exact holds l) (hi : holds i = none) (hx : l.place x = .outside) :
    Exact (Function.update holds i (some x)) (l.move x (.held i)) where
  held := by
    intro j y
    rw [Function.update_apply, Ledger.place_move]
    by_cases hy : y = x
    · rw [if_pos hy, hy]
      split
      · rename_i hji
        simp [hji]
      · rename_i hji
        rw [h.held, hx]
        simp [Ne.symm hji]
    · rw [if_neg hy, ← h.held]
      split
      · rename_i hji
        simp [hji, hi, Ne.symm hy]
      · exact Iff.rfl
  drops := by
    intro y
    rw [Ledger.drops_move, Ledger.place_move, h.drops]
    by_cases hy : y = x
    · simp [hy, hx]
    · rw [if_neg hy]

theorem lose (h : Exact holds l) (hx : l.place x = .outside) : Exact holds (l.move x .lost) where
  held := by
    intro j y
    rw [Ledger.place_move]
    by_cases hy : y = x
    · rw [if_pos hy, h.held, hy, hx]
      simp
    · rw [if_neg hy, h.held]
  drops := by
    intro y
    rw [Ledger.drops_move, Ledger.place_move, h.drops]
    by_cases hy : y = x
    · simp [hy, hx]
    · rw [if_neg hy]

theorem drop (h : Exact holds l) (hi : holds i = some x) :
    Exact (Function.update holds i none) (l.drop x) where
  held := by
    intro j y
    have hmove := (h.take hi).held (i := j) (x := y)
    rw [Ledger.place_move] at hmove
    rw [Ledger.place_drop, hmove]
    split <;> simp
  drops := by
    intro y
    rw [Ledger.drops_drop, Ledger.place_drop]
    by_cases hy : y = x
    · rw [if_pos hy, if_pos hy, h.drops, h.held.mp hi]
      rfl
    · rw [if_neg hy, if_neg hy, h.drops]

theorem drop_slot (h : Exact holds l) (i : ι) :
    Exact (Function.update holds i none) (l.dropAll (holds i).toList) := by
  cases hi : holds i with
  | none =>
    rw [← hi, Function.update_eq_self]
    rw [hi]
    exact h
  | some x => exact h.drop hi

theorem dropAll (h : Exact holds l) (is : List ι) (hnodup : is.Nodup) :
    Exact (fun i => if i ∈ is then none else holds i) (l.dropAll (is.filterMap holds)) := by
  induction is generalizing holds l with
  | nil => simpa [Ledger.dropAll] using h
  | cons i is ih =>
    obtain ⟨hi, hnodup⟩ := List.nodup_cons.mp hnodup
    cases hslot : holds i with
    | none =>
      have hrest := ih h hnodup
      rw [List.filterMap_cons, hslot]
      refine ⟨?_, hrest.drops⟩
      intro j y
      rw [← hrest.held]
      by_cases hj : j = i
      · simp [hj, hslot, hi]
      · simp [hj]
    | some x =>
      have hrest := ih (h.drop hslot) hnodup
      have hsame : is.filterMap (Function.update holds i none) = is.filterMap holds := by
        refine List.filterMap_congr fun j hj => ?_
        rw [Function.update_of_ne]
        rintro rfl
        exact hi hj
      rw [hsame] at hrest
      rw [List.filterMap_cons, hslot]
      refine ⟨?_, hrest.drops⟩
      intro j y
      rw [Ledger.dropAll, List.foldl_cons]
      rw [Ledger.dropAll] at hrest
      rw [← hrest.held]
      by_cases hj : j = i
      · simp [hj]
      · simp [hj]

end Exact

end TitledSlots
