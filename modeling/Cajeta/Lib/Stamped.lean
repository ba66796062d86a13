import Mathlib.Logic.Function.Basic

/-!
# Caches stamped with a generation

A slot holds a key, the generation it was filled in, and a fact about the key. A slot of another
generation is not believed. Slots are current when every slot of this generation holds the fact as
it is now: filling keeps that, a generation that no slot carries has it at once, and a change of
the facts needs it only for the keys of this generation.
-/

namespace Stamped

structure Slot (κ β : Type*) where
  key : κ
  stamp : UInt32
  value : β

/-- The slots of a cache; most are empty at first. -/
abbrev Slots (κ β : Type*) := Nat → Option (Slot κ β)

def Slots.empty : Slots κ β := fun _ => none

/-- What the slot at `i` says about `key` in this generation. -/
def Slots.hit [DecidableEq κ] (c : Slots κ β) (stamp : UInt32) (i : Nat) (key : κ) : Option β :=
  (c i).bind fun s => if s.key = key ∧ s.stamp = stamp then some s.value else none

/-- Takes the fact about `key` from slot `i`, and fills it first if need be; without a slot the fact
is looked up. -/
def Slots.get [DecidableEq κ] (c : Slots κ β) (fact : κ → β) (stamp : UInt32) (i : Option Nat)
    (key : κ) : β × Slots κ β :=
  match i with
  | none => (fact key, c)
  | some i =>
    match c.hit stamp i key with
    | some v => (v, c)
    | none => (fact key, Function.update c i (some ⟨key, stamp, fact key⟩))

def Slots.Holds (c : Slots κ β) (stamp : UInt32) (key : κ) : Prop :=
  ∃ i s, c i = some s ∧ s.stamp = stamp ∧ s.key = key

def Slots.Unused (c : Slots κ β) (stamp : UInt32) : Prop := ∀ i s, c i = some s → s.stamp ≠ stamp

/-- Every slot of this generation holds the fact as it is now. -/
def Slots.Current (c : Slots κ β) (fact : κ → β) (stamp : UInt32) : Prop :=
  ∀ i s, c i = some s → s.stamp = stamp → s.value = fact s.key

namespace Slots
variable {c : Slots κ β} {fact fact' : κ → β}

theorem current_empty : Current (empty : Slots κ β) fact stamp := fun _ _ h => (by cases h)

theorem Unused.current (h : c.Unused stamp) : c.Current fact stamp :=
  fun i s hs hstamp => absurd hstamp (h i s hs)

theorem Current.congr (h : c.Current fact stamp)
    (hfact : ∀ key, c.Holds stamp key → fact' key = fact key) : c.Current fact' stamp := by
  intro i s hs hstamp
  rw [h i s hs hstamp, hfact s.key ⟨i, s, hs, hstamp, rfl⟩]

theorem Current.fill (h : c.Current fact stamp) :
    Current (Function.update c i (some ⟨key, stamp, fact key⟩)) fact stamp := by
  intro j s hs hstamp
  by_cases hj : j = i
  · subst hj
    rw [Function.update_self] at hs
    rw [← Option.some.inj hs]
  · rw [Function.update_of_ne hj] at hs
    exact h j s hs hstamp

variable [DecidableEq κ]

theorem Current.hit_eq (h : c.Current fact stamp) (hv : c.hit stamp i key = some v) :
    v = fact key := by
  obtain ⟨s, hs, hif⟩ := Option.bind_eq_some_iff.mp hv
  rw [Option.ite_none_right_eq_some] at hif
  obtain ⟨⟨hkey, hstamp⟩, hvalue⟩ := hif
  rw [← Option.some.inj hvalue, h i s hs hstamp, hkey]

theorem get_congr {fact fact' : κ → β} (h : fact key = fact' key) :
    c.get fact stamp i key = c.get fact' stamp i key := by
  simp only [get, h]

theorem Current.get_value (h : c.Current fact stamp) : (c.get fact stamp i key).1 = fact key := by
  unfold get
  split
  · rfl
  · split
    · rename_i v hv
      exact h.hit_eq hv
    · rfl

theorem Current.get_current (h : c.Current fact stamp) :
    (c.get fact stamp i key).2.Current fact stamp := by
  unfold get
  split
  · exact h
  · split
    · exact h
    · exact h.fill

end Slots

end Stamped
