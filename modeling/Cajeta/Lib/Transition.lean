import Mathlib.Logic.Relation

/-!
# Runs of a labelled transition relation

A run is a list of labels taken one after another. The two rules here turn a fact about one step
into a fact about every run: an invariant of every step, and an invariant of the steps that a
guard on the state before them admits.
-/

/-- `Steps step s labels s'`: the labels lead from `s` to `s'`, in order. -/
inductive Steps (step : σ → α → σ → Prop) : σ → List α → σ → Prop where
  | nil : Steps step s [] s
  | cons : step s a s' → Steps step s' as s'' → Steps step s (a :: as) s''

namespace Steps
variable {step : σ → α → σ → Prop}

theorem preserves {P : σ → Prop} (hstep : ∀ s a s', step s a s' → P s → P s')
    (h : Steps step s as s') (hs : P s) : P s' := by
  induction h with
  | nil => exact hs
  | cons ha _ ih => exact ih (hstep _ _ _ ha hs)

/-- A step together with a guard on the state it starts from. -/
def guarded (step : σ → α → σ → Prop) (guard : σ → α → Prop) (s : σ) (a : α) (s' : σ) : Prop :=
  guard s a ∧ step s a s'

theorem of_guarded {guard : σ → α → Prop} (h : Steps (guarded step guard) s as s') :
    Steps step s as s' := by
  induction h with
  | nil => exact .nil
  | cons ha _ ih => exact .cons ha.2 ih

end Steps
