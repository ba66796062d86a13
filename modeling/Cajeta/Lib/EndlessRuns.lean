import Mathlib.Logic.Relation
import Mathlib.Order.WellFounded
import Mathlib.Order.Preorder.Finite

/-!
# Endless runs

A relation on finitely many states has an endless run exactly when some run comes back to a state it
has been in.
-/

open Relation

namespace EndlessRuns
variable {α : Type*}

theorem transGen_of_chain {r : α → α → Prop} {chain : Nat → α}
    (h : ∀ n, r (chain n) (chain (n + 1))) (hlt : i < j) : TransGen r (chain i) (chain j) := by
  induction j, hlt using Nat.le_induction with
  | base => exact .single (h i)
  | succ j _ ih => exact ih.tail (h j)

theorem not_return_of_acc {r : α → α → Prop} (h : Acc (fun y x => r x y) s) : ¬TransGen r s s := by
  induction h with
  | intro s _ ih =>
    intro hloop
    obtain ⟨t, hstep, hback⟩ := TransGen.head'_iff.mp hloop
    exact ih t hstep (TransGen.tail' hback hstep)

/-- Where finitely many states can be reached, no run is endless exactly when none comes back to a
state it has been in. -/
theorem acc_iff_no_return {r : α → α → Prop} (hfin : {s | ReflTransGen r a s}.Finite) :
    Acc (fun y x => r x y) a ↔ ¬∃ s, ReflTransGen r a s ∧ TransGen r s s := by
  constructor
  · rintro hacc ⟨s, hreach, hloop⟩
    refine not_return_of_acc ?_ hloop
    clear hloop
    induction hreach with
    | refl => exact hacc
    | tail _ hstep ih => exact ih.inv hstep
  · intro hno
    by_contra hacc
    obtain ⟨chain, rfl, hchain⟩ := not_acc_iff_exists_descending_chain.mp hacc
    have hreach : ∀ n, chain n ∈ {s | ReflTransGen r (chain 0) s} := fun n => by
      induction n with
      | zero => exact .refl
      | succ n ih => exact ih.tail (hchain n)
    obtain ⟨i, j, hlt, heq⟩ := hfin.exists_lt_map_eq_of_forall_mem hreach
    have hloop := transGen_of_chain hchain hlt
    rw [← heq] at hloop
    exact hno ⟨chain i, hreach i, hloop⟩

end EndlessRuns
