import Mathlib.Data.List.Nodup
import Mathlib.Logic.Function.Basic
import Mathlib.Tactic.Common

/-!
# Records that their owners hold

A list of records, in which each owner has at most one. An owner that holds a record knows what it
says and the key by which it can be found; the list may have lost the record already. Keys are given
out in order, so that no two owners hold the same.
-/

/-- `holds x` is what `x` knows of the record that it holds. -/
structure HeldRecords (owner : R → X) (data : R → D) (key : D → Nat) (holds : X → Option D)
    (next : Nat) (l : List R) : Prop where
  nodup : (l.map owner).Nodup
  of_mem : ∀ r ∈ l, holds (owner r) = some (data r)
  lt : ∀ x d, holds x = some d → key d < next
  inj : ∀ x y d d', holds x = some d → holds y = some d' → key d = key d' → x = y

namespace HeldRecords
variable {owner : R → X} {data : R → D} {key : D → Nat} {holds holds' : X → Option D}
  {next : Nat} {l l' : List R}

theorem nil (h : ∀ x, holds x = none) : HeldRecords owner data key holds next [] where
  nodup := .nil
  of_mem _ hr := absurd hr List.not_mem_nil
  lt x d hx := by rw [h x] at hx; cases hx
  inj x _ d _ hx := by rw [h x] at hx; cases hx

theorem congr (h : HeldRecords owner data key holds next l) (hh : ∀ x, holds' x = holds x) :
    HeldRecords owner data key holds' next l :=
  (funext hh : holds' = holds) ▸ h

theorem mono (h : HeldRecords owner data key holds next l) (hn : next ≤ next') :
    HeldRecords owner data key holds next' l :=
  { h with lt := fun x d hx => Nat.lt_of_lt_of_le (h.lt x d hx) hn }

theorem sublist (h : HeldRecords owner data key holds next l) (hl : l'.Sublist l) :
    HeldRecords owner data key holds next l' :=
  { h with
    nodup := h.nodup.sublist (hl.map owner)
    of_mem := fun r hr => h.of_mem r (hl.subset hr) }

theorem perm (h : HeldRecords owner data key holds next l) (hl : l'.Perm l) :
    HeldRecords owner data key holds next l' :=
  { h with
    nodup := (hl.map owner).nodup_iff.mpr h.nodup
    of_mem := fun r hr => h.of_mem r (hl.mem_iff.mp hr) }

theorem not_mem (h : HeldRecords owner data key holds next l) (hx : holds x = none) :
    ∀ r ∈ l, owner r ≠ x := by
  intro r hr e
  have := h.of_mem r hr
  rw [e, hx] at this
  cases this

theorem eq_of_owner (h : HeldRecords owner data key holds next l) (hr : r ∈ l) (hr' : r' ∈ l)
    (ho : owner r = owner r') : r = r' :=
  List.inj_on_of_nodup_map h.nodup hr hr' ho

theorem add (h : HeldRecords owner data key holds next l) (hx : holds (owner r) = none)
    (hr : holds' (owner r) = some (data r)) (hkey : key (data r) = next)
    (hother : ∀ y, y ≠ owner r → holds' y = holds y) :
    HeldRecords owner data key holds' (next + 1) (r :: l) := by
  refine ⟨?_, ?_, ?_, ?_⟩
  · refine List.nodup_cons.mpr ⟨fun hmem => ?_, h.nodup⟩
    obtain ⟨r', hr', e⟩ := List.mem_map.mp hmem
    exact h.not_mem hx r' hr' e
  · intro r' hr'
    rcases List.mem_cons.mp hr' with rfl | hr'
    · exact hr
    · rw [hother _ (h.not_mem hx r' hr')]
      exact h.of_mem r' hr'
  · intro y d hy
    by_cases e : y = owner r
    · subst e
      rw [hr] at hy
      cases hy
      omega
    · rw [hother y e] at hy
      exact Nat.lt_succ_of_lt (h.lt y d hy)
  · have hne {y d} (hy : y ≠ owner r) (hd : holds' y = some d) : key d ≠ key (data r) := by
      rw [hother y hy] at hd
      have := h.lt y d hd
      omega
    intro y z d d' hy hz hk
    by_cases ey : y = owner r <;> by_cases ez : z = owner r
    · rw [ey, ez]
    · rw [ey, hr] at hy
      cases hy
      exact absurd hk.symm (hne ez hz)
    · rw [ez, hr] at hz
      cases hz
      exact absurd hk (hne ey hy)
    · rw [hother y ey] at hy
      rw [hother z ez] at hz
      exact h.inj y z d d' hy hz hk

theorem drop (h : HeldRecords owner data key holds next l) (hx : holds' x = none)
    (hother : ∀ y, y ≠ x → holds' y = holds y) (hl : ∀ r ∈ l, owner r ≠ x) :
    HeldRecords owner data key holds' next l := by
  have hholds {y d} (hy : holds' y = some d) : holds y = some d := by
    by_cases e : y = x
    · rw [e, hx] at hy
      cases hy
    · rwa [hother y e] at hy
  refine ⟨h.nodup, fun r hr => ?_, fun y d hy => h.lt y d (hholds hy),
    fun y z d d' hy hz => h.inj y z d d' (hholds hy) (hholds hz)⟩
  rw [hother _ (hl r hr)]
  exact h.of_mem r hr

theorem erase_not_mem (h : HeldRecords owner data key holds next l) (hx : holds x = some d) :
    ∀ r ∈ l.eraseP fun r => decide (key (data r) = key d), owner r ≠ x := by
  have hiff : ∀ r ∈ l, key (data r) = key d ↔ owner r = x := fun r hr => by
    have hr' := h.of_mem r hr
    constructor
    · exact h.inj _ _ _ _ hr' hx
    · intro e
      rw [e, hx] at hr'
      cases hr'
      rfl
  have hn := h.nodup
  clear h
  induction l with
  | nil => exact fun _ hr => absurd hr List.not_mem_nil
  | cons r l ih =>
    obtain ⟨hr, hl⟩ := List.nodup_cons.mp hn
    have hiff' : ∀ r ∈ l, key (data r) = key d ↔ owner r = x := fun r' h' =>
      hiff r' (List.mem_cons_of_mem _ h')
    rw [List.eraseP_cons]
    by_cases hk : key (data r) = key d
    · rw [decide_eq_true hk]
      intro r' hr' e
      refine hr (List.mem_map.mpr ⟨r', hr', e.trans ?_⟩)
      exact ((hiff r (List.mem_cons_self ..)).mp hk).symm
    · rw [decide_eq_false hk]
      intro r' hr' e
      rcases List.mem_cons.mp hr' with rfl | hr'
      · exact hk ((hiff _ (List.mem_cons_self ..)).mpr e)
      · exact ih hiff' hl r' hr' e

end HeldRecords
