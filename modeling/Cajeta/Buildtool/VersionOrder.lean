import Mathlib.Data.List.GetD
import Mathlib.Data.Nat.Find
import Mathlib.Data.String.Basic
import Mathlib.Order.Compare
import Cajeta.Buildtool.Version

/-!
# The order of versions

Comparing versions is antisymmetric, and versions that compare equal are interchangeable. It is not
transitive everywhere: a component that is no number is placed among numbers by their spelling, and
numbers are placed among each other by their value.
-/

namespace Cajeta.Buildtool

theorem comparePart_swap (x y : String) : comparePart y x = (comparePart x y).swap := by
  unfold comparePart
  rw [Bool.and_comm]
  split <;> exact Std.OrientedOrd.eq_swap

theorem comparePart_self (x : String) : comparePart x x = .eq := by
  unfold comparePart
  split
  · exact compare_eq_iff_eq.mpr rfl
  · exact compare_eq_iff_eq.mpr rfl

theorem comparePart_digits (hx : isAllDigits x = true) (hy : isAllDigits y = true) :
    comparePart x y = compare (stoull x) (stoull y) := by
  rw [comparePart, hx, hy, Bool.and_self, if_pos rfl]

theorem comparePart_left (hx : isAllDigits x = false) : comparePart x y = compare x y := by
  rw [comparePart, hx, Bool.false_and, if_neg Bool.false_ne_true]

theorem comparePart_right (hy : isAllDigits y = false) : comparePart x y = compare x y := by
  rw [comparePart, hy, Bool.and_false, if_neg Bool.false_ne_true]

theorem comparePart_eq : comparePart x y = .eq ↔
    x = y ∨ isAllDigits x = true ∧ isAllDigits y = true ∧ stoull x = stoull y := by
  cases hx : isAllDigits x <;> cases hy : isAllDigits y
  · simp [comparePart_left hx]
  · simp [comparePart_left hx]
  · simp [comparePart_right hy]
  · rw [comparePart_digits hx hy, compare_eq_iff_eq]
    refine ⟨fun h => .inr ⟨rfl, rfl, h⟩, ?_⟩
    rintro (rfl | ⟨-, -, h⟩)
    · rfl
    · exact h

theorem comparePart_eq_trans (h : comparePart x y = .eq) (h' : comparePart y z = .eq) :
    comparePart x z = .eq := by
  rw [comparePart_eq] at h h' ⊢
  rcases h with rfl | ⟨hx, hy, hxy⟩
  · exact h'
  · rcases h' with rfl | ⟨-, hz, hyz⟩
    · exact .inr ⟨hx, hy, hxy⟩
    · exact .inr ⟨hx, hz, hxy.trans hyz⟩

/-! ## Component by component -/

/-- The component at a position, beyond the end of the version too. -/
def part (v : String) (i : Nat) : String := (splitDots (semverCore v)).getD i "0"

def cmpAt (a b : String) (i : Nat) : Ordering := comparePart (part a i) (part b i)

theorem foldr_then_eq (f : Nat → Ordering) (n : Nat) :
    (List.range n).foldr (fun i rest => (f i).then rest) .eq = .eq ↔ ∀ i < n, f i = .eq := by
  induction n generalizing f with
  | zero => simp
  | succ n ih =>
    rw [List.range_succ_eq_map, List.foldr_cons, List.foldr_map, Ordering.then_eq_eq, ih]
    constructor
    · rintro ⟨h0, h⟩ (_ | i) hi
      · exact h0
      · exact h i (by omega)
    · intro h
      exact ⟨h 0 (by omega), fun i hi => h (i + 1) (by omega)⟩

theorem foldr_then_ne (f : Nat → Ordering) (n : Nat) {o : Ordering} (ho : o ≠ .eq) :
    (List.range n).foldr (fun i rest => (f i).then rest) .eq = o ↔
      ∃ i < n, (∀ j < i, f j = .eq) ∧ f i = o := by
  induction n generalizing f with
  | zero => simpa using fun h => ho h.symm
  | succ n ih =>
    rw [List.range_succ_eq_map, List.foldr_cons, List.foldr_map]
    by_cases h0 : f 0 = .eq
    · rw [h0, Ordering.eq_then, ih]
      constructor
      · rintro ⟨i, hi, hbefore, hat⟩
        refine ⟨i + 1, by omega, fun j hj => ?_, hat⟩
        cases j with
        | zero => exact h0
        | succ j => exact hbefore j (by omega)
      · rintro ⟨_ | i, hi, hbefore, hat⟩
        · exact absurd (hat.symm.trans h0) ho
        · exact ⟨i, by omega, fun j hj => hbefore (j + 1) (by omega), hat⟩
    · have hthen : ∀ rest, (f 0).then rest = f 0 := fun rest => by
        cases hf : f 0 with
        | eq => exact absurd hf h0
        | lt | gt => rfl
      rw [hthen]
      constructor
      · exact fun h => ⟨0, by omega, fun j hj => by omega, h⟩
      · rintro ⟨_ | i, hi, hbefore, hat⟩
        · exact hat
        · exact absurd (hbefore 0 (by omega)) h0

theorem cmpAt_beyond (hi : max (splitDots (semverCore a)).length
    (splitDots (semverCore b)).length ≤ i) : cmpAt a b i = .eq := by
  rw [cmpAt, part, part, List.getD_eq_default _ _ (by omega), List.getD_eq_default _ _ (by omega)]
  exact comparePart_self "0"

theorem compareVersions_eq : compareVersions a b = .eq ↔ ∀ i, cmpAt a b i = .eq := by
  refine (foldr_then_eq (cmpAt a b) _).trans ⟨fun h i => ?_, fun h i _ => h i⟩
  by_cases hi : i < max (splitDots (semverCore a)).length (splitDots (semverCore b)).length
  · exact h i hi
  · exact cmpAt_beyond (by omega)

theorem compareVersions_ne {o : Ordering} (ho : o ≠ .eq) : compareVersions a b = o ↔
    ∃ i, (∀ j < i, cmpAt a b j = .eq) ∧ cmpAt a b i = o := by
  refine (foldr_then_ne (cmpAt a b) _ ho).trans ⟨?_, ?_⟩
  · rintro ⟨i, -, h⟩
    exact ⟨i, h⟩
  · rintro ⟨i, hbefore, hat⟩
    refine ⟨i, ?_, hbefore, hat⟩
    by_contra hi
    exact ho (hat.symm.trans (cmpAt_beyond (by omega)))

theorem compareVersions_swap (a b : String) :
    compareVersions b a = (compareVersions a b).swap := by
  have hflip : ∀ i, cmpAt b a i = (cmpAt a b i).swap := fun i => comparePart_swap _ _
  cases h : compareVersions a b with
  | eq =>
    rw [Ordering.swap_eq, compareVersions_eq]
    exact fun i => by rw [hflip, compareVersions_eq.mp h i, Ordering.swap_eq]
  | lt =>
    obtain ⟨i, hbefore, hat⟩ := (compareVersions_ne (by decide)).mp h
    refine (compareVersions_ne (by decide)).mpr ⟨i, fun j hj => ?_, by rw [hflip, hat]⟩
    rw [hflip, hbefore j hj, Ordering.swap_eq]
  | gt =>
    obtain ⟨i, hbefore, hat⟩ := (compareVersions_ne (by decide)).mp h
    refine (compareVersions_ne (by decide)).mpr ⟨i, fun j hj => ?_, by rw [hflip, hat]⟩
    rw [hflip, hbefore j hj, Ordering.swap_eq]

theorem compareVersions_eq_trans (h : compareVersions a b = .eq) (h' : compareVersions b c = .eq) :
    compareVersions a c = .eq := by
  rw [compareVersions_eq] at h h' ⊢
  exact fun i => comparePart_eq_trans (h i) (h' i)

/-- One step of the loop; `none` is the exception of `std::stoull`. -/
def comparePart? (av bv : String) : Option Ordering :=
  if isAllDigits av && isAllDigits bv then
    if stoull av < 18446744073709551616 ∧ stoull bv < 18446744073709551616 then
      some (compare (stoull av) (stoull bv))
    else none
  else some (compare av bv)

/-- `compareVersions` with its exceptions. -/
def compareVersions? (a b : String) : Option Ordering :=
  let aParts := splitDots (semverCore a)
  let bParts := splitDots (semverCore b)
  (List.range (max aParts.length bParts.length)).foldr
    (fun i rest => match comparePart? (aParts.getD i "0") (bParts.getD i "0") with
      | none => none
      | some .eq => rest
      | some o => some o) (some .eq)

/-- Every number among the components fits 64 bits. -/
def Fits (v : String) : Prop :=
  ∀ i, isAllDigits (part v i) = true → stoull (part v i) < 18446744073709551616

theorem comparePart?_eq (hx : isAllDigits x = true → stoull x < 18446744073709551616)
    (hy : isAllDigits y = true → stoull y < 18446744073709551616) :
    comparePart? x y = some (comparePart x y) := by
  unfold comparePart? comparePart
  split
  · next h =>
    obtain ⟨h, h'⟩ := Bool.and_eq_true_iff.mp h
    rw [if_pos ⟨hx h, hy h'⟩]
  · rfl

theorem compareVersions?_of_fits (ha : Fits a) (hb : Fits b) :
    compareVersions? a b = some (compareVersions a b) := by
  unfold compareVersions? compareVersions
  simp only
  generalize List.range _ = l
  induction l with
  | nil => rfl
  | cons i l ih =>
    have hpart : comparePart? ((splitDots (semverCore a)).getD i "0")
        ((splitDots (semverCore b)).getD i "0") = some (cmpAt a b i) :=
      comparePart?_eq (ha i) (hb i)
    rw [List.foldr_cons, List.foldr_cons, ih, hpart]
    change _ = some ((cmpAt a b i).then _)
    cases cmpAt a b i <;> rfl

theorem fits_of_compareVersions? (h : compareVersions? a a = some o) : Fits a := by
  intro i hdigits
  by_cases hi : i < (splitDots (semverCore a)).length
  · unfold compareVersions? at h
    simp only [Nat.max_self] at h
    have hmem : i ∈ List.range (splitDots (semverCore a)).length := List.mem_range.mpr hi
    generalize List.range _ = l at h hmem
    induction l generalizing o with
    | nil => cases hmem
    | cons j l ih =>
      rw [List.foldr_cons] at h
      by_contra hbig
      have hpart : ∀ k, comparePart? (part a k) (part a k) = none ∨
          comparePart? (part a k) (part a k) = some .eq := by
        intro k
        unfold comparePart?
        split
        · split
          · exact .inr (congrArg some (compare_eq_iff_eq.mpr rfl))
          · exact .inl rfl
        · exact .inr (congrArg some (compare_eq_iff_eq.mpr rfl))
      rcases hpart j with hj | hj
      · rw [part] at hj
        rw [hj] at h
        cases h
      · rcases List.mem_cons.mp hmem with rfl | hmem
        · rw [comparePart?, hdigits, Bool.and_self, if_pos rfl, if_neg fun h => hbig h.1] at hj
          cases hj
        · rw [part] at hj
          rw [hj] at h
          exact hbig (ih h hmem)
  · rw [part, List.getD_eq_default _ _ (by omega)]
    decide

/-! ## The order -/

/-- What a sort by the comparison needs of it on a set of versions. -/
structure StrictWeakOrder (S : Set String) : Prop where
  total : ∀ a ∈ S, ∀ b ∈ S, (compareVersions? a b).isSome
  swap : ∀ a ∈ S, ∀ b ∈ S, compareVersions? b a = (compareVersions? a b).map Ordering.swap
  trans : ∀ a ∈ S, ∀ b ∈ S, ∀ c ∈ S, compareVersions? a b = some .lt →
    compareVersions? b c = some .lt → compareVersions? a c = some .lt
  incomparable : ∀ a ∈ S, ∀ b ∈ S, ∀ c ∈ S, compareVersions? a b = some .eq →
    compareVersions? b c = some .eq → compareVersions? a c = some .eq

/-- Three versions that no order can hold: at the first position where they are not all equal, `a`
and `b` have numbers and `c` has none, `c` is spelled between them, `b` first, but the number of `a`
is smaller, or equal and the first later difference of `a` and `b` does not put `b` first. -/
def Clash (a b c : String) : Prop :=
  ∃ p, (∀ i < p, cmpAt a b i = .eq ∧ cmpAt b c i = .eq) ∧
    isAllDigits (part a p) = true ∧ isAllDigits (part b p) = true ∧
    isAllDigits (part c p) = false ∧ part b p < part c p ∧ part c p < part a p ∧
    (stoull (part a p) < stoull (part b p) ∨
      stoull (part a p) = stoull (part b p) ∧
        ¬ ∃ q, p < q ∧ (∀ i, p < i → i < q → cmpAt a b i = .eq) ∧ cmpAt a b q = .gt)

theorem cmpAt_swap (a b : String) (i : Nat) : cmpAt b a i = (cmpAt a b i).swap :=
  comparePart_swap _ _

theorem cmpAt_trans (h : cmpAt a b i = .eq) (h' : cmpAt b c i = .eq) : cmpAt a c i = .eq :=
  comparePart_eq_trans h h'

theorem cmpAt_spelled (hc : isAllDigits (part c p) = false) :
    (cmpAt b c p = .lt ↔ part b p < part c p) ∧ (cmpAt c a p = .lt ↔ part c p < part a p) := by
  rw [cmpAt, comparePart_right hc, cmpAt, comparePart_left hc]
  exact ⟨compare_lt_iff_lt, compare_lt_iff_lt⟩

theorem Clash.circle (h : Clash a b c) :
    compareVersions a b ≠ .gt ∧ compareVersions b c = .lt ∧ compareVersions c a = .lt := by
  obtain ⟨p, hbefore, ha, hb, hc, hbc, hca, hab⟩ := h
  have hcab : ∀ i < p, cmpAt c a i = .eq := fun i hi => by
    obtain ⟨h₁, h₂⟩ := hbefore i hi
    rw [cmpAt_swap, cmpAt_trans h₁ h₂, Ordering.swap_eq]
  refine ⟨fun hgt => ?_, ?_, ?_⟩
  · obtain ⟨q, hq, hat⟩ := (compareVersions_ne (by decide)).mp hgt
    have hp : cmpAt a b p = compare (stoull (part a p)) (stoull (part b p)) :=
      comparePart_digits ha hb
    rcases Nat.lt_trichotomy q p with hqp | rfl | hpq
    · rw [(hbefore q hqp).1] at hat
      cases hat
    · rw [hp, compare_gt_iff_gt] at hat
      rcases hab with hlt | ⟨heq, -⟩ <;> omega
    · have heq := hq p hpq
      rw [hp, compare_eq_iff_eq] at heq
      rcases hab with hlt | ⟨-, hno⟩
      · omega
      · exact hno ⟨q, hpq, fun i _ hi => hq i hi, hat⟩
  · exact (compareVersions_ne (by decide)).mpr
      ⟨p, fun i hi => (hbefore i hi).2, (cmpAt_spelled (b := b) (a := a) hc).1.mpr hbc⟩
  · exact (compareVersions_ne (by decide)).mpr
      ⟨p, hcab, (cmpAt_spelled (b := b) (a := a) hc).2.mpr hca⟩

/-- A component that is no number, spelled between two numbers against their order. -/
def Between (u v w : String) : Prop :=
  isAllDigits u = true ∧ isAllDigits v = true ∧ isAllDigits w = false ∧ v < w ∧ w < u ∧
    stoull u ≤ stoull v

theorem ne_of_digits (hx : isAllDigits x = true) (hy : isAllDigits y = false) : x ≠ y := by
  rintro rfl
  rw [hx] at hy
  cases hy

theorem between_of_le (hu : isAllDigits u = true) (hv : isAllDigits v = true)
    (hw : isAllDigits w = false) (huv : comparePart u v ≠ .gt) (hvw : comparePart v w ≠ .gt)
    (hwu : comparePart w u ≠ .gt) : Between u v w := by
  rw [comparePart_digits hu hv, compare_le_iff_le] at huv
  rw [comparePart_right hw, compare_le_iff_le] at hvw
  rw [comparePart_left hw, compare_le_iff_le] at hwu
  exact ⟨hu, hv, hw, lt_of_le_of_ne hvw (ne_of_digits hv hw),
    lt_of_le_of_ne hwu (ne_of_digits hu hw).symm, huv⟩

theorem between_of_circle (hxy : comparePart x y ≠ .gt) (hyz : comparePart y z ≠ .gt)
    (hzx : comparePart z x ≠ .gt) (hne : ¬ (comparePart x y = .eq ∧ comparePart y z = .eq)) :
    Between x y z ∨ Between y z x ∨ Between z x y := by
  have hspelled : comparePart x y = compare x y → comparePart y z = compare y z →
      comparePart z x = compare z x → False := by
    intro h₁ h₂ h₃
    rw [h₁, compare_le_iff_le] at hxy
    rw [h₂, compare_le_iff_le] at hyz
    rw [h₃, compare_le_iff_le] at hzx
    have hxy' : x = y := le_antisymm hxy (hyz.trans hzx)
    have hyz' : y = z := le_antisymm hyz (hzx.trans hxy)
    exact hne ⟨comparePart_eq.mpr (.inl hxy'), comparePart_eq.mpr (.inl hyz')⟩
  cases hx : isAllDigits x <;> cases hy : isAllDigits y <;> cases hz : isAllDigits z
  case true.true.true =>
    rw [comparePart_digits hx hy, compare_le_iff_le] at hxy
    rw [comparePart_digits hy hz, compare_le_iff_le] at hyz
    rw [comparePart_digits hz hx, compare_le_iff_le] at hzx
    refine absurd ⟨comparePart_eq.mpr (.inr ⟨hx, hy, ?_⟩), comparePart_eq.mpr (.inr ⟨hy, hz, ?_⟩)⟩
      hne
    · omega
    · omega
  case true.true.false => exact .inl (between_of_le hx hy hz hxy hyz hzx)
  case false.true.true => exact .inr (.inl (between_of_le hy hz hx hyz hzx hxy))
  case true.false.true => exact .inr (.inr (between_of_le hz hx hy hzx hxy hyz))
  case false.false.false | false.false.true =>
    exact (hspelled (comparePart_left hx) (comparePart_left hy) (comparePart_right hx)).elim
  case false.true.false =>
    exact (hspelled (comparePart_left hx) (comparePart_right hz) (comparePart_left hz)).elim
  case true.false.false =>
    exact (hspelled (comparePart_right hy) (comparePart_left hy) (comparePart_left hz)).elim

theorem cmpAt_ne_gt (h : compareVersions a b ≠ .gt) (hbefore : ∀ i < p, cmpAt a b i = .eq) :
    cmpAt a b p ≠ .gt := fun hat => h ((compareVersions_ne (by decide)).mpr ⟨p, hbefore, hat⟩)

theorem clash_of_between (h : compareVersions a b ≠ .gt)
    (hbefore : ∀ i < p, cmpAt a b i = .eq ∧ cmpAt b c i = .eq)
    (hp : Between (part a p) (part b p) (part c p)) : Clash a b c := by
  obtain ⟨ha, hb, hc, hbc, hca, hle⟩ := hp
  refine ⟨p, hbefore, ha, hb, hc, hbc, hca, (Nat.lt_or_eq_of_le hle).imp_right fun heq => ⟨heq, ?_⟩⟩
  rintro ⟨q, hpq, hbetween, hat⟩
  refine h ((compareVersions_ne (by decide)).mpr ⟨q, fun i hi => ?_, hat⟩)
  rcases Nat.lt_trichotomy i p with hip | rfl | hpi
  · exact (hbefore i hip).1
  · exact comparePart_eq.mpr (.inr ⟨ha, hb, heq⟩)
  · exact hbetween i hpi hi

theorem clash_of_circle (hab : compareVersions a b = .lt) (hbc : compareVersions b c ≠ .gt)
    (hca : compareVersions c a ≠ .gt) : Clash a b c ∨ Clash b c a ∨ Clash c a b := by
  have hex : ∃ i, ¬ (cmpAt a b i = .eq ∧ cmpAt b c i = .eq) := by
    obtain ⟨i, -, hat⟩ := (compareVersions_ne (by decide)).mp hab
    exact ⟨i, fun h => by rw [h.1] at hat; cases hat⟩
  have hp := Nat.find_spec hex
  have hbefore : ∀ i < Nat.find hex, cmpAt a b i = .eq ∧ cmpAt b c i = .eq :=
    fun i hi => not_not.mp (Nat.find_min hex hi)
  have hbefore₂ : ∀ i < Nat.find hex, cmpAt b c i = .eq ∧ cmpAt c a i = .eq := fun i hi => by
    obtain ⟨h₁, h₂⟩ := hbefore i hi
    exact ⟨h₂, by rw [cmpAt_swap, cmpAt_trans h₁ h₂, Ordering.swap_eq]⟩
  have hbefore₃ : ∀ i < Nat.find hex, cmpAt c a i = .eq ∧ cmpAt a b i = .eq :=
    fun i hi => ⟨(hbefore₂ i hi).2, (hbefore i hi).1⟩
  have hab' : compareVersions a b ≠ .gt := by rw [hab]; decide
  rcases between_of_circle (cmpAt_ne_gt hab' fun i hi => (hbefore i hi).1)
    (cmpAt_ne_gt hbc fun i hi => (hbefore₂ i hi).1)
    (cmpAt_ne_gt hca fun i hi => (hbefore₃ i hi).1) hp with h | h | h
  · exact .inl (clash_of_between hab' hbefore h)
  · exact .inr (.inl (clash_of_between hbc hbefore₂ h))
  · exact .inr (.inr (clash_of_between hca hbefore₃ h))

/-- **The comparison of versions** is a strict weak order on a set of versions exactly when their
numbers fit 64 bits and no three of them clash. -/
theorem strictWeakOrder_iff (S : Set String) :
    StrictWeakOrder S ↔
      (∀ v ∈ S, Fits v) ∧ ∀ a ∈ S, ∀ b ∈ S, ∀ c ∈ S, ¬ Clash a b c := by
  constructor
  · intro h
    have hfits : ∀ v ∈ S, Fits v := fun v hv => by
      obtain ⟨o, ho⟩ := Option.isSome_iff_exists.mp (h.total v hv v hv)
      exact fits_of_compareVersions? ho
    refine ⟨hfits, fun a ha b hb c hc hclash => ?_⟩
    obtain ⟨hab, hbc, hca⟩ := hclash.circle
    have hba := h.trans b hb c hc a ha
      (by rw [compareVersions?_of_fits (hfits b hb) (hfits c hc), hbc])
      (by rw [compareVersions?_of_fits (hfits c hc) (hfits a ha), hca])
    rw [compareVersions?_of_fits (hfits b hb) (hfits a ha), compareVersions_swap,
      Option.some.injEq, Ordering.swap_eq_lt] at hba
    exact hab hba
  · rintro ⟨hfits, hno⟩
    have hsome : ∀ a ∈ S, ∀ b ∈ S, compareVersions? a b = some (compareVersions a b) :=
      fun a ha b hb => compareVersions?_of_fits (hfits a ha) (hfits b hb)
    refine ⟨fun a ha b hb => by rw [hsome a ha b hb]; rfl, fun a ha b hb => ?_,
      fun a ha b hb c hc hab hbc => ?_, fun a ha b hb c hc hab hbc => ?_⟩
    · rw [hsome a ha b hb, hsome b hb a ha, compareVersions_swap, Option.map_some]
    · rw [hsome a ha b hb, Option.some.injEq] at hab
      rw [hsome b hb c hc, Option.some.injEq] at hbc
      rw [hsome a ha c hc, Option.some.injEq]
      by_contra hac
      have hca : compareVersions c a ≠ .gt := by
        rw [compareVersions_swap a c, ne_eq, Ordering.swap_eq_gt]
        exact hac
      rcases clash_of_circle hab (by rw [hbc]; decide) hca with h | h | h
      · exact hno a ha b hb c hc h
      · exact hno b hb c hc a ha h
      · exact hno c hc a ha b hb h
    · rw [hsome a ha b hb, Option.some.injEq] at hab
      rw [hsome b hb c hc, Option.some.injEq] at hbc
      rw [hsome a ha c hc, compareVersions_eq_trans hab hbc]

/-- `9 < 10 < 1a < 9`. -/
theorem mixed_components_circle : ¬ ∀ S, StrictWeakOrder S := by
  intro h
  have hno := (h Set.univ).trans "9" trivial "10" trivial "1a" trivial (by decide +kernel)
    (by decide +kernel)
  revert hno
  decide +kernel

end Cajeta.Buildtool
