import Mathlib.Data.Nat.Bitwise

/-!
# Walking the set bits of a mask

The loop `while (m != 0) { … ctz(m) …; m = m & (m - 1); }` visits the set bits of `m` from the
lowest up, each once.
-/

namespace BitMask

/-- The index of the lowest set bit, or `width` when there is none below it. -/
def ctz (width m : Nat) : Nat := ((List.range width).find? m.testBit).getD width

theorem ctz_spec {m : Nat} (hi : i < width) (hbit : m.testBit i = true) :
    m.testBit (ctz width m) = true ∧ ctz width m < width ∧
      ∀ j < ctz width m, m.testBit j = false := by
  unfold ctz
  cases hfind : (List.range width).find? m.testBit with
  | none => exact absurd hbit (List.find?_eq_none.mp hfind i (List.mem_range.mpr hi))
  | some k =>
    obtain ⟨hk, hklt, hlow⟩ := List.find?_range_eq_some.mp hfind
    exact ⟨hk, List.mem_range.mp hklt, fun j hj => by simpa using hlow j hj⟩

theorem exists_testBit {m : Nat} (h : m ≠ 0) : ∃ i, m.testBit i = true := by
  by_contra hno
  refine h (Nat.eq_of_testBit_eq fun i => ?_)
  simpa using fun hi => hno ⟨i, hi⟩

theorem testBit_and_pred {m : Nat} (hk : m.testBit k = true)
    (hlow : ∀ j < k, m.testBit j = false) (i : Nat) :
    (m &&& (m - 1)).testBit i = (m.testBit i && decide (i ≠ k)) := by
  induction k generalizing m i with
  | zero =>
    have hodd : m % 2 = 1 := by simpa using hk
    rw [Nat.testBit_and]
    cases i with
    | zero => simp; omega
    | succ i =>
      have : (m - 1) / 2 = m / 2 := by omega
      simp [Nat.testBit_succ, this]
  | succ k ih =>
    have heven : m % 2 = 0 := by
      have := hlow 0 (Nat.succ_pos k)
      simpa using this
    have hhalf := ih (m := m / 2) (by simpa [Nat.testBit_succ] using hk)
      (fun j hj => by simpa [Nat.testBit_succ] using hlow (j + 1) (by omega))
    have hpos : m / 2 ≠ 0 := by
      rintro h0
      rw [Nat.testBit_succ, h0] at hk
      simp at hk
    cases i with
    | zero => simp; omega
    | succ i =>
      have hpred : (m - 1) / 2 = m / 2 - 1 := by omega
      have := hhalf i
      rw [Nat.testBit_and] at this ⊢
      rw [Nat.testBit_succ, Nat.testBit_succ, hpred, this]
      simp

/-- The walk, asking `f` about each set bit until it answers. `fuel` bounds the number of bits. -/
def findSome (f : Nat → Option α) : (fuel width m : Nat) → Option α
  | 0, _, _ => none
  | fuel + 1, width, m =>
    if m = 0 then none
    else
      match f (ctz width m) with
      | some a => some a
      | none => findSome f fuel width (m &&& (m - 1))

/-- The bits of `m` lie in `[width - fuel, width)`: what the walk keeps as it goes. -/
def Within (fuel width m : Nat) : Prop := ∀ i, m.testBit i = true → i < width ∧ width ≤ i + fuel

theorem Within.next {m : Nat} (h : Within (fuel + 1) width m) (hm : m ≠ 0) :
    Within fuel width (m &&& (m - 1)) := by
  obtain ⟨b, hb⟩ := exists_testBit hm
  obtain ⟨hbit, _, hlow⟩ := ctz_spec (h b hb).1 hb
  intro i hi
  rw [testBit_and_pred hbit hlow, Bool.and_eq_true, decide_eq_true_eq] at hi
  obtain ⟨hi, hne⟩ := hi
  have hle : ctz width m ≤ i := by
    by_contra hlt
    rw [hlow i (by omega)] at hi
    cases hi
  have hmin := (h _ hbit).2
  exact ⟨(h i hi).1, by omega⟩

theorem findSome_eq_some {m : Nat} (h : Within fuel width m)
    (hf : findSome f fuel width m = some a) : ∃ i < width, m.testBit i = true ∧ f i = some a := by
  induction fuel generalizing m with
  | zero => cases hf
  | succ fuel ih =>
    simp only [findSome] at hf
    split at hf
    · cases hf
    next hm =>
    obtain ⟨b, hb⟩ := exists_testBit hm
    obtain ⟨hbit, hlt, hlow⟩ := ctz_spec (h b hb).1 hb
    split at hf
    · next a' ha =>
      cases hf
      exact ⟨_, hlt, hbit, ha⟩
    · obtain ⟨i, hi, hibit, hfi⟩ := ih (h.next hm) hf
      rw [testBit_and_pred hbit hlow, Bool.and_eq_true] at hibit
      exact ⟨i, hi, hibit.1, hfi⟩

theorem findSome_eq_none {m : Nat} (h : Within fuel width m)
    (hf : findSome f fuel width m = none) : ∀ i, m.testBit i = true → f i = none := by
  induction fuel generalizing m with
  | zero =>
    intro i hi
    have := h i hi
    omega
  | succ fuel ih =>
    intro i hi
    have hm : m ≠ 0 := by
      rintro rfl
      simp at hi
    simp only [findSome, if_neg hm] at hf
    obtain ⟨hbit, hlt, hlow⟩ := ctz_spec (h i hi).1 hi
    split at hf
    · cases hf
    next hnone =>
    by_cases hk : i = ctz width m
    · exact hk ▸ hnone
    · refine ih (h.next hm) hf i ?_
      rw [testBit_and_pred hbit hlow, hi, decide_eq_true hk]
      rfl

/-- The walk to its end, with the bits it visits. -/
def toList : (fuel width m : Nat) → List Nat
  | 0, _, _ => []
  | fuel + 1, width, m =>
    if m = 0 then [] else ctz width m :: toList fuel width (m &&& (m - 1))

theorem toList_eq {m : Nat} (h : Within fuel width m) :
    toList fuel width m = (List.range width).filter m.testBit := by
  induction fuel generalizing m with
  | zero =>
    symm
    rw [toList, List.filter_eq_nil_iff]
    intro i hi hbit
    have := h i hbit
    rw [List.mem_range] at hi
    omega
  | succ fuel ih =>
    rw [toList]
    split
    · next hm =>
      subst hm
      simp
    · next hm =>
      obtain ⟨b, hb⟩ := exists_testBit hm
      obtain ⟨hbit, hlt, hlow⟩ := ctz_spec (h b hb).1 hb
      rw [ih (h.next hm)]
      have hsplit : List.range width = List.range (ctz width m) ++
          (ctz width m :: (List.range (width - ctz width m - 1)).map (ctz width m + 1 + ·)) := by
        have hrange := List.range_add (n := ctz width m) (m := width - ctz width m)
        rw [Nat.add_sub_cancel' hlt.le] at hrange
        rw [hrange, show width - ctz width m = width - ctz width m - 1 + 1 by omega,
          List.range_succ_eq_map, List.map_cons, List.map_map, Nat.add_zero]
        congr 2
        refine List.map_congr_left fun i _ => ?_
        simp only [Function.comp_apply, Nat.succ_eq_add_one]
        omega
      have hnone : ∀ m' : Nat, (∀ i < ctz width m, m'.testBit i = false) →
          (List.range (ctz width m)).filter m'.testBit = [] := fun m' hm' => by
        rw [List.filter_eq_nil_iff]
        intro i hi
        rw [hm' i (List.mem_range.mp hi)]
        simp
      have hcleared := testBit_and_pred hbit hlow
      rw [hsplit, List.filter_append, List.filter_append, hnone m hlow, hnone _ fun i hi => by
        rw [hcleared, hlow i hi]; rfl, List.filter_cons_of_pos hbit, List.filter_cons_of_neg (by
        rw [hcleared]; simp), List.nil_append, List.nil_append]
      congr 1
      refine List.filter_congr fun i hi => ?_
      obtain ⟨j, -, rfl⟩ := List.mem_map.mp hi
      rw [hcleared, decide_eq_true (by omega : ctz width m + 1 + j ≠ ctz width m), Bool.and_true]

/-- The parity of the `n` bits up to bit `i`. -/
def parityTo (m i : Nat) : (n : Nat) → Bool
  | 0 => false
  | n + 1 => parityTo m i n ^^ (decide (n ≤ i) && m.testBit (i - n))

theorem parityTo_add (m i k l : Nat) :
    parityTo m i (k + l) = (parityTo m i k ^^ (decide (k ≤ i) && parityTo m (i - k) l)) := by
  induction l with
  | zero => simp [parityTo]
  | succ l ih =>
    rw [← Nat.add_assoc, parityTo, ih, parityTo, Bool.xor_assoc]
    congr 1
    by_cases hk : k ≤ i
    · have hle : decide (k + l ≤ i) = decide (l ≤ i - k) := by
        rw [decide_eq_decide]
        omega
      simp [hk, hle, Nat.sub_sub]
    · simp [hk, show ¬ k + l ≤ i by omega]

theorem testBit_xor_shiftLeft {m x k : Nat} (hx : ∀ i, x.testBit i = parityTo m i k) (i : Nat) :
    (x ^^^ (x <<< k)).testBit i = parityTo m i (k + k) := by
  rw [Nat.testBit_xor, Nat.testBit_shiftLeft, hx, hx, parityTo_add]

/-- `pf=pf^(pf<<1); pf=pf^(pf<<2); pf=pf^(pf<<4); pf=pf^(pf<<8);` -/
def prefixXor16 (m : Nat) : Nat :=
  let pf := m ^^^ (m <<< 1)
  let pf := pf ^^^ (pf <<< 2)
  let pf := pf ^^^ (pf <<< 4)
  pf ^^^ (pf <<< 8)

theorem testBit_prefixXor16 (m i : Nat) : (prefixXor16 m).testBit i = parityTo m i 16 :=
  testBit_xor_shiftLeft (k := 8) (testBit_xor_shiftLeft (k := 4) (testBit_xor_shiftLeft (k := 2)
    (testBit_xor_shiftLeft (k := 1) fun i => by simp [parityTo]))) i

/-- The parity of the numbers below `i` that satisfy `p`. -/
def parityBelow (p : Nat → Bool) : (i : Nat) → Bool
  | 0 => false
  | i + 1 => parityBelow p i ^^ p i

theorem parityTo_succ (m i n : Nat) :
    parityTo m (i + 1) (n + 1) = (m.testBit (i + 1) ^^ parityTo m i n) := by
  rw [Nat.add_comm n, parityTo_add]
  simp [parityTo]

theorem parityTo_all (m i : Nat) : parityTo m i (i + 1) = parityBelow m.testBit (i + 1) := by
  induction i with
  | zero => simp [parityTo, parityBelow]
  | succ i ih =>
    rw [parityTo_succ, ih, Bool.xor_comm]
    rfl

theorem parityTo_eq_below {m i n : Nat} (h : i < n) :
    parityTo m i n = parityBelow m.testBit (i + 1) := by
  obtain ⟨l, rfl⟩ := Nat.exists_eq_add_of_le (Nat.succ_le_of_lt h)
  rw [parityTo_add, decide_eq_false (Nat.not_succ_le_self i), Bool.false_and, Bool.xor_false,
    parityTo_all]

theorem parityBelow_congr {p q : Nat → Bool} (h : ∀ j < i, p j = q j) :
    parityBelow p i = parityBelow q i := by
  induction i with
  | zero => rfl
  | succ i ih =>
    rw [parityBelow, parityBelow, h i (Nat.lt_succ_self i), ih fun j hj => h j (by omega)]

/-- The mask whose bit `i < width` says whether `p i`. -/
def ofPred (width : Nat) (p : Nat → Bool) : Nat := Nat.ofBits fun i : Fin width => p i

theorem testBit_ofPred : (ofPred width p).testBit i = (decide (i < width) && p i) := by
  unfold ofPred
  by_cases h : i < width
  · rw [Nat.testBit_ofBits_lt _ _ h]; simp [h]
  · rw [Nat.testBit_ofBits_ge _ _ (by omega)]; simp [h]

theorem ofPred_or : ofPred width p ||| ofPred width q = ofPred width fun i => p i || q i := by
  refine Nat.eq_of_testBit_eq fun i => ?_
  rw [Nat.testBit_or, testBit_ofPred, testBit_ofPred, testBit_ofPred, Bool.and_or_distrib_left]

theorem within_ofPred : Within width width (ofPred width p) := by
  intro i hi
  rw [testBit_ofPred, Bool.and_eq_true, decide_eq_true_eq] at hi
  exact ⟨hi.1, by omega⟩

theorem ofPred_eq_zero : ofPred width p = 0 ↔ ∀ i < width, p i = false := by
  constructor
  · intro h i hi
    have : (ofPred width p).testBit i = (decide (i < width) && p i) := testBit_ofPred
    rw [h, Nat.zero_testBit] at this
    simpa [hi] using this.symm
  · intro h
    refine Nat.eq_of_testBit_eq fun i => ?_
    rw [testBit_ofPred, Nat.zero_testBit]
    by_cases hi : i < width
    · simp [h i hi]
    · simp [hi]

theorem ctz_ofPred (h : ofPred width p ≠ 0) :
    ctz width (ofPred width p) < width ∧ p (ctz width (ofPred width p)) = true := by
  obtain ⟨i, hi⟩ := exists_testBit h
  obtain ⟨hbit, hlt, _⟩ := ctz_spec (within_ofPred i hi).1 hi
  rw [testBit_ofPred, Bool.and_eq_true] at hbit
  exact ⟨hlt, hbit.2⟩

end BitMask
