import Cajeta.Collection.MergeBlocks

/-!
# What the merge sort guarantees

Up to 2^30 elements the merge sort is the stable sort. Beyond that the last pass computes the end of
the first pair of runs as 2^31, which is negative in 32 bits, and the index follows it.
-/

namespace Cajeta.Collection.Sort
open Cells Except While StableOrder

variable {T : Type} {cmp : T → T → Int}

/-! ## One pass -/

/-- The first `m` pairs of runs are merged. -/
structure Passing (cmp : T → T → Int) (w : Nat) (s tail : List T) (dst : List T) (i : Int)
    (m : Nat) (out old : List T) : Prop where
  array : dst = out ++ old ++ tail
  room : out.length + old.length = s.length
  place : i = (m * (2 * w) : Nat)
  reached : out.length = min (m * (2 * w)) s.length
  stable : Stable cmp (s.take out.length) out
  runs : Runs cmp (2 * w) out

theorem passRound_spec (fuel : Nat) (hcmp : TotalPreorder cmp) {s : List T} (srcTail tail : List T)
    (hruns : Runs cmp w s) (hmax : (s.length : Int) ≤ 2 ^ 30) (hw : (w : Int) ≤ 2 ^ 29)
    (hfuel : s.length < fuel) (h : Passing cmp w s tail dst i m out old) :
    (∃ dst' i' out' old', passRound cmp fuel s.length w (s ++ srcTail) (dst, i) =
        .ok (.again (dst', i')) ∧ Passing cmp w s tail dst' i' (m + 1) out' old' ∧
      i < s.length) ∨
    passRound cmp fuel s.length w (s ++ srcTail) (dst, i) = .ok (.done dst) ∧ old = [] := by
  obtain ⟨rfl, hroom, rfl, hreached, hstable, hout⟩ := h
  have hnext : (m + 1) * (2 * w) = m * (2 * w) + 2 * w := Nat.succ_mul m (2 * w)
  have hleft := hruns (2 * m)
  have hright := hruns (2 * m + 1)
  have hleftAt : 2 * m * w = m * (2 * w) := by rw [Nat.mul_comm 2 m, Nat.mul_assoc]
  rw [Nat.succ_mul] at hright
  rw [hleftAt] at hleft hright
  generalize hat : m * (2 * w) = at_ at *
  rw [passRound]
  by_cases hdone : s.length ≤ at_
  · right
    rw [if_neg (by omega)]
    exact ⟨rfl, List.eq_nil_of_length_eq_zero (by omega)⟩
  · left
    have hlt : at_ < s.length := Nat.lt_of_not_le hdone
    have hlen : out.length = at_ := hreached.trans (Nat.min_eq_left (Nat.le_of_lt hlt))
    rw [if_pos (Int.ofNat_lt.mpr hlt)]
    clear hreached hdone
    generalize hl : (s.drop at_).take w = l at hleft
    generalize hr : (s.drop (at_ + w)).take w = r at hright
    have hbefore : (s.take at_).length = at_ := List.length_take_of_le (Nat.le_of_lt hlt)
    have hparts : s = s.take at_ ++ l ++ r ++ s.drop (at_ + w + w) := by
      rw [List.append_assoc, List.append_assoc, ← List.drop_drop, ← hr, List.take_append_drop,
        ← List.drop_drop, ← hl, List.take_append_drop, List.take_append_drop]
    have hmidLen : (s.take at_ ++ l).length = min (at_ + w) s.length := by
      rw [← hl, ← List.take_add, List.length_take]
    have hendLen : (s.take at_ ++ l ++ r).length = min (at_ + w + w) s.length := by
      rw [← hl, ← List.take_add, ← hr, ← List.take_add, List.length_take]
    have hsum : at_ + (l.length + r.length) = min (at_ + w + w) s.length := by
      rw [← hendLen, List.length_append, List.length_append, hbefore, Nat.add_assoc]
    have hbound : at_ + (l.length + r.length) ≤ s.length := hsum ▸ Nat.min_le_right _ _
    have hreached' : at_ + (l.length + r.length) = min ((m + 1) * (2 * w)) s.length := by
      rw [hsum, hnext, Nat.two_mul, Nat.add_assoc]
    have hlenTake : (old.take (l.length + r.length)).length = l.length + r.length :=
      List.length_take_of_le (by clear hsum hreached'; omega)
    have hold : old = old.take (l.length + r.length) ++ old.drop (l.length + r.length) :=
      (List.take_append_drop _ _).symm
    obtain ⟨merged, hmerge, hmergeStable, hmergeSorted⟩ := mergePair_spec fuel hcmp s.length
      (s.take at_) l r (s.drop (at_ + w + w) ++ srcTail) out (old.take (l.length + r.length))
      (old.drop (l.length + r.length) ++ tail)
      (Int.ofNat_le.mpr (hendLen ▸ Nat.min_le_right _ _)) (by rw [hbefore, hlen]) hlenTake
      (Int.lt_of_le_of_lt hmax (by decide)) hleft hright
      (Nat.lt_of_le_of_lt (Nat.le_trans (Nat.le_add_left _ _) hbound) hfuel)
    have hlenM := hmergeStable.perm.length_eq
    rw [List.length_append] at hlenM
    have hsrc : s.take at_ ++ l ++ r ++ (s.drop (at_ + w + w) ++ srcTail) = s ++ srcTail := by
      rw [← List.append_assoc, ← hparts]
    have hdst : out ++ old.take (l.length + r.length) ++ (old.drop (l.length + r.length) ++ tail) =
        out ++ old ++ tail := by
      rw [List.append_assoc out, ← List.append_assoc (old.take _), ← hold, List.append_assoc]
    rw [hsrc, hbefore, hmidLen, hendLen, hdst] at hmerge
    clear hsum hmidLen hendLen
    dsimp only
    rw [i32_eq (x := at_ + w) (by omega) (by omega),
      i32_eq (x := at_ + w + w) (by omega) (by omega)]
    have hstep : (at_ + w + w : Int) = ((m + 1) * (2 * w) : Nat) := by
      rw [hnext]
      omega
    have hclip : ∀ a : Nat, (if (a : Int) > s.length then (s.length : Int) else a) =
        (min a s.length : Nat) := fun a => by split <;> omega
    rw [← Int.natCast_add, ← Int.natCast_add, hclip, hclip, hmerge, ok_bind, Int.natCast_add,
      Int.natCast_add, hstep]
    refine ⟨_, _, out ++ merged, old.drop (l.length + r.length), rfl, ⟨?_, ?_, rfl, ?_, ?_, ?_⟩,
      Int.ofNat_lt.mpr hlt⟩
    · simp only [List.append_assoc]
    · rw [List.length_append, List.length_drop, hlen, hlenM]
      clear hreached' hstep
      omega
    · rw [List.length_append, hlen, hlenM, hreached']
    · have htake : s.take (out ++ merged).length = s.take at_ ++ (l ++ r) := by
        nth_rewrite 1 [hparts]
        rw [← List.append_assoc, List.take_left']
        rw [List.length_append, List.length_append, List.length_append, hbefore, hlen, hlenM,
          Nat.add_assoc]
      rw [htake]
      rw [hlen] at hstable
      exact hstable.append hmergeStable
    · exact hout.snoc (m := m) (by omega) hmergeSorted (by omega)

theorem pass_loop (fuel : Nat) (hcmp : TotalPreorder cmp) {s : List T} (srcTail old tail : List T)
    (hpos : 0 < w) (hruns : Runs cmp w s) (hmax : (s.length : Int) ≤ 2 ^ 30)
    (hw : (w : Int) ≤ 2 ^ 29) (hroom : old.length = s.length) (hfuel : s.length < fuel) :
    ∃ out, loop .outOfFuel (passRound cmp fuel s.length w (s ++ srcTail)) fuel (old ++ tail, 0) =
        .ok (out ++ tail) ∧ Stable cmp s out ∧ Runs cmp (2 * w) out := by
  have hinit : Passing cmp w s tail (old ++ tail) 0 0 [] old :=
    ⟨rfl, by rw [List.length_nil]; omega, by rw [Nat.zero_mul]; rfl,
      by rw [Nat.zero_mul, Nat.zero_min]; rfl, .refl _, .nil⟩
  have hloop : ∃ dst, loop .outOfFuel (passRound cmp fuel s.length w (s ++ srcTail)) fuel
      (old ++ tail, 0) = .ok dst ∧ ∃ i m out, Passing cmp w s tail dst i m out [] := by
    refine loop_ok_ranked (I := fun rank st => ∃ m out old,
      Passing cmp w s tail st.1 st.2 m out old ∧
      s.length - m * (2 * w) = rank) (fun rank st hst => ?_) ⟨0, [], old, hinit, rfl⟩ (by omega)
    obtain ⟨m, out, old, hst, rfl⟩ := hst
    rcases passRound_spec fuel hcmp srcTail tail hruns hmax hw hfuel hst with
      ⟨dst', i', out', old', hbody, hst', hlt⟩ | ⟨hbody, hdone⟩
    · refine .inl ⟨_, (dst', i'), hbody, ⟨m + 1, out', old', hst', rfl⟩, ?_⟩
      have hplace := hst.place
      rw [Nat.succ_mul]
      omega
    · exact .inr ⟨st.1, hbody, st.2, m, out, hdone ▸ hst⟩
  obtain ⟨dst, hloop, i, m, out, ⟨rfl, hlen, -, -, hstable, hout⟩⟩ := hloop
  rw [List.length_nil, Nat.add_zero] at hlen
  rw [List.append_nil] at hloop
  rw [hlen, List.take_length] at hstable
  exact ⟨out, hloop, hstable, hout⟩

structure Doubling (cmp : T → T → Int) (s tail : List T) (st : MergeState T) (k : Nat)
    (cur other : List T) : Prop where
  width : st.width = (32 * 2 ^ k : Nat)
  stable : Stable cmp s cur
  runs : Runs cmp (32 * 2 ^ k) cur
  room : other.length = s.length
  arrays : (st.dataInA = true ∧ st.a = cur ++ tail ∧ st.buf = other) ∨
    (st.dataInA = false ∧ st.a = other ++ tail ∧ st.buf = cur)

theorem width_le {n : Nat} (h : 32 * 2 ^ k < n) (hmax : (n : Int) ≤ 2 ^ 30) :
    0 < 32 * 2 ^ k ∧ ((32 * 2 ^ k : Nat) : Int) ≤ 2 ^ 29 := by
  have hk : k ≤ 24 := by
    by_contra hk
    have hpow : 2 ^ 25 ≤ 2 ^ k := Nat.pow_le_pow_right (by decide) (by omega)
    omega
  have hpow : 2 ^ k ≤ 2 ^ 24 := Nat.pow_le_pow_right (by decide) hk
  have hpos : 0 < 2 ^ k := Nat.pow_pos (by decide)
  omega

theorem widthRound_spec (fuel : Nat) (hcmp : TotalPreorder cmp) {s : List T}
    (hmax : (s.length : Int) ≤ 2 ^ 30) (hfuel : s.length < fuel)
    (h : Doubling cmp s tail st k cur other) :
    (∃ st' cur' other', widthRound cmp fuel s.length st = .ok (.again st') ∧
      Doubling cmp s tail st' (k + 1) cur' other' ∧ 32 * 2 ^ k < s.length) ∨
    widthRound cmp fuel s.length st = .ok (.done st) ∧ Sorted cmp cur := by
  obtain ⟨hwidth, hstable, hruns, hroom, harrays⟩ := h
  have hlen := hstable.perm.length_eq
  rw [widthRound, hwidth]
  by_cases hdone : s.length ≤ 32 * 2 ^ k
  · right
    rw [if_neg (by omega)]
    exact ⟨rfl, hruns.sorted (by omega)⟩
  · left
    obtain ⟨hpos, hle⟩ := width_le (Nat.lt_of_not_le hdone) hmax
    rw [if_pos (by omega), i32_eq (by omega) (by omega)]
    have hpass := fun srcTail dstTail => pass_loop fuel hcmp srcTail other dstTail hpos hruns
      (by omega) hle (by omega) (by omega)
    rw [hlen] at hpass
    have hwidth' : ((32 * 2 ^ k : Nat) : Int) + (32 * 2 ^ k : Nat) = (32 * 2 ^ (k + 1) : Nat) := by
      rw [Nat.pow_succ]
      omega
    have hdouble : 2 * (32 * 2 ^ k) = 32 * 2 ^ (k + 1) := by
      rw [Nat.pow_succ]
      omega
    rcases harrays with ⟨hin, ha, hbuf⟩ | ⟨hin, ha, hbuf⟩
    · obtain ⟨out, hloop, hout, houtRuns⟩ := hpass tail []
      rw [List.append_nil, List.append_nil] at hloop
      rw [hdouble] at houtRuns
      simp only [hin, ha, hbuf, hloop, ok_bind, if_true, hwidth']
      exact ⟨_, out, cur, rfl, ⟨rfl, hstable.trans hout, houtRuns, hlen, .inr ⟨rfl, rfl, rfl⟩⟩,
        by omega⟩
    · obtain ⟨out, hloop, hout, houtRuns⟩ := hpass [] tail
      rw [List.append_nil] at hloop
      rw [hdouble] at houtRuns
      simp only [hin, ha, hbuf, hloop, ok_bind, Bool.false_eq_true, if_false, hwidth']
      exact ⟨_, out, cur, rfl, ⟨rfl, hstable.trans hout, houtRuns, hlen, .inl ⟨rfl, rfl, rfl⟩⟩,
        by omega⟩

theorem width_loop (fuel : Nat) (hcmp : TotalPreorder cmp) (s tail fresh : List T)
    (hruns : Runs cmp 32 s) (hmax : (s.length : Int) ≤ 2 ^ 30) (hfresh : fresh.length = s.length)
    (hfuel : s.length < fuel) :
    ∃ st cur other k, loop .outOfFuel (widthRound cmp fuel s.length) fuel
        { a := s ++ tail, buf := fresh, dataInA := true, width := blk } = .ok st ∧
      Doubling cmp s tail st k cur other ∧ Sorted cmp cur := by
  have hinit : Doubling cmp s tail { a := s ++ tail, buf := fresh, dataInA := true, width := blk } 0
      s fresh := ⟨rfl, .refl s, hruns, hfresh, .inl ⟨rfl, rfl, rfl⟩⟩
  have hloop : ∃ st, loop .outOfFuel (widthRound cmp fuel s.length) fuel
      { a := s ++ tail, buf := fresh, dataInA := true, width := blk } = .ok st ∧
      ∃ k cur other, Doubling cmp s tail st k cur other ∧ Sorted cmp cur := by
    refine loop_ok_ranked (I := fun rank st => ∃ k cur other, Doubling cmp s tail st k cur other ∧
      s.length - 32 * 2 ^ k = rank) (fun rank st hst => ?_) ⟨0, s, fresh, hinit, rfl⟩ (by omega)
    obtain ⟨k, cur, other, hst, rfl⟩ := hst
    rcases widthRound_spec fuel hcmp hmax hfuel hst with
      ⟨st', cur', other', hbody, hst', hlt⟩ | ⟨hbody, hsorted⟩
    · refine .inl ⟨_, st', hbody, ⟨k + 1, cur', other', hst', rfl⟩, ?_⟩
      have hpos : 0 < 2 ^ k := Nat.pow_pos (by decide)
      rw [Nat.pow_succ]
      omega
    · exact .inr ⟨st, hbody, k, cur, other, hst, hsorted⟩
  obtain ⟨st, hloop, k, cur, other, hst, hsorted⟩ := hloop
  exact ⟨st, cur, other, k, hloop, hst, hsorted⟩

/-- `a'` is the stable sort of the first `n` elements of `a`; the others are as they were. -/
structure StablySorted (cmp : T → T → Int) (n : Nat) (a a' : List T) : Prop where
  stable : Stable cmp (a.take n) (a'.take n)
  sorted : Sorted cmp (a'.take n)
  rest : a'.drop n = a.drop n

theorem StablySorted.of_append {s s' tail : List T} (hstable : Stable cmp s s')
    (hsorted : Sorted cmp s') : StablySorted cmp s.length (s ++ tail) (s' ++ tail) := by
  have hlen := hstable.perm.length_eq
  refine ⟨?_, ?_, ?_⟩
  · rw [List.take_left, List.take_left' hlen]
    exact hstable
  · rw [List.take_left' hlen]
    exact hsorted
  · rw [List.drop_left, List.drop_left' hlen]

theorem sortStable_spec (fuel : Nat) (hcmp : TotalPreorder cmp) (s tail fresh : List T)
    (hmax : (s.length : Int) ≤ 2 ^ 30) (hfresh : fresh.length = s.length)
    (hfuel : s.length < fuel) :
    ∃ a', sortStable cmp fuel (s ++ tail) s.length fresh = .ok a' ∧
      StablySorted cmp s.length (s ++ tail) a' := by
  rw [sortStable]
  by_cases hshort : (s.length : Int) < 2
  · refine ⟨s ++ tail, if_pos hshort, .of_append (.refl s) ?_⟩
    refine List.pairwise_iff_getElem.mpr fun i j hi hj hij => ?_
    omega
  · obtain ⟨s₁, hblocks, hstable, hruns⟩ := blocks_spec fuel hcmp s tail hmax hfuel
    have hlen := hstable.perm.length_eq
    rw [if_neg hshort, hblocks, ok_bind]
    by_cases hone : blk ≥ (s.length : Int)
    · rw [if_pos hone]
      have hblk : blk = 32 := rfl
      exact ⟨s₁ ++ tail, rfl, .of_append hstable (hruns.sorted (by omega))⟩
    · rw [if_neg hone]
      obtain ⟨st, cur, other, k, hloop, ⟨-, hcur, -, hroom, harrays⟩, hsorted⟩ :=
        width_loop fuel hcmp s₁ tail fresh hruns (by omega) (by omega) (by omega)
      rw [hlen] at hloop
      rw [hloop, ok_bind]
      have hall := hstable.trans hcur
      have hlenCur := hall.perm.length_eq
      rcases harrays with ⟨hin, ha, hbuf⟩ | ⟨hin, ha, hbuf⟩
      · rw [if_pos hin, ha]
        exact ⟨cur ++ tail, rfl, .of_append hall hsorted⟩
      · have hcopy := copy_loop fuel s.length [] cur [] [] other tail (by omega)
          (by rw [List.nil_append]; omega) (by rw [List.nil_append]; omega) (by omega) (by omega)
        simp only [List.nil_append, List.append_nil, List.length_nil, Int.natCast_zero, hlenCur]
          at hcopy
        rw [if_neg (by rw [hin]; exact Bool.false_ne_true), ha, hbuf, hcopy, ok_bind]
        exact ⟨cur ++ tail, rfl, .of_append hall hsorted⟩

theorem pass_beyond (cmp : T → T → Int) (fuel : Nat) (hn : 2 ^ 30 < n) (src dst : List T) :
    ∃ e, loop .outOfFuel (passRound cmp fuel n (2 ^ 30) src) fuel (dst, 0) = .error e := by
  refine loop_error (I := fun st => st.2 = 0 ∨ st.2 = -2 ^ 31) (fun st hst => ?_) fuel (.inl rfl)
  obtain ⟨dst, i⟩ := st
  rcases hst with rfl | rfl
  · have hnext : i32 (i32 (0 + 2 ^ 30) + 2 ^ 30) = -2 ^ 31 := by decide
    rw [passRound, if_pos (by omega)]
    dsimp only
    rw [hnext]
    generalize mergePair cmp fuel n src 0 _ _ dst = merged
    cases merged with
    | error e => exact .inr ⟨e, rfl⟩
    | ok dst => exact .inl ⟨(dst, -2 ^ 31), rfl, .inr rfl⟩
  · right
    have hmid : i32 (-2 ^ 31 + 2 ^ 30) = -2 ^ 30 := by decide
    have hright : i32 (-2 ^ 30 + 2 ^ 30) = 0 := by decide
    rw [passRound, if_pos (by omega)]
    dsimp only
    rw [hmid, hright, if_neg (by omega), if_neg (by omega), mergePair]
    cases fuel with
    | zero => exact ⟨_, rfl⟩
    | succ fuel =>
      have hread : read 0 (n - 1) src (-2 ^ 31) = .error .outside := if_neg (by omega)
      rw [loop, mergeRound, if_pos (by decide), hread]
      exact ⟨_, rfl⟩

theorem width_beyond (cmp : T → T → Int) (fuel : Nat) (hn : 2 ^ 30 < n) (a buf : List T) :
    ∃ e, loop .outOfFuel (widthRound cmp fuel n) fuel
      { a, buf, dataInA := true, width := blk } = .error e := by
  refine loop_error (I := fun st => ∃ k ≤ 25, st.width = ((32 * 2 ^ k : Nat) : Int))
    (fun st hst => ?_) fuel
    ⟨0, by decide, rfl⟩
  obtain ⟨k, hk, hwidth⟩ := hst
  have hpow : 2 ^ k ≤ 2 ^ 25 := Nat.pow_le_pow_right (by decide) hk
  rw [widthRound, hwidth, if_pos (by omega)]
  dsimp only
  rcases Nat.lt_or_eq_of_le hk with hlt | rfl
  · have hpow : 2 ^ k ≤ 2 ^ 24 := Nat.pow_le_pow_right (by decide) (Nat.le_of_lt_succ hlt)
    have hwidth' : i32 ((32 * 2 ^ k : Nat) + (32 * 2 ^ k : Nat)) = (32 * 2 ^ (k + 1) : Nat) := by
      rw [i32_eq (by omega) (by omega), Nat.pow_succ]
      omega
    generalize loop SortFault.outOfFuel (passRound cmp fuel n _ _) fuel _ = passed
    cases passed with
    | error e => exact .inr ⟨e, rfl⟩
    | ok dst =>
      refine .inl ⟨_, rfl, k + 1, hlt, ?_⟩
      dsimp only
      exact hwidth'
  · right
    obtain ⟨e, herror⟩ := pass_beyond cmp fuel hn (if st.dataInA then st.a else st.buf)
      (if st.dataInA then st.buf else st.a)
    have hcast : ((32 * 2 ^ 25 : Nat) : Int) = 2 ^ 30 := by omega
    rw [hcast, herror]
    exact ⟨e, rfl⟩

theorem sortStable_beyond (cmp : T → T → Int) (fuel : Nat) (hn : 2 ^ 30 < n) (a fresh : List T) :
    ∃ e, sortStable cmp fuel a n fresh = .error e := by
  have hblk : blk = 32 := rfl
  rw [sortStable, if_neg (by omega)]
  generalize loop SortFault.outOfFuel (blockRound cmp fuel n) fuel (a, 0) = blocks
  cases blocks with
  | error e => exact ⟨e, rfl⟩
  | ok a =>
    obtain ⟨e, herror⟩ := width_beyond cmp fuel hn a fresh
    rw [ok_bind, if_neg (by omega), herror]
    exact ⟨e, rfl⟩

/-- The merge sort ends, with every index in range and with the stable sort, up to 2^30 elements and
not beyond. -/
theorem sortStable_iff (hcmp : TotalPreorder cmp) (n : Nat) (a fresh : List T)
    (ha : n ≤ a.length) (hfresh : fresh.length = n) :
    (∃ enough, ∀ fuel, enough ≤ fuel → ∃ a', sortStable cmp fuel a n fresh = .ok a' ∧
      StablySorted cmp n a a') ↔ n ≤ 2 ^ 30 := by
  constructor
  · intro hsorts
    by_contra hn
    obtain ⟨enough, hsorts⟩ := hsorts
    obtain ⟨a', hok, -⟩ := hsorts enough (Nat.le_refl _)
    obtain ⟨e, herror⟩ := sortStable_beyond cmp enough (n := n)
      (by exact_mod_cast Nat.lt_of_not_le hn)
      a fresh
    rw [herror] at hok
    cases hok
  · intro hn
    refine ⟨n + 1, fun fuel hfuel => ?_⟩
    have hlen : (a.take n).length = n := by rw [List.length_take, Nat.min_eq_left ha]
    obtain ⟨a', hok, hsorted⟩ := sortStable_spec fuel hcmp (a.take n) (a.drop n) fresh
      (by rw [hlen]; exact_mod_cast hn) (by rw [hfresh, hlen]) (by rw [hlen]; exact hfuel)
    rw [List.take_append_drop, hlen] at hok hsorted
    exact ⟨a', hok, hsorted⟩

theorem sortStable_three : (∃ enough, ∀ fuel, enough ≤ fuel → ∃ a',
    sortStable natural fuel [2, 3, 1, 0] (3 : Nat) [0, 0, 0] = .ok a' ∧
      StablySorted natural 3 [2, 3, 1, 0] a') ↔ 3 ≤ 2 ^ 30 :=
  sortStable_iff natural_totalPreorder 3 [2, 3, 1, 0] [0, 0, 0] (by decide) rfl

/-- One element too many: no run on 2^30 + 1 zeros ends with an answer. -/
theorem sortStable_zeros : ¬ ∃ fuel a', sortStable natural fuel (List.replicate (2 ^ 30 + 1) 0)
    (2 ^ 30 + 1) (List.replicate (2 ^ 30 + 1) 0) = .ok a' := by
  rintro ⟨fuel, a', hok⟩
  obtain ⟨e, herror⟩ := sortStable_beyond natural fuel (n := 2 ^ 30 + 1) (by omega)
    (List.replicate (2 ^ 30 + 1) 0) (List.replicate (2 ^ 30 + 1) 0)
  rw [herror] at hok
  cases hok

end Cajeta.Collection.Sort
