import Cajeta.Collection.Sort

/-!
# The sorted blocks that the merge sort starts from

A block first has its strictly descending prefix reversed and is then sorted by insertion. What is
merged later on is a list of sorted runs of one width, the last of which may be shorter.
-/

namespace Cajeta.Collection.Sort
open Cells Except While StableOrder

variable {T : Type} {cmp : T → T → Int} {pre post s : List T} {start stop : Int} {fuel : Nat}

/-- The parts of `s` that start at the multiples of `w` are sorted. -/
def Runs (cmp : T → T → Int) (w : Nat) (s : List T) : Prop :=
  ∀ k, Sorted cmp ((s.drop (k * w)).take w)

theorem Runs.nil : Runs cmp w [] := by
  intro k
  rw [List.drop_nil, List.take_nil]
  exact List.Pairwise.nil

theorem Runs.sorted (h : Runs cmp w s) (hw : s.length ≤ w) : Sorted cmp s := by
  have hzero := h 0
  rw [Nat.zero_mul, List.drop_zero, List.take_of_length_le hw] at hzero
  exact hzero

theorem Runs.snoc (h : Runs cmp w s) (hlen : s.length = m * w) (ht : Sorted cmp t)
    (htw : t.length ≤ w) : Runs cmp w (s ++ t) := by
  intro k
  rcases Nat.lt_trichotomy k m with hk | rfl | hk
  · have hle : (k + 1) * w ≤ m * w := Nat.mul_le_mul_right w hk
    rw [Nat.succ_mul] at hle
    rw [List.drop_append_of_le_length (by omega),
      List.take_append_of_le_length (by rw [List.length_drop]; omega)]
    exact h k
  · rw [← hlen, List.drop_left, List.take_of_length_le htw]
    exact ht
  · have hle : (m + 1) * w ≤ k * w := Nat.mul_le_mul_right w hk
    rw [Nat.succ_mul] at hle
    rw [List.drop_eq_nil_of_le (by rw [List.length_append]; omega), List.take_nil]
    exact List.Pairwise.nil

/-- A part of the block that descends strictly ends at `runEnd`. -/
structure Descends (cmp : T → T → Int) (start : Int) (s : List T) (runEnd : Int) (u v : List T) :
    Prop where
  parts : u ++ v = s
  nonempty : u ≠ []
  place : runEnd = start + u.length
  strict : u.Pairwise fun x y => cmp y x < 0

theorem descend_round (hcmp : TotalPreorder cmp) (post : List T) (hstart : start = pre.length)
    (hstop : stop = start + s.length) (hmax : stop < 2 ^ 31)
    (h : Descends cmp start s runEnd u v) :
    (∃ runEnd' u' v', descend cmp start stop (pre ++ s ++ post) runEnd = .ok (.again runEnd') ∧
      Descends cmp start s runEnd' u' v' ∧ (stop - runEnd').toNat < (stop - runEnd).toNat) ∨
    descend cmp start stop (pre ++ s ++ post) runEnd = .ok (.done runEnd) := by
  obtain ⟨rfl, hnonempty, rfl, hstrict⟩ := h
  rw [List.length_append] at hstop
  obtain ⟨u, prev, rfl⟩ := List.eq_nil_or_concat u |>.resolve_left hnonempty
  rw [List.concat_eq_append] at *
  rw [List.length_append, List.length_singleton] at *
  cases v with
  | nil =>
    right
    rw [descend, if_neg (by rw [List.length_nil] at hstop; omega)]
    rfl
  | cons x v =>
    rw [List.length_cons] at hstop
    have hx : get? (pre ++ (u ++ [prev] ++ x :: v) ++ post) (start + ((u.length + 1 : Nat) : Int)) =
        some x := by
      have harray : pre ++ (u ++ [prev] ++ x :: v) ++ post =
          (pre ++ (u ++ [prev])) ++ x :: (v ++ post) := by
        simp only [List.append_assoc, List.cons_append]
      rw [harray]
      refine get?_append_cons ?_
      simp only [List.length_append, List.length_singleton]
      omega
    have hprev : get? (pre ++ (u ++ [prev] ++ x :: v) ++ post)
        (start + ((u.length + 1 : Nat) : Int) - 1) = some prev := by
      have harray : pre ++ (u ++ [prev] ++ x :: v) ++ post =
          (pre ++ u) ++ prev :: (x :: v ++ post) := by
        simp only [List.append_assoc, List.cons_append, List.nil_append]
      rw [harray]
      refine get?_append_cons ?_
      rw [List.length_append]
      omega
    rw [descend, if_pos (by omega), read_eq hx (by omega) (by omega), ok_bind,
      i32_eq (x := _ - 1) (by omega) (by omega), read_eq hprev (by omega) (by omega), ok_bind]
    by_cases hlt : cmp x prev < 0
    · left
      rw [if_pos hlt, i32_eq (by omega) (by omega)]
      refine ⟨_, u ++ [prev] ++ [x], v, rfl, ⟨(List.append_cons (u ++ [prev]) x v).symm,
        List.append_ne_nil_of_right_ne_nil _ (List.cons_ne_nil x []), ?_, ?_⟩, by omega⟩
      · simp only [List.length_append, List.length_singleton]
        omega
      · refine List.pairwise_append.mpr ⟨hstrict, List.pairwise_singleton _ _, fun y hy z hz => ?_⟩
        rw [List.mem_singleton.mp hz]
        rcases List.mem_append.mp hy with hy | hy
        · have hyprev := (List.pairwise_append.mp hstrict).2.2 y hy prev
            (List.mem_singleton_self prev)
          exact hcmp.lt_of_lt_of_le hlt (Int.le_of_lt hyprev)
        · rw [List.mem_singleton.mp hy]
          exact hlt
    · right
      rw [if_neg hlt]
      rfl

/-! ## Reversal in place -/

/-- The two ends of `d` are exchanged up to the middle part `m`. -/
structure Reversing (pre d post : List T) (a : List T) (lo₂ hi₂ : Int) (u m v : List T) : Prop where
  array : a = pre ++ (u ++ m ++ v) ++ post
  reversed : u ++ m.reverse ++ v = d.reverse
  low : lo₂ = (pre ++ u).length
  high : hi₂ = lo₂ + m.length - 1

theorem reverseRound_spec {d : List T} (hstart : start = pre.length)
    (hstop : start + d.length ≤ stop) (hmax : stop < 2 ^ 31)
    (h : Reversing pre d post a lo₂ hi₂ u m v) :
    (∃ a' lo₂' hi₂' u' m' v', reverseRound start stop (a, lo₂, hi₂) =
      .ok (.again (a', lo₂', hi₂')) ∧
      Reversing pre d post a' lo₂' hi₂' u' m' v' ∧ (hi₂' - lo₂').toNat < (hi₂ - lo₂).toNat) ∨
    reverseRound start stop (a, lo₂, hi₂) = .ok (.done (pre ++ d.reverse ++ post)) := by
  obtain ⟨rfl, hreversed, rfl, rfl⟩ := h
  have hlen := congrArg List.length hreversed
  simp only [List.length_append, List.length_reverse] at hlen ⊢
  by_cases hm : m.length < 2
  · right
    have hself : m.reverse = m := by
      match m, hm with
      | [], _ => rfl
      | [_], _ => rfl
    rw [reverseRound, if_neg (by omega), ← hreversed, hself]
    rfl
  · left
    obtain ⟨x, m, rfl⟩ := List.exists_cons_of_length_pos (by omega : 0 < m.length)
    obtain ⟨m, y, rfl⟩ := List.eq_nil_or_concat m |>.resolve_left
      (fun hnil => by rw [hnil] at hm; exact hm (Nat.lt_succ_self 1))
    rw [List.concat_eq_append] at *
    simp only [List.length_cons, List.length_append, List.length_nil] at *
    have harray : pre ++ (u ++ x :: (m ++ [y]) ++ v) ++ post =
        (pre ++ u) ++ x :: (m ++ y :: (v ++ post)) := by
      simp only [List.append_assoc, List.cons_append, List.nil_append]
    have hlow : ((pre.length + u.length : Nat) : Int) = (pre ++ u).length := by
      rw [List.length_append]
    have hhigh : ((pre.length + u.length : Nat) : Int) + (m.length + (0 + 1) + 1 : Nat) - 1 =
        (pre ++ u ++ x :: m).length := by
      simp only [List.length_append, List.length_cons]
      omega
    have hy : get? ((pre ++ u) ++ x :: (m ++ y :: (v ++ post)))
        ((pre.length + u.length : Nat) + (m.length + (0 + 1) + 1 : Nat) - 1) = some y := by
      rw [← List.cons_append, ← List.append_assoc (pre ++ u)]
      exact get?_append_cons hhigh
    rw [reverseRound, if_pos (by omega), harray, exchange_eq (get?_append_cons hlow) hy (by omega)
      (by omega), ok_bind, set_append_cons hlow, i32_eq (x := _ + 1) (by omega) (by omega),
      i32_eq (x := _ - 1) (by omega) (by omega), ← List.cons_append,
      ← List.append_assoc (pre ++ u) (y :: m), set_append_cons (by
        rw [hhigh]
        simp only [List.length_append, List.length_cons])]
    refine ⟨_, _, _, u ++ [y], m, x :: v, rfl, ⟨?_, ?_, ?_, ?_⟩, by omega⟩
    · simp only [List.append_assoc, List.cons_append, List.nil_append]
    · rw [← hreversed]
      simp only [List.reverse_cons, List.reverse_append, List.append_assoc, List.cons_append,
        List.nil_append, List.reverse_nil]
    · simp only [List.length_append, List.length_cons, List.length_nil]
      omega
    · omega

theorem reverse_loop {d : List T} (fuel : Nat) (pre post : List T) (hstart : start = pre.length)
    (hstop : start + d.length ≤ stop) (hmax : stop < 2 ^ 31) (hfuel : d.length < fuel) :
    loop .outOfFuel (reverseRound start stop) fuel (pre ++ d ++ post, start, start + d.length - 1) =
      .ok (pre ++ d.reverse ++ post) := by
  have hinit : Reversing pre d post (pre ++ d ++ post) start (start + d.length - 1) [] d [] :=
    ⟨by rw [List.nil_append, List.append_nil], by rw [List.nil_append, List.append_nil],
      by rw [List.append_nil]; exact hstart, rfl⟩
  have hloop : ∃ a, loop .outOfFuel (reverseRound start stop) fuel
      (pre ++ d ++ post, start, start + d.length - 1) = .ok a ∧ a = pre ++ d.reverse ++ post := by
    refine loop_ok (I := fun st => ∃ u m v, Reversing pre d post st.1 st.2.1 st.2.2 u m v)
      (fun st => (st.2.2 - st.2.1).toNat) (fun st hst => ?_) ⟨[], d, [],
        hinit⟩ (by dsimp only; omega)
    obtain ⟨u, m, v, hst⟩ := hst
    rcases reverseRound_spec hstart hstop hmax hst with
      ⟨a', lo', hi', u', m', v', hbody, hst', hlt⟩ | hdone
    · exact .inl ⟨(a', lo', hi'), hbody, ⟨u', m', v', hst'⟩, hlt⟩
    · exact .inr ⟨_, hdone, rfl⟩
  obtain ⟨a, hloop, rfl⟩ := hloop
  exact hloop

theorem reversePrefix_spec (fuel : Nat) (hcmp : TotalPreorder cmp) (pre post : List T) (hs : s ≠ [])
    (hstart : start = pre.length) (hstop : stop = start + s.length) (hmax : stop < 2 ^ 31)
    (hfuel : s.length < fuel) :
    ∃ s', reversePrefix cmp fuel start stop (pre ++ s ++ post) = .ok (pre ++ s' ++ post) ∧
      Stable cmp s s' := by
  obtain ⟨x, rest, rfl⟩ := List.exists_cons_of_ne_nil hs
  rw [reversePrefix, i32_eq (by omega) (by rw [List.length_cons] at hstop; omega)]
  cases rest with
  | nil =>
    rw [List.length_singleton] at hstop
    exact ⟨[x], if_neg (by omega), .refl _⟩
  | cons y rest =>
    have hlen : (x :: y :: rest).length = rest.length + 2 := rfl
    have hx : get? (pre ++ x :: y :: rest ++ post) start = some x := by
      rw [List.append_assoc, List.cons_append]
      exact get?_append_cons hstart
    have hy : get? (pre ++ x :: y :: rest ++ post) (start + 1) = some y := by
      rw [List.append_assoc, List.cons_append, List.cons_append, List.append_cons]
      exact get?_append_cons (by rw [List.length_append, List.length_singleton]; omega)
    rw [if_pos (by omega), read_eq hy (by omega) (by omega), ok_bind,
      read_eq hx (by omega) (by omega), ok_bind]
    split
    · have hinit : Descends cmp start (x :: y :: rest) (start + 1) [x] (y :: rest) :=
        ⟨rfl, List.cons_ne_nil x [], rfl, List.pairwise_singleton _ _⟩
      have hloop : ∃ runEnd, loop .outOfFuel
          (descend cmp start stop (pre ++ x :: y :: rest ++ post)) fuel (start + 1) = .ok runEnd ∧
          ∃ u v, Descends cmp start (x :: y :: rest) runEnd u v := by
        refine loop_ok (I := fun r => ∃ u v, Descends cmp start (x :: y :: rest) r u v)
          (fun r => (stop - r).toNat) (fun r hr => ?_) ⟨[x], y :: rest, hinit⟩ (by omega)
        obtain ⟨u, v, hr⟩ := hr
        rcases descend_round hcmp post hstart hstop hmax hr with
          ⟨r', u', v', hbody, hr', hlt⟩ | hdone
        · exact .inl ⟨r', hbody, ⟨u', v', hr'⟩, hlt⟩
        · exact .inr ⟨r, hdone, u, v, hr⟩
      obtain ⟨runEnd, hloop, u, v, hparts, hnonempty, rfl, hstrict⟩ := hloop
      have hlens := congrArg List.length hparts
      rw [List.length_append] at hlens
      have hpos := List.length_pos_iff.mpr hnonempty
      have hreverse := reverse_loop fuel pre (v ++ post) hstart
        (by omega : start + u.length ≤ stop) hmax (by omega)
      have hassoc : ∀ w : List T, pre ++ (w ++ v) ++ post = pre ++ w ++ (v ++ post) := fun w => by
        simp only [List.append_assoc]
      refine ⟨u.reverse ++ v, ?_, ?_⟩
      · rw [hloop, ok_bind, i32_eq (by omega) (by omega), ← hparts, hassoc, hassoc]
        exact hreverse
      · rw [← hparts]
        exact (Stable.reverse hcmp hstrict).append (.refl v)
    · exact ⟨_, rfl, .refl _⟩

/-! ## The blocks -/

/-- The blocks up to `start` are sorted. -/
structure Blocked (cmp : T → T → Int) (s tail : List T) (a : List T) (start : Int)
    (out todo : List T) : Prop where
  array : a = out ++ todo ++ tail
  place : start = out.length
  stable : Stable cmp s (out ++ todo)
  runs : Runs cmp 32 out
  full : todo = [] ∨ ∃ m, out.length = m * 32

theorem blockRound_spec (fuel : Nat) (hcmp : TotalPreorder cmp) (hmax : (s.length : Int) ≤ 2 ^ 30)
    (hfuel : s.length < fuel) (h : Blocked cmp s tail a start out todo) :
    (∃ a' start' out' todo', blockRound cmp fuel s.length (a, start) = .ok (.again (a', start')) ∧
      Blocked cmp s tail a' start' out' todo' ∧
      (s.length - start').toNat < (s.length - start).toNat) ∨
    blockRound cmp fuel s.length (a, start) = .ok (.done a) ∧ todo = [] := by
  obtain ⟨rfl, rfl, hstable, hruns, hfull⟩ := h
  have hlen := hstable.perm.length_eq
  rw [List.length_append] at hlen
  rw [blockRound]
  by_cases htodo : todo = []
  · right
    rw [if_neg (by rw [htodo, List.length_nil] at hlen; omega)]
    exact ⟨rfl, htodo⟩
  · left
    obtain ⟨m, hm⟩ := hfull.resolve_left htodo
    have hpos := List.length_pos_iff.mpr htodo
    rw [if_pos (by omega)]
    have hblk : blk = 32 := rfl
    -- the block is the first part of what is left
    have hblock : (todo.take 32).length = min 32 todo.length := List.length_take
    have hne : todo.take 32 ≠ [] := List.ne_nil_of_length_pos (by omega)
    have hstop : (if i32 (out.length + blk) > (s.length : Int) then (s.length : Int)
        else i32 (out.length + blk)) = out.length + (todo.take 32).length := by
      rw [i32_eq (by omega) (by omega)]
      split <;> omega
    have harray : out ++ todo ++ tail = out ++ todo.take 32 ++ (todo.drop 32 ++ tail) := by
      rw [List.append_assoc out (todo.take 32), ← List.append_assoc (todo.take 32),
        List.take_append_drop, List.append_assoc]
    dsimp only
    rw [hstop, harray]
    clear hstop
    obtain ⟨s₁, hreverse, hstable₁⟩ := reversePrefix_spec fuel hcmp out (todo.drop 32 ++
      tail) hne rfl
      rfl (by omega) (by omega)
    have hlen₁ := hstable₁.perm.length_eq
    obtain ⟨s₂, hinsert, hstable₂, hsorted₂⟩ := insertionSort_spec hcmp out
      (todo.drop 32 ++ tail) (List.ne_nil_of_length_pos (by omega) : s₁ ≠ []) rfl rfl (by omega)
      (by omega : s₁.length < fuel)
    have hlen₂ := hstable₂.perm.length_eq
    have hdrop : (todo.drop 32).length = todo.length - 32 := List.length_drop
    rw [hreverse, ok_bind]
    have hinsert' : insertionSort cmp fuel (out ++ s₁ ++ (todo.drop 32 ++ tail)) out.length
        (out.length + (todo.take 32).length - 1) = .ok (out ++ s₂ ++ (todo.drop 32 ++ tail)) := by
      rw [← hinsert, hlen₁]
    rw [hinsert', ok_bind]
    refine ⟨_, _, out ++ s₂, todo.drop 32, rfl, ⟨?_, ?_, ?_, ?_, ?_⟩, by omega⟩
    · simp only [List.append_assoc]
    · rw [List.length_append, hlen₂, hlen₁]
      omega
    · refine hstable.trans ?_
      rw [List.append_assoc]
      refine (Stable.refl out).append ?_
      have hparts : todo = todo.take 32 ++ todo.drop 32 := (List.take_append_drop 32 todo).symm
      have hblock := (hstable₁.trans hstable₂).append (.refl (todo.drop 32))
      rw [← hparts] at hblock
      exact hblock
    · exact hruns.snoc hm hsorted₂ (by omega)
    · by_cases hlast : todo.length ≤ 32
      · exact .inl (List.eq_nil_of_length_eq_zero (by omega))
      · refine .inr ⟨m + 1, ?_⟩
        rw [List.length_append]
        omega

theorem blocks_spec (fuel : Nat) (hcmp : TotalPreorder cmp) (s tail : List T)
    (hmax : (s.length : Int) ≤ 2 ^ 30) (hfuel : s.length < fuel) :
    ∃ s', loop .outOfFuel (blockRound cmp fuel s.length) fuel (s ++ tail, 0) = .ok (s' ++ tail) ∧
      Stable cmp s s' ∧ Runs cmp 32 s' := by
  have hinit : Blocked cmp s tail (s ++ tail) 0 [] s :=
    ⟨rfl, rfl, .refl s, .nil, .inr ⟨0, (Nat.zero_mul 32).symm⟩⟩
  have hloop : ∃ a, loop .outOfFuel (blockRound cmp fuel s.length) fuel (s ++ tail, 0) = .ok a ∧
      ∃ start out, Blocked cmp s tail a start out [] := by
    refine loop_ok (I := fun st => ∃ out todo, Blocked cmp s tail st.1 st.2 out todo)
      (fun st => ((s.length : Int) - st.2).toNat) (fun st hst => ?_) ⟨[], s,
        hinit⟩ (by dsimp only; omega)
    obtain ⟨out, todo, hst⟩ := hst
    rcases blockRound_spec fuel hcmp hmax hfuel hst with
      ⟨a', start', out', todo', hbody, hst', hlt⟩ | hdone
    · exact .inl ⟨(a', start'), hbody, ⟨out', todo', hst'⟩, hlt⟩
    · exact .inr ⟨st.1, hdone.1, st.2, out, hdone.2 ▸ hst⟩
  obtain ⟨a, hloop, start, out, ⟨rfl, -, hstable, hruns, -⟩⟩ := hloop
  rw [List.append_nil] at hloop hstable
  exact ⟨out, hloop, hstable, hruns⟩

/-!
## The merge sort, up to a size

Merging keeps ties in order, and a pass doubles the width of the sorted runs. The ends of a pair of
runs are computed in 32 bits: up to 2^30 elements they do not wrap around.
-/

/-- The elements up to `li` are copied. -/
structure Copying (before todo after out tail : List T) (dst : List T) (li k : Int)
    (c r old : List T) : Prop where
  parts : c ++ r = todo
  array : dst = out ++ c ++ old ++ tail
  room : old.length = r.length
  source : li = (before ++ c).length
  target : k = (out ++ c).length

theorem copyRound_spec (n : Int) (before after : List T) {todo : List T}
    (hsrc : ((before ++ todo).length : Int) ≤ n) (hdst : ((out ++ todo).length : Int) ≤ n)
    (hmax : n < 2 ^ 31) (h : Copying before todo after out tail dst li k c r old) :
    (∃ dst' li' k' c' r' old', copyRound n (before ++ todo ++ after) (before ++ todo).length
        (dst, li, k) = .ok (.again (dst', li', k')) ∧
      Copying before todo after out tail dst' li' k' c' r' old' ∧ r'.length < r.length) ∨
    copyRound n (before ++ todo ++ after) (before ++ todo).length (dst, li, k) =
      .ok (.done (out ++ todo ++ tail, (out ++ todo).length)) := by
  obtain ⟨rfl, rfl, hroom, rfl, rfl⟩ := h
  simp only [List.length_append] at hsrc hdst ⊢
  cases r with
  | nil =>
    obtain rfl := List.eq_nil_of_length_eq_zero hroom
    right
    rw [copyRound, if_neg (by rw [List.length_nil]; omega), List.append_nil, List.append_nil,
      List.length_nil, Nat.add_zero]
    rfl
  | cons x r =>
    left
    obtain ⟨y, old, rfl⟩ := List.exists_cons_of_length_pos (by rw [hroom]; exact Nat.succ_pos _)
    simp only [List.length_cons] at hsrc hdst hroom ⊢
    have hx : get? (before ++ (c ++ x :: r) ++ after) ((before.length + c.length : Nat) : Int) =
        some x := by
      have harray : before ++ (c ++ x :: r) ++ after = before ++ c ++ x :: (r ++ after) := by
        simp only [List.append_assoc, List.cons_append]
      rw [harray]
      exact get?_append_cons (by rw [List.length_append])
    have hdstArray : out ++ c ++ y :: old ++ tail = out ++ c ++ y :: (old ++ tail) := by
      rw [List.append_assoc, List.cons_append]
    rw [copyRound, if_pos (by omega), read_eq hx (by omega) (by omega), ok_bind, hdstArray,
      write_eq (by omega) (by simp only [List.length_append, List.length_cons]; omega) (by omega)
        (by omega), ok_bind, set_append_cons (by rw [List.length_append]),
      i32_eq (by omega) (by omega), i32_eq (by omega) (by omega)]
    refine ⟨_, _, _, c ++ [x], r, old, rfl, ⟨?_, ?_, by omega, ?_, ?_⟩, Nat.lt_succ_self _⟩
    · exact (List.append_cons c x r).symm
    · simp only [List.append_assoc, List.cons_append, List.nil_append]
    · simp only [List.length_append, List.length_singleton]
      omega
    · simp only [List.length_append, List.length_singleton]
      omega

theorem copy_loop (fuel : Nat) (n : Int) (before todo after out old tail : List T)
    (hroom : old.length = todo.length) (hsrc : ((before ++ todo).length : Int) ≤ n)
    (hdst : ((out ++ todo).length : Int) ≤ n) (hmax : n < 2 ^ 31) (hfuel : todo.length < fuel) :
    loop .outOfFuel (copyRound n (before ++ todo ++ after) (before ++ todo).length) fuel
        (out ++ old ++ tail, (before.length : Int), (out.length : Int)) =
      .ok (out ++ todo ++ tail, ((out ++ todo).length : Int)) := by
  have hinit : Copying before todo after out tail (out ++ old ++ tail) before.length out.length
      [] todo old :=
    ⟨rfl, by rw [List.append_nil], hroom, by rw [List.append_nil], by rw [List.append_nil]⟩
  have hloop : ∃ b, loop .outOfFuel (copyRound n (before ++ todo ++ after) (before ++ todo).length)
      fuel (out ++ old ++ tail, (before.length : Int), (out.length : Int)) = .ok b ∧
      b = (out ++ todo ++ tail, ((out ++ todo).length : Int)) := by
    refine loop_ok_ranked (I := fun m st => ∃ c r old,
      Copying before todo after out tail st.1 st.2.1 st.2.2 c r old ∧ r.length = m)
      (fun m st hst => ?_) ⟨[], todo, old, hinit, rfl⟩ hfuel
    obtain ⟨c, r, old, hst, rfl⟩ := hst
    rcases copyRound_spec n before after hsrc hdst hmax hst with
      ⟨dst', li', k', c', r', old', hbody, hst', hlt⟩ | hdone
    · exact .inl ⟨r'.length, (dst', li', k'), hbody, ⟨c', r', old', hst', rfl⟩, hlt⟩
    · exact .inr ⟨_, hdone, rfl⟩
  obtain ⟨b, hloop, rfl⟩ := hloop
  exact hloop

/-! ## Merging two runs -/

/-- `merged` is in the other array; what is left of either run is sorted behind it. -/
structure Merging (cmp : T → T → Int) (before left right out tail : List T) (dst : List T)
    (li ri k : Int) (l r merged old : List T) : Prop where
  leftParts : ∃ used, left = used ++ l ∧ li = (before ++ used).length
  rightParts : ∃ used, right = used ++ r ∧ ri = (before ++ left ++ used).length
  array : dst = out ++ merged ++ old ++ tail
  room : old.length = l.length + r.length
  target : k = (out ++ merged).length
  stable : Stable cmp (left ++ right) (merged ++ (l ++ r))
  sortedLeft : Sorted cmp (merged ++ l)
  sortedRight : Sorted cmp (merged ++ r)

theorem mergeRound_spec (hcmp : TotalPreorder cmp) (n : Int) (before after : List T)
    {left right : List T} (hsrc : ((before ++ left ++ right).length : Int) ≤ n)
    (hdst : out.length = before.length) (hmax : n < 2 ^ 31)
    (h : Merging cmp before left right out tail dst li ri k l r merged old) :
    (∃ dst' li' ri' k' l' r' merged' old',
      mergeRound cmp n (before ++ left ++ right ++ after) (before ++ left).length
        (before ++ left ++ right).length (dst, li, ri, k) = .ok (.again (dst', li', ri', k')) ∧
      Merging cmp before left right out tail dst' li' ri' k' l' r' merged' old' ∧
      l'.length + r'.length < l.length + r.length) ∨
    mergeRound cmp n (before ++ left ++ right ++ after) (before ++ left).length
        (before ++ left ++ right).length (dst, li, ri, k) = .ok (.done (dst, li, ri, k)) ∧
      (l = [] ∨ r = []) := by
  obtain ⟨⟨usedL, rfl, rfl⟩, ⟨usedR, rfl, rfl⟩, rfl, hroom, rfl, hstable, hsortL, hsortR⟩ := h
  have hlen := hstable.perm.length_eq
  simp only [List.length_append] at hsrc hlen ⊢
  rw [mergeRound]
  cases l with
  | nil =>
    right
    rw [if_neg (by rw [List.length_nil]; omega)]
    exact ⟨rfl, .inl rfl⟩
  | cons x l =>
    cases r with
    | nil =>
      right
      rw [if_neg (by rw [List.length_nil]; omega)]
      exact ⟨rfl, .inr rfl⟩
    | cons y r =>
      left
      obtain ⟨z, old, rfl⟩ := List.exists_cons_of_length_pos
        (by rw [hroom, List.length_cons]; omega : 0 < old.length)
      simp only [List.length_cons] at hsrc hlen hroom ⊢
      have hx : get? (before ++ (usedL ++ x :: l) ++ (usedR ++ y :: r) ++ after)
          ((before.length + usedL.length : Nat) : Int) = some x := by
        have harray : before ++ (usedL ++ x :: l) ++ (usedR ++ y :: r) ++ after =
            before ++ usedL ++ x :: (l ++ (usedR ++ y :: r) ++ after) := by
          simp only [List.append_assoc, List.cons_append]
        rw [harray]
        exact get?_append_cons (by rw [List.length_append])
      have hy : get? (before ++ (usedL ++ x :: l) ++ (usedR ++ y :: r) ++ after)
          ((before.length + (usedL.length + (l.length + 1)) + usedR.length : Nat) : Int) =
          some y := by
        have harray : before ++ (usedL ++ x :: l) ++ (usedR ++ y :: r) ++ after =
            before ++ (usedL ++ x :: l) ++ usedR ++ y :: (r ++ after) := by
          simp only [List.append_assoc, List.cons_append]
        rw [harray]
        exact get?_append_cons (by simp only [List.length_append, List.length_cons])
      have hwrite : ∀ w : T, write 0 (n - 1) (out ++ merged ++ z :: old ++ tail)
          ((out.length + merged.length : Nat) : Int) w =
            .ok (out ++ merged ++ w :: old ++ tail) := by
        intro w
        rw [List.append_assoc (out ++ merged), List.cons_append, write_eq (by omega)
          (by simp only [List.length_append, List.length_cons]; omega) (by omega) (by omega),
          set_append_cons (by rw [List.length_append]), List.append_assoc (out ++ merged),
          List.cons_append]
      have harrayOf : ∀ w : T, out ++ merged ++ w :: old ++ tail =
          out ++ (merged ++ [w]) ++ old ++ tail := fun w => by
        simp only [List.append_assoc, List.cons_append, List.nil_append]
      rw [if_pos (by omega), read_eq hx (by omega) (by omega), ok_bind,
        read_eq hy (by omega) (by omega), ok_bind]
      by_cases hlt : cmp y x < 0
      · -- the right run gives its first element, which goes in front of all of the left one
        have hbefore : ∀ w ∈ x :: l, cmp y w < 0 := by
          intro w hw
          rcases List.mem_cons.mp hw with rfl | hw
          · exact hlt
          · have hxw := (List.pairwise_cons.mp (List.pairwise_append.mp hsortL).2.1).1 w hw
            exact hcmp.lt_of_lt_of_le hlt hxw
        have hmergedY : Sorted cmp (merged ++ [y] ++ r) := by
          rw [← List.append_cons]
          exact hsortR
        rw [if_pos hlt, hwrite y, ok_bind, i32_eq (by omega) (by omega),
          i32_eq (by omega) (by omega)]
        refine ⟨_, _, _, _, x :: l, r, merged ++ [y], old, rfl, ⟨⟨usedL, rfl, by
          rw [List.length_append]⟩, ⟨usedR ++ [y], List.append_cons usedR y r, ?_⟩, harrayOf y,
          by simp only [List.length_cons]; omega, ?_, ?_, ?_, hmergedY⟩, by
          simp only [List.length_cons]; omega⟩
        · simp only [List.length_append, List.length_cons, List.length_nil]
          omega
        · simp only [List.length_append, List.length_cons, List.length_nil]
          omega
        · refine hstable.trans ?_
          have hmove : merged ++ (x :: l ++ y :: r) = merged ++ (x :: l ++ [y]) ++ r := by
            simp only [List.append_assoc, List.cons_append, List.nil_append]
          have hmoved : merged ++ [y] ++ (x :: l ++ r) = merged ++ (y :: (x :: l)) ++ r := by
            simp only [List.append_assoc, List.cons_append, List.nil_append]
          rw [hmove, hmoved]
          exact ((Stable.refl merged).append (Stable.moveLeft hcmp hbefore)).append (.refl r)
        · rw [← List.append_cons]
          exact Sorted.insert hsortL (fun w hw => (List.pairwise_append.mp hsortR).2.2 w hw y
            List.mem_cons_self) hbefore
      · have hle := hcmp.le_of_not_lt hlt
        have hmergedX : Sorted cmp (merged ++ [x] ++ l) := by
          rw [← List.append_cons]
          exact hsortL
        rw [if_neg hlt, hwrite x, ok_bind, i32_eq (by omega) (by omega),
          i32_eq (by omega) (by omega)]
        refine ⟨_, _, _, _, l, y :: r, merged ++ [x], old, rfl, ⟨⟨usedL ++ [x],
          List.append_cons usedL x l, ?_⟩, ⟨usedR, rfl, by
            simp only [List.length_append, List.length_cons]⟩, harrayOf x,
          by simp only [List.length_cons]; omega, ?_, ?_, hmergedX, ?_⟩, by
          simp only [List.length_cons]; omega⟩
        · simp only [List.length_append, List.length_cons, List.length_nil]
          omega
        · simp only [List.length_append, List.length_cons, List.length_nil]
          omega
        · rw [List.append_assoc merged, List.singleton_append]
          exact hstable
        · obtain ⟨hm, hyr, hmyr⟩ := List.pairwise_append.mp hsortR
          have hmx := (List.pairwise_append.mp hsortL).2.2
          refine List.pairwise_append.mpr ⟨(List.pairwise_append.mp hmergedX).1, hyr, ?_⟩
          intro v hv w hw
          rcases List.mem_append.mp hv with hv | hv
          · exact hmyr v hv w hw
          · rw [List.mem_singleton.mp hv]
            rcases List.mem_cons.mp hw with rfl | hw
            · exact hle
            · exact hcmp.trans x y w hle ((List.pairwise_cons.mp hyr).1 w hw)

/-- A pair of sorted runs is merged stably into the same places of the other array. -/
theorem mergePair_spec (fuel : Nat) (hcmp : TotalPreorder cmp) (n : Int)
    (before left right after out old tail : List T)
    (hsrc : ((before ++ left ++ right).length : Int) ≤ n) (hdst : out.length = before.length)
    (hroom : old.length = left.length + right.length) (hmax : n < 2 ^ 31)
    (hleft : Sorted cmp left) (hright : Sorted cmp right)
    (hfuel : left.length + right.length < fuel) :
    ∃ merged, mergePair cmp fuel n (before ++ left ++ right ++ after) before.length
        (before ++ left).length (before ++ left ++ right).length (out ++ old ++ tail) =
          .ok (out ++ merged ++ tail) ∧
      Stable cmp (left ++ right) merged ∧ Sorted cmp merged := by
  have hinit : Merging cmp before left right out tail (out ++ old ++ tail) before.length
      (before ++ left).length before.length left right [] old :=
    ⟨⟨[], rfl, by rw [List.append_nil]⟩, ⟨[], rfl, by rw [List.append_nil]⟩,
      by rw [List.append_nil],
      hroom, by rw [List.append_nil, hdst], .refl _, hleft, hright⟩
  have hloop : ∃ st, loop .outOfFuel (mergeRound cmp n (before ++ left ++ right ++ after)
      (before ++ left).length (before ++ left ++ right).length) fuel (out ++ old ++ tail,
        (before.length : Int), ((before ++ left).length : Int), (before.length : Int)) = .ok st ∧
      ∃ l r merged old, Merging cmp before left right out tail st.1 st.2.1 st.2.2.1 st.2.2.2 l r
        merged old ∧ (l = [] ∨ r = []) := by
    refine loop_ok_ranked (I := fun m st => ∃ l r merged old,
      Merging cmp before left right out tail st.1 st.2.1 st.2.2.1 st.2.2.2 l r merged old ∧
        l.length + r.length = m) (fun m st hst => ?_) ⟨left, right, [], old, hinit, rfl⟩ hfuel
    obtain ⟨l, r, merged, old, hst, rfl⟩ := hst
    rcases mergeRound_spec hcmp n before after hsrc hdst hmax hst with
      ⟨dst', li', ri', k', l', r', merged', old', hbody, hst', hlt⟩ | ⟨hbody, hdone⟩
    · exact .inl ⟨_, (dst', li', ri', k'), hbody, ⟨l', r', merged', old', hst', rfl⟩, hlt⟩
    · exact .inr ⟨st, hbody, l, r, merged, old, hst, hdone⟩
  obtain ⟨⟨dst, li, ri, k⟩, hloop, l, r, merged, old', hst, hdone⟩ := hloop
  obtain ⟨⟨usedL, hL, hli⟩, ⟨usedR, hR, hri⟩, harray, hroom', hk, hstable, hsortL, hsortR⟩ := hst
  have hlen := hstable.perm.length_eq
  have hlenL := congrArg List.length hL
  have hlenR := congrArg List.length hR
  simp only [List.length_append] at hlen hlenL hlenR hsrc
  dsimp only at hli hri harray hk
  -- the room for what is left is in two parts as well
  have hold : old' = old'.take l.length ++ old'.drop l.length := (List.take_append_drop _ _).symm
  have holdL : (old'.take l.length).length = l.length := by rw [List.length_take]; omega
  have holdR : (old'.drop l.length).length = r.length := by rw [List.length_drop]; omega
  have hcopyL := copy_loop fuel n (before ++ usedL) l (right ++ after) (out ++ merged)
    (old'.take l.length) (old'.drop l.length ++ tail) holdL
    (by simp only [List.length_append]; omega) (by simp only [List.length_append]; omega) hmax
    (by omega)
  have hcopyR := copy_loop fuel n (before ++ left ++ usedR) r after (out ++ merged ++ l)
    (old'.drop l.length) tail holdR
    (by simp only [List.length_append]; omega) (by simp only [List.length_append]; omega) hmax
    (by omega)
  have hsrcL : before ++ usedL ++ l ++ (right ++ after) = before ++ left ++ right ++ after := by
    rw [hL]
    simp only [List.append_assoc]
  have hsrcR : before ++ left ++ usedR ++ r ++ after = before ++ left ++ right ++ after := by
    rw [hR]
    simp only [List.append_assoc]
  have hmid : ((before ++ usedL ++ l).length : Int) = (before ++ left).length := by
    simp only [List.length_append]
    omega
  have hright' : ((before ++ left ++ usedR ++ r).length : Int) =
    (before ++ left ++ right).length := by
    simp only [List.length_append]
    omega
  have hdst₁ : dst = out ++ merged ++ old'.take l.length ++ (old'.drop l.length ++ tail) := by
    rw [harray]
    nth_rewrite 1 [hold]
    simp only [List.append_assoc]
  have hdst₂ : out ++ merged ++ l ++ (old'.drop l.length ++ tail) =
      out ++ merged ++ l ++ old'.drop l.length ++ tail := by
    simp only [List.append_assoc]
  rw [hsrcL, hmid, ← hdst₁, ← hli, ← hk, hdst₂] at hcopyL
  rw [hsrcR, hright', ← hri] at hcopyR
  refine ⟨merged ++ (l ++ r), ?_, hstable, ?_⟩
  · rw [mergePair, hloop, ok_bind]
    dsimp only
    rw [hcopyL, ok_bind]
    dsimp only
    rw [hcopyR, ok_bind]
    simp only [List.append_assoc]
    rfl
  · rcases hdone with rfl | rfl
    · exact hsortR
    · rw [List.append_nil]
      exact hsortL

end Cajeta.Collection.Sort
