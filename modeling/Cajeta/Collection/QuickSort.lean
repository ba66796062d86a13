import Cajeta.Collection.Sort

/-!
# The quicksort sorts

A partition leaves what compares at most equal to the pivot in front of what compares at least equal
to it. While ranges are pending the array is in order across every place that is not inside one of
them.
-/

namespace Cajeta.Collection.Sort
open Cells Except While StableOrder

variable {T : Type} {cmp : T → T → Int} {lo hi i j e : Int} {fuel : Nat}

theorem scanUp_loop (hlo : 0 ≤ lo) (hlen : hi < a.length) (hmax : hi < 2 ^ 31)
    (hi0 : lo ≤ i + 1) (hie : i < e) (hehi : e ≤ hi) (he : All (0 ≤ cmp · pivot) a e e)
    (hfuel : (e - i).toNat < fuel) :
    ∃ i', loop .outOfFuel (scanUp cmp lo hi a pivot) fuel i = .ok i' ∧ (i < i' ∧ i' ≤ e) ∧
      All (0 ≤ cmp · pivot) a i' i' ∧ All (cmp · pivot ≤ 0) a (i + 1) (i' - 1) := by
  refine loop_ok (I := fun m => (i ≤ m ∧ m < e) ∧ All (cmp · pivot ≤ 0) a (i + 1) m)
    (fun m => (e - m).toNat) (fun m hm => ?_) ⟨⟨Int.le_refl i, hie⟩, All.of_lt (by omega)⟩ hfuel
  obtain ⟨⟨him, hme⟩, hbelow⟩ := hm
  obtain ⟨x, hx⟩ := exists_get? (a := a) (i := m + 1) (by omega) (by omega)
  rw [scanUp, i32_eq (by omega) (by omega), read_eq hx (by omega) (by omega), ok_bind]
  by_cases hstop : cmp x pivot ≥ 0
  · right
    rw [if_pos hstop]
    exact ⟨m + 1, rfl, ⟨by omega, by omega⟩,
      (All.of_lt (by omega) : All _ a (m + 1) (m + 1 - 1)).snoc hx hstop,
      by rw [Int.add_sub_cancel]; exact hbelow⟩
  · left
    rw [if_neg hstop]
    have hne : m + 1 ≠ e := fun h => hstop (he (m + 1) x (by omega) (by omega) hx)
    refine ⟨m + 1, rfl, ⟨⟨by omega, by omega⟩, ?_⟩, by omega⟩
    exact All.snoc (by rw [Int.add_sub_cancel]; exact hbelow) hx (by omega)

theorem scanDown_loop (hlo : 0 ≤ lo) (hlen : hi < a.length) (hmax : hi < 2 ^ 31)
    (hj0 : j ≤ hi + 1) (hej : e < j) (hloe : lo ≤ e) (he : All (cmp · pivot ≤ 0) a e e)
    (hfuel : (j - e).toNat < fuel) :
    ∃ j', loop .outOfFuel (scanDown cmp lo hi a pivot) fuel j = .ok j' ∧ (e ≤ j' ∧ j' < j) ∧
      All (cmp · pivot ≤ 0) a j' j' ∧ All (0 ≤ cmp · pivot) a (j' + 1) (j - 1) := by
  refine loop_ok (I := fun m => (e < m ∧ m ≤ j) ∧ All (0 ≤ cmp · pivot) a m (j - 1))
    (fun m => (m - e).toNat) (fun m hm => ?_) ⟨⟨hej, Int.le_refl j⟩, All.of_lt (by omega)⟩ hfuel
  obtain ⟨⟨hem, hmj⟩, habove⟩ := hm
  obtain ⟨x, hx⟩ := exists_get? (a := a) (i := m - 1) (by omega) (by omega)
  rw [scanDown, i32_eq (by omega) (by omega), read_eq hx (by omega) (by omega), ok_bind]
  by_cases hstop : cmp x pivot ≤ 0
  · right
    rw [if_pos hstop]
    exact ⟨m - 1, rfl, ⟨by omega, by omega⟩,
      (All.of_lt (by omega) : All _ a (m - 1) (m - 1 - 1)).snoc hx hstop,
      by rw [Int.sub_add_cancel]; exact habove⟩
  · left
    rw [if_neg hstop]
    have hne : m - 1 ≠ e := fun h => hstop (he (m - 1) x (by omega) (by omega) hx)
    refine ⟨m - 1, rfl, ⟨⟨by omega, by omega⟩, ?_⟩, by omega⟩
    exact All.cons (by rw [Int.sub_add_cancel]; exact habove) hx (by omega)

/-! ## One partition -/

/-- How far the two scans have come. At the start the pivot at `lo` stops both; after the first
exchange each scan is stopped by what the other one left behind. -/
structure Scanned (cmp : T → T → Int) (lo hi : Int) (pivot : T) (a₀ a : List T) (i j : Int) :
    Prop where
  rearranged : Rearranged lo hi a₀ a
  order : i < j
  below : All (cmp · pivot ≤ 0) a lo i
  above : All (0 ≤ cmp · pivot) a j hi
  stops : (i = lo - 1 ∧ j = hi + 1 ∧ All (cmp · pivot = 0) a lo lo) ∨ (lo ≤ i ∧ j ≤ hi)

/-- The range is split behind `j`. -/
structure Parted (cmp : T → T → Int) (lo hi : Int) (pivot : T) (a₀ a : List T) (j : Int) :
    Prop where
  rearranged : Rearranged lo hi a₀ a
  inside : lo ≤ j ∧ j < hi
  below : All (cmp · pivot ≤ 0) a lo j
  above : All (0 ≤ cmp · pivot) a (j + 1) hi

theorem partitionRound_spec (hlo : 0 ≤ lo) (horder : lo < hi) (hlen : hi < a.length)
    (hmax : hi < 2 ^ 31) (hfuel : (hi + 2 - lo).toNat < fuel)
    (h : Scanned cmp lo hi pivot a₀ a i j) :
    (∃ a' i' j', partitionRound cmp fuel lo hi pivot (a, i, j) = .ok (.again (a', i', j')) ∧
      Scanned cmp lo hi pivot a₀ a' i' j' ∧ (j' - i').toNat < (j - i).toNat) ∨
    ∃ j', partitionRound cmp fuel lo hi pivot (a, i, j) = .ok (.done (a, j')) ∧
      Parted cmp lo hi pivot a₀ a j' := by
  have hstops := h.stops
  have hij := h.order
  obtain ⟨i', hup, hi', hatI, hpassedI⟩ : ∃ i',
      loop .outOfFuel (scanUp cmp lo hi a pivot) fuel i = .ok i' ∧
      (i < i' ∧ (lo ≤ i → i' ≤ j) ∧ (i < lo → i' = lo)) ∧ All (0 ≤ cmp · pivot) a i' i' ∧
      All (cmp · pivot ≤ 0) a (i + 1) (i' - 1) := by
    rcases hstops with ⟨rfl, rfl, hpivot⟩ | ⟨hloi, hjhi⟩
    · obtain ⟨i', hloop, hbounds, hat⟩ := scanUp_loop (i := lo - 1) (e := lo) hlo hlen hmax
        (by omega) (by omega) (by omega) (hpivot.imp fun x hx => Int.le_of_eq hx.symm)
        (by omega : _ < fuel)
      exact ⟨i', hloop, ⟨by omega, by omega, by omega⟩, hat⟩
    · obtain ⟨i', hloop, hbounds, hat⟩ := scanUp_loop (i := i) (e := j) hlo hlen hmax (by omega)
        hij hjhi (fun k x hk hk' => h.above k x hk (by omega)) (by omega : _ < fuel)
      exact ⟨i', hloop, ⟨by omega, by omega, by omega⟩, hat⟩
  obtain ⟨j', hdown, hj', hatJ, hpassedJ⟩ : ∃ j',
      loop .outOfFuel (scanDown cmp lo hi a pivot) fuel j = .ok j' ∧
      (j' < j ∧ lo ≤ j' ∧ (lo ≤ i → i ≤ j')) ∧ All (cmp · pivot ≤ 0) a j' j' ∧
      All (0 ≤ cmp · pivot) a (j' + 1) (j - 1) := by
    rcases hstops with ⟨rfl, rfl, hpivot⟩ | ⟨hloi, hjhi⟩
    · obtain ⟨j', hloop, hbounds, hat⟩ := scanDown_loop (j := hi + 1) (e := lo) hlo hlen hmax
        (by omega) (by omega) (by omega) (hpivot.imp fun x hx => Int.le_of_eq hx)
        (by omega : _ < fuel)
      exact ⟨j', hloop, ⟨by omega, by omega, by omega⟩, hat⟩
    · obtain ⟨j', hloop, hbounds, hat⟩ := scanDown_loop (j := j) (e := i) hlo hlen hmax (by omega)
        hij hloi (fun k x hk hk' => h.below k x (by omega) hk') (by omega : _ < fuel)
      exact ⟨j', hloop, ⟨by omega, by omega, by omega⟩, hat⟩
  have hbelow : All (cmp · pivot ≤ 0) a lo (i' - 1) := h.below.append hpassedI
  have habove : All (0 ≤ cmp · pivot) a (j' + 1) hi := by
    have hall := hpassedJ.append (k := hi) (by rw [Int.sub_add_cancel]; exact h.above)
    exact hall
  rw [partitionRound, hup, ok_bind, hdown, ok_bind]
  by_cases hcross : i' ≥ j'
  · right
    rw [if_pos hcross]
    refine ⟨j', rfl, h.rearranged, by omega, ?_, habove⟩
    -- everything up to `j'` was passed by the upper scan, or it is where the lower one stopped
    intro k x hk hk' hx
    rcases Int.lt_or_eq_of_le hk' with hlt | rfl
    · exact hbelow k x hk (by omega) hx
    · exact hatJ k x (Int.le_refl k) (Int.le_refl k) hx
  · left
    rw [if_neg hcross]
    obtain ⟨x, hx⟩ := exists_get? (a := a) (i := i') (by omega) (by omega)
    obtain ⟨y, hy⟩ := exists_get? (a := a) (i := j') (by omega) (by omega)
    rw [exchange_eq hx hy (by omega) (by omega), ok_bind]
    have hlen' : j' < (set a i' y).length := by rw [length_set]; omega
    refine ⟨_, i', j', rfl, ⟨h.rearranged.trans (.swap hx hy (by omega) (by omega)), by omega,
      ?_, ?_, .inr (by omega)⟩, by omega⟩
    · refine All.set_of_ne (All.snoc (x := y) ?_ ?_ ?_) (by omega) hlen' (by omega)
      · exact hbelow.set_of_ne (by omega) (by omega) (by omega)
      · rw [get?_set (by omega) (by omega), if_pos rfl]
      · exact hatJ j' y (Int.le_refl _) (Int.le_refl _) hy
    · refine All.cons (x := x) ?_ ?_ ?_
      · exact All.set_of_ne (habove.set_of_ne (by omega) (by omega) (by omega)) (by omega) hlen'
          (by omega)
      · rw [get?_set (by omega) hlen', if_pos rfl]
      · exact hatI i' x (Int.le_refl _) (Int.le_refl _) hx

theorem medianOfThree_mem (cmp : T → T → Int) (lo mid hi : Int) (x y z : T) :
    medianOfThree cmp lo mid hi x y z = lo ∨ medianOfThree cmp lo mid hi x y z = mid ∨
      medianOfThree cmp lo mid hi x y z = hi := by
  unfold medianOfThree
  split_ifs <;> simp

theorem partition_spec (fuel : Nat) (hcmp : TotalPreorder cmp) (a : List T) (hlo : 0 ≤ lo)
    (horder : lo < hi)
    (hlen : hi < a.length) (hmax : hi < 2 ^ 31 - 1) (hfuel : (hi + 2 - lo).toNat < fuel) :
    ∃ a' j pivot, partition cmp fuel a lo hi = .ok (a', j) ∧ Parted cmp lo hi pivot a a' j := by
  have hmid : i32 (lo + (i32 (hi - lo)).tdiv 2) = lo + (hi - lo) / 2 := by
    rw [i32_eq (x := hi - lo) (by omega) (by omega), Int.tdiv_eq_ediv_of_nonneg (by omega),
      i32_eq (by omega) (by omega)]
  obtain ⟨x, hx⟩ := exists_get? (a := a) (i := lo) hlo (by omega)
  obtain ⟨y, hy⟩ := exists_get? (a := a) (i := lo + (hi - lo) / 2) (by omega) (by omega)
  obtain ⟨z, hz⟩ := exists_get? (a := a) (i := hi) (by omega) hlen
  have hmp := medianOfThree_mem cmp lo (lo + (hi - lo) / 2) hi x y z
  rw [partition, hmid, read_eq hx (by omega) (by omega), ok_bind, read_eq hy (by omega) (by omega),
    ok_bind, read_eq hz (by omega) (by omega), ok_bind]
  generalize medianOfThree cmp lo (lo + (hi - lo) / 2) hi x y z = mp at hmp
  obtain ⟨w, hw⟩ := exists_get? (a := a) (i := mp) (by omega) (by omega)
  have hrearranged : Rearranged lo hi a (set (set a lo w) mp x) :=
    .swap hx hw (by omega) (by omega)
  obtain ⟨pivot, hpivot⟩ := exists_get? (a := set (set a lo w) mp x) (i := lo) hlo
    (by simp only [length_set]; omega)
  dsimp only
  rw [exchange_eq hx hw (by omega) (by omega), ok_bind, read_eq hpivot (by omega) (by omega),
    ok_bind, i32_eq (by omega) (by omega), i32_eq (by omega) (by omega)]
  have hstart : Scanned cmp lo hi pivot a (set (set a lo w) mp x) (lo - 1) (hi + 1) := by
    refine ⟨hrearranged, by omega, All.of_lt (by omega), All.of_lt (by omega), .inl ⟨rfl, rfl, ?_⟩⟩
    exact (All.of_lt (by omega) : All _ _ lo (lo - 1)).snoc hpivot (hcmp.refl pivot)
  have hloop : ∃ r, loop .outOfFuel (partitionRound cmp fuel lo hi pivot) fuel
      (set (set a lo w) mp x, lo - 1, hi + 1) = .ok r ∧ Parted cmp lo hi pivot a r.1 r.2 := by
    refine loop_ok (I := fun s => Scanned cmp lo hi pivot a s.1 s.2.1 s.2.2)
      (fun s => (s.2.2 - s.2.1).toNat) (fun s hs => ?_) hstart (by dsimp only; omega)
    have hlength := hs.rearranged.length_eq
    rcases partitionRound_spec hlo horder (by omega) (by omega) hfuel hs with
      ⟨a', i', j', hbody, hs', hlt⟩ | ⟨j', hbody, hdone⟩
    · exact .inl ⟨(a', i', j'), hbody, hs', hlt⟩
    · exact .inr ⟨(s.1, j'), hbody, hdone⟩
  obtain ⟨⟨a', j'⟩, hloop, hparted⟩ := hloop
  exact ⟨a', j', pivot, hloop, hparted⟩

/-! ## Pending ranges -/

/-- Nothing at `k` or above comes before anything below `k`. -/
def SplitAt (cmp : T → T → Int) (a : List T) (n k : Int) : Prop :=
  ∀ i j x y, i < k → k ≤ j → j < n → get? a i = some x → get? a j = some y → cmp x y ≤ 0

/-- The pending ranges lie apart from each other, and wherever none of them reaches across the
array is in order already. -/
structure Pending (cmp : T → T → Int) (n : Int) (a : List T) (ranges : List (Int × Int)) :
    Prop where
  inside : ∀ r ∈ ranges, 0 ≤ r.1 ∧ r.1 ≤ r.2 ∧ r.2 < n
  apart : ranges.Pairwise fun r r' => r.2 < r'.1 ∨ r'.2 < r.1
  split : ∀ k, (∀ r ∈ ranges, ¬ (r.1 < k ∧ k ≤ r.2)) → SplitAt cmp a n k

theorem SplitAt.rearranged {a a' : List T} (h : SplitAt cmp a n k) (hr : Rearranged lo hi a a')
    (hlo : 0 ≤ lo) (hlen : hi < a.length) (hn : hi < n) (hk : ¬ (lo < k ∧ k ≤ hi)) :
    SplitAt cmp a' n k := by
  intro i j x y hik hkj hjn hx hy
  obtain ⟨i', hx', hi'⟩ := hr.source hlo hlen hx
  obtain ⟨j', hy', hj'⟩ := hr.source hlo hlen hy
  exact h i' j' x y (by omega) (by omega) (by omega) hx' hy'

theorem Pending.edges (h : Pending cmp n a ((lo, hi) :: ranges)) :
    SplitAt cmp a n lo ∧ SplitAt cmp a n (hi + 1) := by
  obtain ⟨hapart, -⟩ := List.pairwise_cons.mp h.apart
  have hinside := h.inside (lo, hi) List.mem_cons_self
  constructor
  all_goals
    refine h.split _ fun r hr => ?_
    rcases List.mem_cons.mp hr with rfl | hr
    · dsimp only
      omega
    · have hr' := hapart r hr
      have hrin := h.inside r (List.mem_cons_of_mem _ hr)
      dsimp only at hr' hinside
      omega

theorem Pending.sorted {a a' : List T}
    (h : Pending cmp n a ((lo, hi) :: ranges)) (hr : Rearranged lo hi a a') (hlen : n ≤ a.length)
    (hsorted : ∀ i j x y, lo ≤ i → i ≤ j → j ≤ hi → get? a' i = some x → get? a' j = some y →
      cmp x y ≤ 0) : Pending cmp n a' ranges := by
  have hinside := h.inside (lo, hi) List.mem_cons_self
  have hedges := h.edges
  dsimp only at hinside
  refine ⟨fun r hr => h.inside r (List.mem_cons_of_mem _ hr), (List.pairwise_cons.mp h.apart).2,
    fun k hk => ?_⟩
  by_cases hkin : lo < k ∧ k ≤ hi
  · intro i j x y hik hkj hjn hx hy
    by_cases hloi : lo ≤ i
    · by_cases hjhi : j ≤ hi
      · exact hsorted i j x y hloi (by omega) hjhi hx hy
      · exact hedges.2.rearranged hr (by omega) (by omega) (by omega) (by omega) i j x y (by omega)
          (by omega) hjn hx hy
    · exact hedges.1.rearranged hr (by omega) (by omega) (by omega) (by omega) i j x y (by omega)
        (by omega) hjn hx hy
  · refine (h.split k fun r hr => ?_).rearranged hr (by omega) (by omega) (by omega) hkin
    rcases List.mem_cons.mp hr with rfl | hr
    · exact hkin
    · exact hk r hr

theorem Pending.parted {a a' : List T} (hcmp : TotalPreorder cmp)
    (h : Pending cmp n a ((lo, hi) :: ranges)) (hp : Parted cmp lo hi pivot a a' j)
    (hlen : n ≤ a.length) : Pending cmp n a' ((lo, j) :: (j + 1, hi) :: ranges) := by
  have hinside := h.inside (lo, hi) List.mem_cons_self
  have hj := hp.inside
  have hedges := h.edges
  obtain ⟨hapart, hrest⟩ := List.pairwise_cons.mp h.apart
  dsimp only at hinside hapart
  refine ⟨?_, ?_, fun k hk => ?_⟩
  · intro r hr
    rcases List.mem_cons.mp hr with rfl | hr
    · exact ⟨by omega, by dsimp only; omega, by dsimp only; omega⟩
    · rcases List.mem_cons.mp hr with rfl | hr
      · exact ⟨by dsimp only; omega, by dsimp only; omega, by dsimp only; omega⟩
      · exact h.inside r (List.mem_cons_of_mem _ hr)
  · refine List.pairwise_cons.mpr ⟨fun r hr => ?_, List.pairwise_cons.mpr ⟨fun r hr => ?_, hrest⟩⟩
    · rcases List.mem_cons.mp hr with rfl | hr
      · exact .inl (by dsimp only; omega)
      · have hr' := hapart r hr
        dsimp only
        omega
    · have hr' := hapart r hr
      dsimp only
      omega
  · have hleft := hk (lo, j) List.mem_cons_self
    have hright := hk (j + 1, hi) (List.mem_cons_of_mem _ List.mem_cons_self)
    dsimp only at hleft hright
    by_cases hkin : lo < k ∧ k ≤ hi
    · -- the only place inside the range that neither part reaches across is the cut
      obtain rfl : k = j + 1 := by omega
      intro l m x y hl hm hmn hx hy
      by_cases hlol : lo ≤ l
      · by_cases hmhi : m ≤ hi
        · have hxp := hp.below l x hlol (by omega) hx
          have hyp := hp.above m y hm hmhi hy
          have hpy := hcmp.le_of_not_lt (by omega : ¬ cmp y pivot < 0)
          exact hcmp.trans x pivot y hxp hpy
        · exact hedges.2.rearranged hp.rearranged (by omega) (by omega) (by omega)
            (by omega) l m x y
            (by omega) (by omega) hmn hx hy
      · exact hedges.1.rearranged hp.rearranged (by omega) (by omega) (by omega) (by omega) l m x y
          (by omega) (by omega) hmn hx hy
    · refine (h.split k fun r hr => ?_).rearranged hp.rearranged (by omega) (by omega)
        (by omega) hkin
      rcases List.mem_cons.mp hr with rfl | hr
      · exact hkin
      · exact hk r (List.mem_cons_of_mem _ (List.mem_cons_of_mem _ hr))

theorem Pending.swap (h : Pending cmp n a (r :: r' :: ranges)) :
    Pending cmp n a (r' :: r :: ranges) := by
  have hperm : (r' :: r :: ranges).Perm (r :: r' :: ranges) := .swap ..
  refine ⟨fun s hs => h.inside s (hperm.subset hs), ?_, fun k hk => ?_⟩
  · exact hperm.symm.pairwise h.apart fun hrs => hrs.symm
  · exact h.split k fun s hs => hk s (hperm.symm.subset hs)

/-! ## The whole sort -/

/-- A range that lies below `d` others on the stack is a 2^`d`-th of the array at most. -/
def Room (n : Int) : List (Int × Int) → Prop
  | [] => True
  | r :: ranges => (r.2 - r.1 + 1) * 2 ^ ranges.length ≤ n ∧ Room n ranges

def rounds : List (Int × Int) → Nat
  | [] => 0
  | r :: ranges => (2 * (r.2 - r.1) + 1).toNat + rounds ranges

/-- The state of the sort between two rounds. -/
structure Sorting (cmp : T → T → Int) (n : Int) (a₀ : List T) (s : SortState T)
    (ranges : List (Int × Int)) : Prop where
  rearranged : Rearranged 0 (n - 1) a₀ s.a
  stack : s.ranges = ranges.flatMap fun r => [r.2, r.1]
  pending : Pending cmp n s.a ((s.lo, s.hi) :: ranges)
  room : Room n ((s.lo, s.hi) :: ranges)

theorem length_flatMap_ranges (ranges : List (Int × Int)) :
    (ranges.flatMap fun r => [r.2, r.1]).length = 2 * ranges.length := by
  induction ranges with
  | nil => rfl
  | cons r ranges ih =>
    rw [List.flatMap_cons, List.length_append, ih, List.length_cons]
    simp only [List.length_cons, List.length_nil]
    omega

theorem Room.depth (h : Room n (r :: ranges)) (hlarge : 16 ≤ r.2 - r.1) (hmax : n ≤ 2 ^ 31 - 1) :
    ranges.length < 27 := by
  by_contra hdepth
  have hpow : (2 : Int) ^ 27 ≤ 2 ^ ranges.length := by
    exact_mod_cast Nat.pow_le_pow_right (by decide : 0 < 2) (Nat.le_of_not_lt hdepth)
  have hle := Int.mul_le_mul (by omega : (17 : Int) ≤ r.2 - r.1 + 1) hpow (by decide) (by omega)
  have hroom := h.1
  omega

theorem Room.parted (h : Room n (r :: ranges)) (hsmall : 2 * (s.2 - s.1 + 1) ≤ r.2 - r.1 + 1)
    (hlarge : l.2 - l.1 ≤ r.2 - r.1) : Room n (s :: l :: ranges) := by
  obtain ⟨hr, hranges⟩ := h
  have hpos : (0 : Int) < 2 ^ ranges.length := Int.pow_pos (by decide)
  refine ⟨?_, ?_, hranges⟩
  · refine Int.le_trans ?_ hr
    rw [List.length_cons, Int.pow_succ, Int.mul_comm _ 2, ← Int.mul_assoc, Int.mul_comm _ 2]
    exact Int.mul_le_mul_of_nonneg_right hsmall (Int.le_of_lt hpos)
  · refine Int.le_trans ?_ hr
    exact Int.mul_le_mul_of_nonneg_right (by omega) (Int.le_of_lt hpos)

theorem insertionSort_range (fuel : Nat) (hcmp : TotalPreorder cmp) (a : List T) (hlo : 0 ≤ lo)
    (horder : lo ≤ hi)
    (hlen : hi < a.length) (hmax : hi < 2 ^ 31 - 1) (hfuel : (hi + 1 - lo).toNat < fuel) :
    ∃ a', insertionSort cmp fuel a lo hi = .ok a' ∧ Rearranged lo hi a a' ∧
      ∀ i j x y, lo ≤ i → i ≤ j → j ≤ hi → get? a' i = some x → get? a' j = some y →
        cmp x y ≤ 0 := by
  obtain ⟨pre, s, post, rfl, hpre, hs⟩ := exists_parts a hlo (by omega) hlen
  obtain ⟨s', hsort, hstable, hsorted⟩ := insertionSort_spec hcmp pre post
    (fun hnil => by rw [hnil, List.length_nil] at hs; omega) hpre (by omega) hmax
    (by omega : s.length < fuel)
  have hlens := hstable.perm.length_eq
  refine ⟨_, hsort, .middle hstable.perm hpre hs, fun i j x y hi hij hj hx hy => ?_⟩
  rw [get?_middle (i - lo).toNat (by omega) (by omega)] at hx
  rw [get?_middle (j - lo).toNat (by omega) (by omega)] at hy
  obtain ⟨hi', rfl⟩ := List.getElem?_eq_some_iff.mp hx
  obtain ⟨hj', rfl⟩ := List.getElem?_eq_some_iff.mp hy
  rcases Int.lt_or_eq_of_le hij with hlt | rfl
  · exact List.pairwise_iff_getElem.mp hsorted _ _ hi' hj' (by omega)
  · exact Int.le_of_eq (hcmp.refl _)

theorem sortRound_spec (fuel : Nat) (hcmp : TotalPreorder cmp) (hlen : n ≤ a₀.length)
    (hmax : n ≤ 2 ^ 31 - 1)
    (hfuel : n.toNat + 1 < fuel) (h : Sorting cmp n a₀ s ranges) :
    (∃ s' ranges', sortRound cmp fuel s = .ok (.again s') ∧ Sorting cmp n a₀ s' ranges' ∧
      rounds ((s'.lo, s'.hi) :: ranges') < rounds ((s.lo, s.hi) :: ranges)) ∨
    ∃ a, sortRound cmp fuel s = .ok (.done a) ∧ Rearranged 0 (n - 1) a₀ a ∧ Pending cmp n a [] := by
  obtain ⟨hrearranged, hstack, hpending, hroom⟩ := h
  have hlength := hrearranged.length_eq
  have hinside := hpending.inside (s.lo, s.hi) List.mem_cons_self
  dsimp only at hinside
  rw [sortRound, i32_eq (x := s.hi - s.lo) (by omega) (by omega)]
  by_cases hshort : s.hi - s.lo < 16
  · rw [if_pos hshort]
    obtain ⟨a', hsort, hr, hsorted⟩ := insertionSort_range fuel hcmp s.a hinside.1
      hinside.2.1 (by omega) (by omega) (by omega)
    have hpending' := hpending.sorted hr (by omega) hsorted
    have hrearranged' := hrearranged.trans (hr.mono (by omega : (0 : Int) ≤ s.lo) (by omega))
    rw [hsort, ok_bind, hstack]
    cases ranges with
    | nil => exact .inr ⟨a', rfl, hrearranged', hpending'⟩
    | cons r ranges =>
      refine .inl ⟨⟨a', r.1, r.2, _⟩, ranges, rfl, ⟨hrearranged', rfl, hpending', hroom.2⟩, ?_⟩
      simp only [rounds]
      omega
  · rw [if_neg hshort]
    left
    obtain ⟨a', j, pivot, hpart, hparted⟩ := partition_spec fuel hcmp s.a hinside.1
      (by omega : s.lo < s.hi) (by omega) (by omega) (by omega)
    have hj := hparted.inside
    have hrearranged' := hrearranged.trans
      (hparted.rearranged.mono (by omega : (0 : Int) ≤ s.lo) (by omega))
    have hpending' := hpending.parted hcmp hparted (by omega)
    have hdepth := hroom.depth (by dsimp only; omega) hmax
    have hstackLength : s.ranges.length = 2 * ranges.length := by
      rw [hstack, length_flatMap_ranges]
    have hpush : ∀ x y, push s.ranges x = .ok (x :: s.ranges) ∧
        push (x :: s.ranges) y = .ok (y :: x :: s.ranges) := fun x y =>
      ⟨if_pos (by omega), if_pos (by rw [List.length_cons]; omega)⟩
    rw [hpart, ok_bind]
    dsimp only
    rw [i32_eq (x := j - s.lo) (by omega) (by omega), i32_eq (x := s.hi - j) (by omega) (by omega),
      i32_eq (x := s.hi - j - 1) (by omega) (by omega), i32_eq (x := j + 1) (by omega) (by omega)]
    by_cases hleft : j - s.lo > s.hi - j - 1
    · rw [if_pos hleft, (hpush s.lo j).1, ok_bind, (hpush s.lo j).2, ok_bind]
      refine ⟨_, (s.lo, j) :: ranges, rfl, ⟨hrearranged', ?_, hpending'.swap, ?_⟩, ?_⟩
      · rw [hstack]
        rfl
      · exact hroom.parted (by dsimp only; omega) (by dsimp only; omega)
      · simp only [rounds]
        omega
    · rw [if_neg hleft, (hpush (j + 1) s.hi).1, ok_bind, (hpush (j + 1) s.hi).2, ok_bind]
      refine ⟨_, (j + 1, s.hi) :: ranges, rfl, ⟨hrearranged', ?_, hpending', ?_⟩, ?_⟩
      · rw [hstack]
        rfl
      · exact hroom.parted (by dsimp only; omega) (by dsimp only; omega)
      · simp only [rounds]
        omega

theorem Pending.sorted_take {a : List T} (h : Pending cmp n a []) (hlen : n ≤ a.length) :
    Sorted cmp (a.take n.toNat) := by
  refine List.pairwise_iff_getElem.mpr fun i j hi hj hij => ?_
  rw [List.length_take] at hi hj
  rw [List.getElem_take, List.getElem_take]
  refine h.split j (fun r hr => absurd hr List.not_mem_nil) i j _ _ (by omega) (by omega) (by omega)
    ?_ ?_
  · rw [get?_natCast, List.getElem?_eq_getElem]
  · rw [get?_natCast, List.getElem?_eq_getElem]

theorem take_drop_of_rearranged {a a' : List T} (h : Rearranged 0 (n - 1) a a') (h0 : 0 ≤ n)
    (hlen : n ≤ a.length) :
    (a'.take n.toNat).Perm (a.take n.toNat) ∧ a'.drop n.toNat = a.drop n.toNat := by
  have htake : (a.take n.toNat).length = n.toNat := by
    rw [List.length_take]
    omega
  have hparts : a = [] ++ a.take n.toNat ++ a.drop n.toNat := by
    rw [List.nil_append, List.take_append_drop]
  obtain ⟨s', hparts', hperm⟩ := h.range rfl (by rw [htake, List.length_nil]; omega) hparts
  rw [List.nil_append] at hparts'
  have hlen' : s'.length = n.toNat := hperm.length_eq.trans htake
  subst hparts'
  exact ⟨by rw [List.take_left' hlen']; exact hperm, List.drop_left' hlen'⟩

/-- The quicksort sorts the first `n` elements; every access, and in a partition every access of the
scans, is inside of the range in work, and the range stack has room. Both parts of a partition are
smaller than the range. -/
theorem sort_sorts (hcmp : TotalPreorder cmp) (a : List T) (n : Int) (hlen : n ≤ a.length)
    (hmax : n ≤ 2 ^ 31 - 1) (hfuel : 2 * n.toNat + 2 ≤ fuel) :
    (∃ a', sort cmp fuel a n = .ok a' ∧ (a'.take n.toNat).Perm (a.take n.toNat) ∧
      Sorted cmp (a'.take n.toNat) ∧ a'.drop n.toNat = a.drop n.toNat) ∧
    ∀ (b : List T) (lo hi : Int), b.length = a.length → 0 ≤ lo → lo < hi → hi < n →
      ∃ b' j, partition cmp fuel b lo hi = .ok (b', j) ∧
        j - lo + 1 < hi - lo + 1 ∧ hi - j < hi - lo + 1 := by
  constructor
  · by_cases hn : n < 2
    · refine ⟨a, if_pos hn, .refl _, List.pairwise_iff_getElem.mpr fun i j hi hj hij => ?_, rfl⟩
      rw [List.length_take] at hi hj
      omega
    · rw [sort, if_neg hn, i32_eq (by omega) (by omega)]
      have hstart : Sorting cmp n a ⟨a, 0, n - 1, []⟩ [] := by
        refine ⟨.refl a, rfl, ⟨fun r hr => ?_, List.pairwise_singleton _ _, fun k hk => ?_⟩,
          ⟨?_, trivial⟩⟩
        · rw [List.mem_singleton.mp hr]
          exact ⟨Int.le_refl 0, by dsimp only; omega, by dsimp only; omega⟩
        · intro i j x y hik hkj hjn hx hy
          have hk' := hk (0, n - 1) (List.mem_singleton_self _)
          have hi := get?_lt hx
          dsimp only at hk'
          omega
        · simp only [List.length_nil, Int.pow_zero]
          omega
      have hloop : ∃ a', loop .outOfFuel (sortRound cmp fuel) fuel ⟨a, 0, n - 1, []⟩ = .ok a' ∧
          Rearranged 0 (n - 1) a a' ∧ Pending cmp n a' [] := by
        refine loop_ok_ranked
          (I := fun m st => ∃ ranges, Sorting cmp n a st ranges ∧
            rounds ((st.lo, st.hi) :: ranges) = m)
          (fun m st hst => ?_) ⟨[], hstart, rfl⟩ ?_
        · obtain ⟨ranges, hst, rfl⟩ := hst
          rcases sortRound_spec fuel hcmp hlen hmax (by omega) hst with
            ⟨st', ranges', hbody, hst', hlt⟩ | hdone
          · exact .inl ⟨_, st', hbody, ⟨ranges', hst', rfl⟩, hlt⟩
          · exact .inr hdone
        · simp only [rounds]
          omega
      obtain ⟨a', hsort, hr, hpending⟩ := hloop
      obtain ⟨hperm, hdrop⟩ := take_drop_of_rearranged hr (by omega) hlen
      have hlength := hr.length_eq
      exact ⟨a', hsort, hperm, hpending.sorted_take (by omega), hdrop⟩
  · intro b lo hi hb hlo horder hhi
    obtain ⟨b', j, pivot, hpart, hparted⟩ := partition_spec fuel hcmp b hlo horder
      (by omega) (by omega) (by omega)
    have hj := hparted.inside
    exact ⟨b', j, hpart, by omega, by omega⟩

/-- Five numbers, two of them alike, and one behind the range. -/
theorem sort_five : (∃ a', sort natural 12 [5, 3, 8, 3, 1, 0] 5 = .ok a' ∧
      (a'.take 5).Perm [5, 3, 8, 3, 1] ∧ Sorted natural (a'.take 5) ∧ a'.drop 5 = [0]) ∧
    ∀ (b : List Int) (lo hi : Int), b.length = 6 → 0 ≤ lo → lo < hi → hi < 5 →
      ∃ b' j, partition natural 12 b lo hi = .ok (b', j) ∧
        j - lo + 1 < hi - lo + 1 ∧ hi - j < hi - lo + 1 :=
  sort_sorts natural_totalPreorder [5, 3, 8, 3, 1, 0] 5 (by decide) (by decide) (by decide)

end Cajeta.Collection.Sort
