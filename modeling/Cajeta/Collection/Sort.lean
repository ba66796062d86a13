import Cajeta.Lib.Cells
import Cajeta.Lib.Result
import Cajeta.Lib.While
import Cajeta.Lib.StableOrder

/-!
# Sorting by a comparator

The quicksort and the merge sort over an array and a comparator. Indices are 32-bit integers that
wrap around. Every access is checked against the range that the algorithm works on, so that an
access outside of it is a fault of the run.
-/

namespace Cajeta.Collection.Sort
open Cells Except While

/-- Why a sort stops early. -/
inductive SortFault where
  /-- an index outside of the range in work -/
  | outside
  /-- the range stack is full, or it is taken from when it is empty -/
  | stack
  | outOfFuel
  deriving DecidableEq

abbrev SortM := Except SortFault

/-- `a[i]`, where only `lo..hi` may be read. -/
def read (lo hi : Int) (a : List T) (i : Int) : SortM T :=
  if lo ≤ i ∧ i ≤ hi then orThrow (get? a i) .outside else .error .outside

/-- `a[i] = x`, where only `lo..hi` may be written. -/
def write (lo hi : Int) (a : List T) (i : Int) (x : T) : SortM (List T) :=
  if (lo ≤ i ∧ i ≤ hi) ∧ 0 ≤ i ∧ i < a.length then .ok (set a i x) else .error .outside

def exchange (lo hi : Int) (a : List T) (i j : Int) : SortM (List T) := do
  let ai ← read lo hi a i
  let aj ← read lo hi a j
  let a ← write lo hi a i aj
  write lo hi a j ai

section

variable {T : Type} (cmp : T → T → Int) (fuel : Nat)

/-- Moves the elements that `key` precedes one place up. -/
def shift (lo hi : Int) (key : T) : List T × Int → SortM (Next (List T × Int) (List T × Int))
  | (a, jj) =>
    if jj > lo then do
      let prev ← read lo hi a (i32 (jj - 1))
      if cmp key prev < 0 then do
        let moved ← read lo hi a (i32 (jj - 1))
        let a ← write lo hi a jj moved
        return .again (a, i32 (jj - 1))
      else return .done (a, jj)
    else return .done (a, jj)

def insertNext (lo hi : Int) : List T × Int → SortM (Next (List T × Int) (List T))
  | (a, ii) =>
    if ii ≤ hi then do
      let key ← read lo hi a ii
      let (a, jj) ← loop .outOfFuel (shift cmp lo hi key) fuel (a, ii)
      let a ← write lo hi a jj key
      return .again (a, i32 (ii + 1))
    else return .done a

/-- Both sorts carry this loop for `a[lo..hi]`. -/
def insertionSort (a : List T) (lo hi : Int) : SortM (List T) :=
  loop .outOfFuel (insertNext cmp fuel lo hi) fuel (a, i32 (lo + 1))

def scanUp (lo hi : Int) (a : List T) (pivot : T) (i : Int) : SortM (Next Int Int) := do
  let i := i32 (i + 1)
  let x ← read lo hi a i
  return if cmp x pivot ≥ 0 then .done i else .again i

def scanDown (lo hi : Int) (a : List T) (pivot : T) (j : Int) : SortM (Next Int Int) := do
  let j := i32 (j - 1)
  let x ← read lo hi a j
  return if cmp x pivot ≤ 0 then .done j else .again j

def partitionRound (lo hi : Int) (pivot : T) :
    List T × Int × Int → SortM (Next (List T × Int × Int) (List T × Int))
  | (a, i, j) => do
    let i ← loop .outOfFuel (scanUp cmp lo hi a pivot) fuel i
    let j ← loop .outOfFuel (scanDown cmp lo hi a pivot) fuel j
    if i ≥ j then return .done (a, j)
    else do
      let a ← exchange lo hi a i j
      return .again (a, i, j)

def medianOfThree (lo mid hi : Int) (x y z : T) : Int :=
  if cmp x y < 0 then
    if cmp y z < 0 then mid else if cmp x z < 0 then hi else lo
  else
    if cmp x z < 0 then lo else if cmp y z < 0 then hi else mid

/-- Splits `a[lo..hi]` behind the index that is returned. -/
def partition (a : List T) (lo hi : Int) : SortM (List T × Int) := do
  let mid := i32 (lo + (i32 (hi - lo)).tdiv 2)
  let x ← read lo hi a lo
  let y ← read lo hi a mid
  let z ← read lo hi a hi
  let mp := medianOfThree cmp lo mid hi x y z
  let a ← exchange lo hi a lo mp
  let pivot ← read lo hi a lo
  loop .outOfFuel (partitionRound cmp fuel lo hi pivot) fuel (a, i32 (lo - 1), i32 (hi + 1))

/-- The array, the range in work and the stack of pending ranges, its top first. -/
structure SortState (T : Type) where
  a : List T
  lo : Int
  hi : Int
  ranges : List Int

def push (ranges : List Int) (x : Int) : SortM (List Int) :=
  if ranges.length < 128 then .ok (x :: ranges) else .error .stack

def sortRound (s : SortState T) : SortM (Next (SortState T) (List T)) :=
  if i32 (s.hi - s.lo) < 16 then do
    let a ← insertionSort cmp fuel s.a s.lo s.hi
    match s.ranges with
    | [] => return .done a
    | hi :: lo :: ranges => return .again { a, lo, hi, ranges }
    | [_] => throw .stack
  else do
    let (a, j) ← partition cmp fuel s.a s.lo s.hi
    let leftSize := i32 (j - s.lo)
    let rightSize := i32 (i32 (s.hi - j) - 1)
    if leftSize > rightSize then do
      let ranges ← push s.ranges s.lo
      let ranges ← push ranges j
      return .again { a, lo := i32 (j + 1), hi := s.hi, ranges }
    else do
      let ranges ← push s.ranges (i32 (j + 1))
      let ranges ← push ranges s.hi
      return .again { a, lo := s.lo, hi := j, ranges }

def sort (a : List T) (n : Int) : SortM (List T) :=
  if n < 2 then .ok a
  else loop .outOfFuel (sortRound cmp fuel) fuel { a, lo := 0, hi := i32 (n - 1), ranges := [] }

/-! ## Merge sort -/

def blk : Int := 32

/-- Follows a strictly descending prefix of a block. -/
def descend (start stop : Int) (a : List T) (runEnd : Int) : SortM (Next Int Int) :=
  if runEnd < stop then do
    let x ← read start (stop - 1) a runEnd
    let y ← read start (stop - 1) a (i32 (runEnd - 1))
    return if cmp x y < 0 then .again (i32 (runEnd + 1)) else .done runEnd
  else return .done runEnd

def reverseRound (start stop : Int) :
    List T × Int × Int → SortM (Next (List T × Int × Int) (List T))
  | (a, lo2, hi2) =>
    if lo2 < hi2 then do
      let a ← exchange start (stop - 1) a lo2 hi2
      return .again (a, i32 (lo2 + 1), i32 (hi2 - 1))
    else return .done a

/-- The reversal of a block's descending prefix. -/
def reversePrefix (start stop : Int) (a : List T) : SortM (List T) := do
  let runEnd := i32 (start + 1)
  if runEnd < stop then do
    let x ← read start (stop - 1) a runEnd
    let y ← read start (stop - 1) a start
    if cmp x y < 0 then do
      let runEnd ← loop .outOfFuel (descend cmp start stop a) fuel runEnd
      loop .outOfFuel (reverseRound start stop) fuel (a, start, i32 (runEnd - 1))
    else return a
  else return a

def blockRound (n : Int) : List T × Int → SortM (Next (List T × Int) (List T))
  | (a, start) =>
    if start < n then do
      let stop := i32 (start + blk)
      let stop := if stop > n then n else stop
      let a ← reversePrefix cmp fuel start stop a
      let a ← insertionSort cmp fuel a start (stop - 1)
      return .again (a, stop)
    else return .done a

/-- The merge of `src[left..mid)` and `src[mid..right)` until one of them is used up. -/
def mergeRound (n : Int) (src : List T) (mid right : Int) :
    List T × Int × Int × Int → SortM (Next (List T × Int × Int × Int) (List T × Int × Int × Int))
  | (dst, li, ri, k) =>
    if li < mid ∧ ri < right then do
      let lv ← read 0 (n - 1) src li
      let rv ← read 0 (n - 1) src ri
      if cmp rv lv < 0 then do
        let dst ← write 0 (n - 1) dst k rv
        return .again (dst, li, i32 (ri + 1), i32 (k + 1))
      else do
        let dst ← write 0 (n - 1) dst k lv
        return .again (dst, i32 (li + 1), ri, i32 (k + 1))
    else return .done (dst, li, ri, k)

/-- The copy of `src[li..stop)` to `dst` from `k` on. -/
def copyRound (n : Int) (src : List T) (stop : Int) :
    List T × Int × Int → SortM (Next (List T × Int × Int) (List T × Int))
  | (dst, li, k) =>
    if li < stop then do
      let x ← read 0 (n - 1) src li
      let dst ← write 0 (n - 1) dst k x
      return .again (dst, i32 (li + 1), i32 (k + 1))
    else return .done (dst, k)

def mergePair (n : Int) (src : List T) (left mid right : Int) (dst : List T) : SortM (List T) := do
  let (dst, li, ri, k) ← loop .outOfFuel (mergeRound cmp n src mid right) fuel (dst, left,
    mid, left)
  let (dst, k) ← loop .outOfFuel (copyRound n src mid) fuel (dst, li, k)
  let (dst, _) ← loop .outOfFuel (copyRound n src right) fuel (dst, ri, k)
  return dst

def passRound (n width : Int) (src : List T) : List T × Int → SortM (Next (List T × Int) (List T))
  | (dst, i) =>
    if i < n then do
      let mid := i32 (i + width)
      let mid := if mid > n then n else mid
      let right := i32 (i32 (i + width) + width)
      let right := if right > n then n else right
      let dst ← mergePair cmp fuel n src i mid right dst
      return .again (dst, i32 (i32 (i + width) + width))
    else return .done dst

/-- One pass, from the array that holds the runs to the other one. -/
structure MergeState (T : Type) where
  a : List T
  buf : List T
  dataInA : Bool
  width : Int

def widthRound (n : Int) (s : MergeState T) : SortM (Next (MergeState T) (MergeState T)) :=
  if s.width < n then do
    let src := if s.dataInA then s.a else s.buf
    let dst := if s.dataInA then s.buf else s.a
    let dst ← loop .outOfFuel (passRound cmp fuel n s.width src) fuel (dst, 0)
    return .again { a := if s.dataInA then s.a else dst, buf := if s.dataInA then dst else s.buf,
                    dataInA := !s.dataInA, width := i32 (s.width + s.width) }
  else return .done s

/-- `fresh` is the content of the second array as it is allocated. -/
def sortStable (a : List T) (n : Int) (fresh : List T) : SortM (List T) :=
  if n < 2 then .ok a
  else do
    let a ← loop .outOfFuel (blockRound cmp fuel n) fuel (a, 0)
    if blk ≥ n then return a
    else do
      let s ← loop .outOfFuel (widthRound cmp fuel n)
        fuel { a, buf := fresh, dataInA := true, width := blk }
      if s.dataInA then return s.a
      else do
        let (a, _) ← loop .outOfFuel (copyRound n s.buf n) fuel (s.a, 0, 0)
        return a

/-- The comparator of the entry points that take none. -/
def natural (x y : Int) : Int := if x < y then -1 else if x > y then 1 else 0

end

/-!
## Insertion sort of a range

The loop that both sorts end their recursion with. The range stays a list between two others that
are not looked at: its front is sorted, and the next element moves down to its place there.
-/
open StableOrder

section

variable {i j lo hi top : Int}

theorem read_eq {a : List T} (h : get? a i = some x) (hlo : lo ≤ i) (hhi : i ≤ hi) :
    read lo hi a i = .ok x := by
  rw [read, if_pos ⟨hlo, hhi⟩, h]
  rfl

theorem write_eq {a : List T} (h0 : 0 ≤ i) (hlen : i < a.length) (hlo : lo ≤ i) (hhi : i ≤ hi) :
    write lo hi a i x = .ok (set a i x) := if_pos ⟨⟨hlo, hhi⟩, h0, hlen⟩

theorem exchange_eq {a : List T} (hi : get? a i = some x) (hj : get? a j = some y)
    (hilo : lo ≤ i ∧ i ≤ top) (hjlo : lo ≤ j ∧ j ≤ top) :
    exchange lo top a i j = .ok (set (set a i y) j x) := by
  have hilt := get?_lt hi
  have hjlt := get?_lt hj
  rw [exchange, read_eq hi hilo.1 hilo.2, ok_bind, read_eq hj hjlo.1 hjlo.2, ok_bind,
    write_eq hilt.1 hilt.2 hilo.1 hilo.2, ok_bind,
    write_eq hjlt.1 (by rw [length_set]; exact hjlt.2) hjlo.1 hjlo.2]

end

section

variable {T : Type} {cmp : T → T → Int} {pre post s : List T} {key : T} {lo hi ii jj : Int}

/-- The sorted front `s` has a hole where `key` may go: the elements above are those that `key`
precedes, and there are two copies of one of them. -/
structure Hole (cmp : T → T → Int) (pre s post : List T) (key : T) (a : List T) (jj : Int)
    (u v : List T) : Prop where
  array : ∃ x, a = pre ++ u ++ x :: (v ++ post)
  place : jj = (pre ++ u).length
  parts : u ++ v = s
  above : ∀ y ∈ v, cmp key y < 0

theorem shift_round (hcmp : TotalPreorder cmp) (hs : Sorted cmp s) (hlo : lo = pre.length)
    (hhi : lo + s.length ≤ hi) (hmax : hi < 2 ^ 31) (h : Hole cmp pre s post key a jj u v) :
    (∃ a' jj' u' v', shift cmp lo hi key (a, jj) = .ok (.again (a', jj')) ∧
      Hole cmp pre s post key a' jj' u' v' ∧ (jj' - lo).toNat < (jj - lo).toNat) ∨
    shift cmp lo hi key (a, jj) = .ok (.done (a, jj)) ∧ ∀ y ∈ u, cmp y key ≤ 0 := by
  obtain ⟨⟨x, rfl⟩, rfl, rfl, habove⟩ := h
  simp only [List.length_append] at hhi ⊢
  rcases List.eq_nil_or_concat u with rfl | ⟨u, prev, rfl⟩
  · right
    refine ⟨?_, fun y hy => absurd hy List.not_mem_nil⟩
    rw [shift, if_neg (by simp [hlo])]
    rfl
  · rw [List.concat_eq_append] at hs hhi ⊢
    simp only [List.length_append, List.length_singleton] at hhi ⊢
    have hread : read lo hi (pre ++ (u ++ [prev]) ++ x :: (v ++ post))
        (i32 (↑(pre.length + (u.length + 1)) - 1)) = .ok prev := by
      rw [i32_eq (by omega) (by omega)]
      refine read_eq ?_ (by omega) (by omega)
      rw [← List.append_assoc pre u, List.append_assoc (pre ++ u)]
      exact get?_append_cons (by simp; omega)
    rw [shift, if_pos (by omega), hread, ok_bind]
    by_cases hkey : cmp key prev < 0
    · left
      rw [if_pos hkey, ok_bind, write_eq (by omega)
        (by simp only [List.length_append, List.length_cons]; omega) (by omega) (by omega), ok_bind,
        set_append_cons (by simp), i32_eq (by omega) (by omega)]
      refine ⟨_, _, u, prev :: v, rfl, ⟨⟨prev, ?_⟩, ?_, ?_, ?_⟩, by omega⟩
      · simp only [List.append_assoc, List.cons_append, List.nil_append]
      · rw [List.length_append]
        omega
      · simp only [List.append_assoc, List.cons_append, List.nil_append]
      · intro y hy
        rcases List.mem_cons.mp hy with rfl | hy
        · exact hkey
        · exact habove y hy
    · right
      rw [if_neg hkey]
      refine ⟨rfl, ?_⟩
      exact Sorted.le_last hcmp (List.pairwise_append.mp hs).1 (hcmp.le_of_not_lt hkey)

theorem shift_loop (fuel : Nat) (hcmp : TotalPreorder cmp) (key : T) (post : List T)
    (hs : Sorted cmp s) (hlo : lo = pre.length)
    (hhi : lo + s.length ≤ hi) (hmax : hi < 2 ^ 31) (hfuel : s.length < fuel) :
    ∃ a' jj u v, loop .outOfFuel (shift cmp lo hi key) fuel
        (pre ++ s ++ key :: post, lo + s.length) = .ok (a', jj) ∧
      Hole cmp pre s post key a' jj u v ∧ ∀ y ∈ u, cmp y key ≤ 0 := by
  have hstart : Hole cmp pre s post key (pre ++ s ++ key :: post) (lo + s.length) s [] :=
    ⟨⟨key, rfl⟩, by rw [List.length_append]; omega, List.append_nil s,
      fun y hy => absurd hy List.not_mem_nil⟩
  have hloop : ∃ st, loop .outOfFuel (shift cmp lo hi key) fuel
      (pre ++ s ++ key :: post, lo + s.length) = .ok st ∧
      ∃ u v, Hole cmp pre s post key st.1 st.2 u v ∧ ∀ y ∈ u, cmp y key ≤ 0 := by
    refine loop_ok (I := fun st => ∃ u v, Hole cmp pre s post key st.1 st.2 u v)
      (fun st => (st.2 - lo).toNat) (fun st hst => ?_) ⟨s, [], hstart⟩ (by dsimp only; omega)
    obtain ⟨u, v, hst⟩ := hst
    rcases shift_round hcmp hs hlo hhi hmax hst with ⟨a', jj', u', v', hbody, hst', hlt⟩ | hdone
    · exact .inl ⟨(a', jj'), hbody, ⟨u', v', hst'⟩, hlt⟩
    · exact .inr ⟨st, hdone.1, u, v, hst, hdone.2⟩
  obtain ⟨⟨a', jj⟩, hloop, u, v, hhole, hbelow⟩ := hloop
  exact ⟨a', jj, u, v, hloop, hhole, hbelow⟩

structure Front (cmp : T → T → Int) (pre s post : List T) (a : List T) (ii : Int)
    (front todo : List T) : Prop where
  array : a = pre ++ (front ++ todo) ++ post
  place : ii = (pre ++ front).length
  sorted : Sorted cmp front
  stable : Stable cmp s (front ++ todo)

theorem insertNext_round (hcmp : TotalPreorder cmp) (hlo : lo = pre.length)
    (hhi : hi = lo + s.length - 1) (hmax : hi < 2 ^ 31 - 1) (hfuel : s.length < fuel)
    (h : Front cmp pre s post a ii front todo) :
    (∃ a' ii' front' todo', insertNext cmp fuel lo hi (a, ii) = .ok (.again (a', ii')) ∧
      Front cmp pre s post a' ii' front' todo' ∧ (hi + 1 - ii').toNat < (hi + 1 - ii).toNat) ∨
    insertNext cmp fuel lo hi (a, ii) = .ok (.done a) ∧ todo = [] := by
  obtain ⟨rfl, rfl, hsorted, hstable⟩ := h
  have hlen := hstable.perm.length_eq
  rw [List.length_append] at hlen
  cases todo with
  | nil =>
    right
    rw [insertNext, if_neg (by rw [List.length_append, List.length_nil] at *; omega)]
    exact ⟨rfl, rfl⟩
  | cons key todo =>
    left
    rw [List.length_cons] at hlen
    have harray : pre ++ (front ++ key :: todo) ++ post = pre ++ front ++
      key :: (todo ++ post) := by
      simp only [List.append_assoc, List.cons_append]
    have hplace : ((pre ++ front).length : Int) = lo + front.length := by
      rw [List.length_append]
      omega
    obtain ⟨_, _, u, v, hloop, ⟨⟨x, rfl⟩, rfl, hparts, habove⟩, hbelow⟩ :=
      shift_loop fuel hcmp key (todo ++ post) hsorted hlo
        (by omega : lo + front.length ≤ hi) (by omega) (by omega)
    have hlenParts := congrArg List.length hparts
    rw [List.length_append] at hlenParts
    rw [insertNext, hplace, if_pos (by omega), harray,
      read_eq (get?_append_cons hplace.symm) (by omega) (by omega), ok_bind, hloop, ok_bind]
    dsimp only
    rw [write_eq (by omega) (by simp only [List.length_append, List.length_cons]; omega)
      (by rw [List.length_append]; omega) (by rw [List.length_append]; omega), ok_bind,
      set_append_cons rfl, i32_eq (by omega) (by omega)]
    refine ⟨_, _, u ++ key :: v, todo, rfl, ⟨?_, ?_, ?_, ?_⟩, by omega⟩
    · simp only [List.append_assoc, List.cons_append]
    · simp only [List.length_append, List.length_cons]
      omega
    · exact Sorted.insert (by rw [hparts]; exact hsorted) hbelow habove
    · refine hstable.trans ?_
      have hmove : front ++ key :: todo = u ++ (v ++ [key]) ++ todo := by
        rw [← hparts]
        simp only [List.append_assoc, List.cons_append, List.nil_append]
      rw [hmove]
      exact ((Stable.refl u).append (Stable.moveLeft hcmp habove)).append (Stable.refl todo)

theorem insertionSort_spec (hcmp : TotalPreorder cmp) (pre post : List T) (hs : s ≠ [])
    (hlo : lo = pre.length)
    (hhi : hi = lo + s.length - 1) (hmax : hi < 2 ^ 31 - 1) (hfuel : s.length < fuel) :
    ∃ s', insertionSort cmp fuel (pre ++ s ++ post) lo hi = .ok (pre ++ s' ++ post) ∧
      Stable cmp s s' ∧ Sorted cmp s' := by
  obtain ⟨x, rest, rfl⟩ := List.exists_cons_of_ne_nil hs
  rw [List.length_cons] at hhi hfuel
  have hstart : Front cmp pre (x :: rest) post (pre ++ (x :: rest) ++ post) (i32 (lo + 1))
    [x] rest := by
    refine ⟨rfl, ?_, List.pairwise_singleton _ _, Stable.refl _⟩
    rw [i32_eq (by omega) (by omega), List.length_append, List.length_singleton]
    omega
  have hloop : ∃ a, loop .outOfFuel (insertNext cmp fuel lo hi) fuel
      (pre ++ (x :: rest) ++ post, i32 (lo + 1)) = .ok a ∧
      ∃ ii front, Front cmp pre (x :: rest) post a ii front [] := by
    refine loop_ok
      (I := fun st => ∃ front todo, Front cmp pre (x :: rest) post st.1 st.2 front todo)
      (fun st => (hi + 1 - st.2).toNat) (fun st hst => ?_) ⟨[x], rest, hstart⟩
      (by dsimp only; rw [i32_eq (by omega) (by omega)]; omega)
    obtain ⟨front, todo, hst⟩ := hst
    rcases insertNext_round hcmp hlo (by rw [List.length_cons]; omega) hmax
      (by rw [List.length_cons]; omega) hst with ⟨a', ii', front', todo', hbody, hst', hlt⟩ | hdone
    · exact .inl ⟨(a', ii'), hbody, ⟨front', todo', hst'⟩, hlt⟩
    · exact .inr ⟨st.1, hdone.1, st.2, front, hdone.2 ▸ hst⟩
  obtain ⟨a', hloop, ii, front, ⟨rfl, -, hsorted, hstable⟩⟩ := hloop
  rw [List.append_nil] at hloop hstable
  exact ⟨front, hloop, hstable, hsorted⟩

theorem natural_totalPreorder : TotalPreorder natural := by
  constructor
  · intro x y
    unfold natural
    split_ifs <;> omega
  · intro x y z
    unfold natural
    split_ifs <;> omega

end

end Cajeta.Collection.Sort
