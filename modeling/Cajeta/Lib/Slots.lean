import Mathlib.Data.List.Basic
import Mathlib.Data.List.Induction
import Mathlib.Tactic.Common

/-!
# Arrays of which a front part is in use

The loops that search such an array, move its elements up by one, and copy a range of another array
into it. A read or a write beyond the array has no result.
-/

namespace Slots
variable {α : Type}

def store (xs : List α) (i : Nat) (x : α) : Option (List α) :=
  if i < xs.length then some (xs.set i x) else none

/-- Counts on from `i` while the element satisfies `p`, over `rem` elements at most. -/
def firstIndex (p : α → Bool) (xs : List α) (i : Nat) : (rem : Nat) → Option Nat
  | 0 => some i
  | rem + 1 => do
    let x ← xs[i]?
    if p x then firstIndex p xs (i + 1) rem else some i

/-- Reads `rem` elements from `i` on. -/
def readFrom (xs : List α) (i : Nat) : (rem : Nat) → Option (List α)
  | 0 => some []
  | rem + 1 => do
    let x ← xs[i]?
    return x :: (← readFrom xs (i + 1) rem)

/-- Writes the elements of `ys` from `i` on. -/
def writeFrom (xs : List α) (i : Nat) : (ys : List α) → Option (List α)
  | [] => some xs
  | y :: ys => do writeFrom (← store xs i y) (i + 1) ys

/-- Moves the elements from `pos` up to `j` up by one, the last first. -/
def shiftUp (xs : List α) (pos : Nat) : (j : Nat) → Option (List α)
  | 0 => some xs
  | j + 1 =>
    if pos < j + 1 then do
      let x ← xs[j]?
      shiftUp (← store xs (j + 1) x) pos j
    else some xs

/-- Copies `rem` elements of `src` from `off + k` on to `dst` from `k` on. -/
def copyFrom (src : List α) (off : Nat) (dst : List α) (k : Nat) : (rem : Nat) → Option (List α)
  | 0 => some dst
  | rem + 1 => do
    let x ← src[off + k]?
    copyFrom src off (← store dst k x) (k + 1) rem

/-- Moves the elements from `pos` on up by one and writes `x` there, when `n` are in use. -/
def insertAt (xs : List α) (n pos : Nat) (x : α) : Option (List α) := do
  store (← shiftUp xs pos n) pos x

theorem store_length (A : List α) (y x : α) (B : List α) :
    store (A ++ y :: B) A.length x = some (A ++ x :: B) := by
  simp [store]

theorem store_prefix {A B xs : List α} (y : α) (h : A ++ x :: B <+: xs) :
    ∃ ys, store xs A.length y = some ys ∧ A ++ y :: B <+: ys ∧ ys.length = xs.length := by
  obtain ⟨rest, rfl⟩ := h
  refine ⟨A ++ y :: (B ++ rest), ?_, ⟨rest, by simp⟩, by simp⟩
  rw [List.append_assoc, List.cons_append]
  exact store_length ..

theorem getElem?_of_start {A B xs : List α} (h : A ++ x :: B <+: xs) :
    xs[A.length]? = some x := by
  obtain ⟨rest, rfl⟩ := h
  simp

theorem firstIndex_append (p : α → Bool) (A B C : List α) :
    firstIndex p (A ++ B ++ C) A.length B.length = some (A.length + (B.takeWhile p).length) := by
  induction B generalizing A with
  | nil => rfl
  | cons b B ih =>
    have hget : (A ++ b :: B ++ C)[A.length]? = some b := by simp
    have hrest := ih (A ++ [b])
    simp only [List.append_assoc, List.length_append, List.length_singleton, List.cons_append,
      List.nil_append] at hrest
    simp only [List.append_assoc, List.cons_append] at hget ⊢
    simp only [List.length_cons, firstIndex, hget, List.takeWhile_cons, Option.bind_eq_bind,
      Option.bind_some]
    split
    · rw [hrest, List.length_cons]
      congr 1
      omega
    · rfl

theorem firstIndex_prefix (p : α → Bool) {live xs : List α} (h : live <+: xs) :
    firstIndex p xs 0 live.length = some (live.takeWhile p).length := by
  obtain ⟨rest, rfl⟩ := h
  simpa using firstIndex_append p [] live rest

theorem readFrom_append (A B C : List α) :
    readFrom (A ++ B ++ C) A.length B.length = some B := by
  induction B generalizing A with
  | nil => rfl
  | cons b B ih =>
    have hget : (A ++ b :: B ++ C)[A.length]? = some b := by simp
    have hrest := ih (A ++ [b])
    simp only [List.append_assoc, List.length_append, List.length_singleton, List.cons_append,
      List.nil_append] at hrest
    simp only [List.append_assoc, List.cons_append] at hget ⊢
    simp only [List.length_cons, readFrom, hget, hrest, Option.bind_eq_bind, Option.bind_some]
    rfl

theorem readFrom_eq_some {xs ys : List α} (h : readFrom xs i n = some ys) :
    ys.length = n ∧ ∀ j < n, ys[j]? = xs[i + j]? := by
  induction n generalizing i ys with
  | zero =>
    cases h
    exact ⟨rfl, by simp⟩
  | succ n ih =>
    simp only [readFrom, Option.bind_eq_bind, Option.bind_eq_some_iff] at h
    obtain ⟨x, hx, zs, hzs, heq⟩ := h
    cases heq
    obtain ⟨hlen, hget⟩ := ih hzs
    refine ⟨congrArg (· + 1) hlen, fun j hj => ?_⟩
    cases j with
    | zero => exact hx.symm
    | succ j =>
      rw [List.getElem?_cons_succ, hget j (by omega)]
      congr 1
      omega

theorem getD_of_readFrom {xs ys : List α} (h : readFrom xs i n = some ys) (hj : j < n) (z : α) :
    ys.getD j z = xs.getD (i + j) z := by
  rw [List.getD_eq_getElem?_getD, List.getD_eq_getElem?_getD, (readFrom_eq_some h).2 j hj]

theorem exists_readFrom {xs : List α} (h : i + n ≤ xs.length) :
    ∃ ys, readFrom xs i n = some ys := by
  refine ⟨(xs.drop i).take n, ?_⟩
  have hread := readFrom_append (xs.take i) ((xs.drop i).take n) ((xs.drop i).drop n)
  have hall : xs.take i ++ (xs.drop i).take n ++ (xs.drop i).drop n = xs := by
    rw [List.append_assoc, List.take_append_drop, List.take_append_drop]
  have hi : (xs.take i).length = i := List.length_take_of_le (by omega)
  have hn : ((xs.drop i).take n).length = n := List.length_take_of_le (by
    rw [List.length_drop]
    omega)
  rwa [hall, hi, hn] at hread

theorem readFrom_prefix {live xs : List α} (h : live <+: xs) :
    readFrom xs 0 live.length = some live := by
  obtain ⟨rest, rfl⟩ := h
  simpa using readFrom_append [] live rest

theorem writeFrom_append (A X B : List α) (ys : List α) (h : X.length = ys.length) :
    writeFrom (A ++ X ++ B) A.length ys = some (A ++ ys ++ B) := by
  induction ys generalizing A X with
  | nil =>
    obtain rfl := List.length_eq_zero_iff.mp h
    rfl
  | cons y ys ih =>
    cases X with
    | nil => simp at h
    | cons x X =>
      have hstore := store_length A x y (X ++ B)
      have hrest := ih (A ++ [y]) X (by simpa using h)
      simp only [List.append_assoc, List.length_append, List.length_singleton, List.cons_append,
        List.nil_append] at hrest hstore ⊢
      rw [writeFrom, hstore, Option.bind_eq_bind, Option.bind_some, hrest]

theorem writeFrom_eq_some {xs zs : List α} (h : writeFrom xs i ys = some zs) :
    ∀ j < ys.length, zs[i + j]? = ys[j]? := by
  suffices hboth : (∀ j < i, zs[j]? = xs[j]?) ∧ ∀ j < ys.length, zs[i + j]? = ys[j]? from hboth.2
  induction ys generalizing i xs with
  | nil =>
    cases h
    simp
  | cons y ys ih =>
    simp only [writeFrom, store, Option.bind_eq_bind, Option.bind_eq_some_iff] at h
    obtain ⟨xs', hstore, h⟩ := h
    obtain ⟨hbefore, hput⟩ := ih h
    split at hstore
    · next hi =>
      cases hstore
      refine ⟨fun j hj => ?_, fun j hj => ?_⟩
      · rw [hbefore j (by omega), List.getElem?_set_ne (by omega)]
      · cases j with
        | zero => rw [Nat.add_zero, hbefore i (by omega), List.getElem?_set_self hi]; rfl
        | succ j =>
          rw [List.getElem?_cons_succ, ← hput j (by simpa using hj)]
          congr 1
          omega
    · cases hstore

theorem shiftUp_append (A B : List α) (y : α) (C : List α) :
    ∃ z, shiftUp (A ++ B ++ y :: C) A.length (A ++ B).length = some (A ++ z :: (B ++ C)) := by
  induction B using List.reverseRecOn generalizing y C with
  | nil =>
    refine ⟨y, ?_⟩
    cases hA : A.length with
    | zero => simp [hA, shiftUp]
    | succ n => simp [hA, shiftUp]
  | append_singleton B b ih =>
    obtain ⟨z, hz⟩ := ih b (b :: C)
    refine ⟨z, ?_⟩
    have hlen : (A ++ (B ++ [b])).length = (A ++ B).length + 1 := by simp; omega
    have hlt : A.length < (A ++ B).length + 1 := by
      rw [List.length_append]
      omega
    have hget : (A ++ (B ++ [b]) ++ y :: C)[(A ++ B).length]? = some b := by simp
    have hstore : store (A ++ (B ++ [b]) ++ y :: C) ((A ++ B).length + 1) b =
        some (A ++ B ++ b :: b :: C) := by
      have hst := store_length (A ++ (B ++ [b])) y b C
      rw [hlen] at hst
      simpa using hst
    rw [hlen, shiftUp, if_pos hlt, hget, Option.bind_eq_bind, Option.bind_some, hstore,
      Option.bind_eq_bind, Option.bind_some, hz]
    simp

theorem insertAt_prefix {A B xs : List α} (x : α) (h : A ++ B <+: xs)
    (hlen : (A ++ B).length < xs.length) :
    ∃ ys, insertAt xs (A ++ B).length A.length x = some ys ∧ A ++ x :: B <+: ys ∧
      ys.length = xs.length := by
  obtain ⟨rest, rfl⟩ := h
  cases rest with
  | nil => simp at hlen
  | cons y C =>
    obtain ⟨z, hz⟩ := shiftUp_append A B y C
    refine ⟨A ++ x :: (B ++ C), ?_, ⟨C, by simp⟩, by simp; omega⟩
    simp only [insertAt, hz, Option.bind_eq_bind, Option.bind_some, store_length]

theorem copyFrom_append (P M Q : List α) (D₀ M₀ D : List α) (hP : P.length = o + D₀.length)
    (hM : M.length = M₀.length) :
    copyFrom (P ++ M ++ Q) o (D₀ ++ M₀ ++ D) D₀.length M.length = some (D₀ ++ M ++ D) := by
  induction M generalizing P D₀ M₀ with
  | nil =>
    obtain rfl := List.length_eq_zero_iff.mp hM.symm
    rfl
  | cons x M ih =>
    cases M₀ with
    | nil => simp at hM
    | cons y M₀ =>
      have hget : (P ++ x :: M ++ Q)[o + D₀.length]? = some x := by simp [← hP]
      have hstore : store (D₀ ++ y :: M₀ ++ D) D₀.length x = some (D₀ ++ [x] ++ M₀ ++ D) := by
        simpa using store_length D₀ y x (M₀ ++ D)
      have hrest := ih (P ++ [x]) (D₀ ++ [x]) M₀ (by simp; omega) (by simpa using hM)
      simp only [List.append_assoc, List.nil_append, List.length_append,
        List.length_singleton, List.cons_append] at hrest hget hstore ⊢
      simp only [List.length_cons, copyFrom, hget, hstore, Option.bind_eq_bind, Option.bind_some,
        hrest]

theorem copyFrom_prefix {P M D src : List α} (h : P ++ M <+: src) (hlen : M.length ≤ D.length) :
    ∃ ys, copyFrom src P.length D 0 M.length = some ys ∧ M <+: ys ∧ ys.length = D.length := by
  obtain ⟨Q, rfl⟩ := h
  have hcopy := copyFrom_append (o := P.length) P M Q [] (D.take M.length)
    (D.drop M.length) (by simp) (by simp [hlen])
  refine ⟨M ++ D.drop M.length, by simpa using hcopy, List.prefix_append .., ?_⟩
  simp
  omega

/-! ## An array made element by element -/

theorem mapM_eq_some {β : Type} {f : β → Option α} {xs : List β} {ys : List α}
    (h : xs.mapM f = some ys) : ys.length = xs.length ∧ ∀ i : Nat, ys[i]? = xs[i]?.bind f := by
  induction xs generalizing ys with
  | nil =>
    cases h
    simp
  | cons x xs ih =>
    simp only [List.mapM_cons, Option.bind_eq_bind, Option.bind_eq_some_iff] at h
    obtain ⟨y, hy, zs, hzs, heq⟩ := h
    cases heq
    obtain ⟨hlen, hget⟩ := ih hzs
    refine ⟨congrArg (· + 1) hlen, fun i => ?_⟩
    cases i with
    | zero => simp [hy]
    | succ i => simp [hget]

theorem exists_mapM {β : Type} {f : β → Option α} {xs : List β} (h : ∀ x ∈ xs, ∃ y, f x = some y) :
    ∃ ys, xs.mapM f = some ys := by
  induction xs with
  | nil => exact ⟨[], rfl⟩
  | cons x xs ih =>
    obtain ⟨y, hy⟩ := h x List.mem_cons_self
    obtain ⟨ys, hys⟩ := ih fun z hz => h z (List.mem_cons_of_mem _ hz)
    exact ⟨y :: ys, by simp [List.mapM_cons, hy, hys]⟩

theorem takeWhile_append_eq {p : α → Bool} {A B : List α}
    (h : ((A ++ B).takeWhile p).length = A.length) : (∀ a ∈ A, p a) ∧ ∀ b ∈ B.head?, ¬ p b := by
  induction A with
  | nil =>
    refine ⟨nofun, fun b hb => ?_⟩
    cases B with
    | nil => cases hb
    | cons c B =>
      cases hb
      simpa [List.takeWhile_cons] using h
  | cons a A ih =>
    rw [List.cons_append, List.takeWhile_cons] at h
    split at h
    · next ha =>
      obtain ⟨hA, hB⟩ := ih (Nat.succ.inj h)
      exact ⟨List.forall_mem_cons.mpr ⟨ha, hA⟩, hB⟩
    · simp at h

end Slots

/-!
## Bitmaps

One bit an index, eight to a byte, the lowest bit of a byte first.
-/

namespace Bitmap

def get (bytes : List (BitVec 8)) (i : Nat) : Bool := (bytes.getD (i / 8) 0).getLsbD (i % 8)

/-- Sets or clears a bit of its byte. A bit beyond the last byte has no effect. -/
def put (bytes : List (BitVec 8)) (i : Nat) (v : Bool) :
    List (BitVec 8) :=
  bytes.modify (i / 8) fun b =>
    if v then b ||| BitVec.twoPow 8 (i % 8) else b &&& ~~~BitVec.twoPow 8 (i % 8)

@[simp] theorem length_put : (put bytes i v).length = bytes.length := by
  simp [put]

theorem get_replicate : get (List.replicate n 0) i = false := by
  simp only [get, List.getD_eq_getElem?_getD, List.getElem?_replicate]
  split <;> simp

theorem byte_lt {bytes : List (BitVec 8)} (h : bytes.length = (n + 7) / 8) (hi : i < n) :
    i / 8 < bytes.length := by
  omega

theorem getLsbD_put (b : BitVec 8) (i j : Nat) (v : Bool) :
    (if v then b ||| BitVec.twoPow 8 (i % 8) else b &&& ~~~BitVec.twoPow 8 (i % 8)).getLsbD
      (j % 8) = if j % 8 = i % 8 then v else b.getLsbD (j % 8) := by
  have hi : i % 8 < 8 := Nat.mod_lt _ (by decide)
  have hj : j % 8 < 8 := Nat.mod_lt _ (by decide)
  cases v with
  | true =>
    by_cases h : j % 8 = i % 8
    · simp [h, hi]
    · simp [h, Ne.symm h]
  | false =>
    by_cases h : j % 8 = i % 8
    · simp [h, hi]
    · simp [h, hj]

theorem get_put (h : i / 8 < bytes.length) :
    get (put bytes i v) j = if j = i then v else get bytes j := by
  unfold get put
  rw [List.getD_eq_getElem?_getD, List.getD_eq_getElem?_getD, List.getElem?_modify]
  by_cases hbyte : i / 8 = j / 8
  · have hj : j / 8 < bytes.length := hbyte ▸ h
    rw [List.getElem?_eq_getElem hj]
    simp only [hbyte, if_true, Option.map_eq_map, Option.map_some, Option.getD_some]
    rw [getLsbD_put]
    by_cases hji : j = i
    · simp [hji]
    · rw [if_neg (by omega), if_neg hji]
  · rw [if_neg (by omega : j ≠ i)]
    simp only [hbyte, if_false]
    cases bytes[j / 8]? <;> rfl

end Bitmap
