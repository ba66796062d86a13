import Mathlib.Tactic
import Mathlib.Tactic.Common
import Mathlib.Data.List.Basic

/-!
# Little-endian numbers and slices of byte strings

Fixed-width little-endian encoding and its inverse, and reading at a position of a byte string that
is known to be a prefix followed by what is read.
-/

namespace Bytes

/-- The low `n` bytes of `v`, least significant first. -/
def toLE : (n v : Nat) → List UInt8
  | 0, _ => []
  | n + 1, v => UInt8.ofNat (v % 256) :: toLE n (v / 256)

def ofLE : List UInt8 → Nat
  | [] => 0
  | b :: bs => b.toNat + 256 * ofLE bs

@[simp] theorem length_toLE (n v : Nat) : (toLE n v).length = n := by
  induction n generalizing v with
  | zero => rfl
  | succ n ih => simp [toLE, ih]

theorem ofLE_toLE (n v : Nat) : ofLE (toLE n v) = v % 256 ^ n := by
  induction n generalizing v with
  | zero => simp [toLE, ofLE, Nat.mod_one]
  | succ n ih =>
    have hbyte : (UInt8.ofNat (v % 256)).toNat = v % 256 := by simp
    rw [toLE, ofLE, ih, hbyte, Nat.pow_succ, Nat.mul_comm (256 ^ n), Nat.mod_mul]

theorem ofLE_lt (bs : List UInt8) : ofLE bs < 256 ^ bs.length := by
  induction bs with
  | nil => decide
  | cons b bs ih =>
    have hb := b.toNat_lt
    rw [ofLE, List.length_cons, Nat.pow_succ]
    omega

theorem ofLE_toLE_of_lt (h : v < 256 ^ n) : ofLE (toLE n v) = v := by
  rw [ofLE_toLE, Nat.mod_eq_of_lt h]

/-- The `len` bytes at `pos`. -/
def slice (bytes : List α) (pos len : Nat) : List α := (bytes.drop pos).take len

/-- The number in the `n` bytes at `pos`. -/
def readLE (n : Nat) (bytes : List UInt8) (pos : Nat) : Nat := ofLE (slice bytes pos n)

theorem length_slice_le (bytes : List α) (pos len : Nat) : (slice bytes pos len).length ≤ len :=
  List.length_take_le _ _

theorem readLE_lt (n : Nat) (bytes : List UInt8) (pos : Nat) : readLE n bytes pos < 256 ^ n :=
  Nat.lt_of_lt_of_le (ofLE_lt _) (Nat.pow_le_pow_right (by decide) (length_slice_le _ _ _))

/-- `part` stands at `pos`. -/
def At (bytes : List α) (pos : Nat) (part : List α) : Prop := part <+: bytes.drop pos

namespace At

theorem slice {bytes part : List α} (h : At bytes pos part) :
    slice bytes pos part.length = part := by
  obtain ⟨rest, hrest⟩ := h
  rw [Bytes.slice, ← hrest, List.take_left]

theorem readLE (h : At bytes pos (toLE n v)) (hv : v < 256 ^ n) : readLE n bytes pos = v := by
  have hslice := h.slice
  rw [length_toLE] at hslice
  rw [Bytes.readLE, hslice, ofLE_toLE_of_lt hv]

theorem left {bytes part : List α} (h : At bytes pos (part ++ rest)) : At bytes pos part :=
  (List.prefix_append part rest).trans h

theorem right {bytes part : List α} (h : At bytes pos (part ++ rest)) :
    At bytes (pos + part.length) rest := by
  obtain ⟨tail, htail⟩ := h
  refine ⟨tail, ?_⟩
  rw [← List.drop_drop, ← htail, List.append_assoc, List.drop_left]

theorem getElem? {bytes rest : List α} (h : At bytes pos (b :: rest)) : bytes[pos]? = some b := by
  obtain ⟨tail, htail⟩ := h
  rw [← List.head?_drop, ← htail]
  rfl

theorem getD {bytes rest : List α} (h : At bytes pos (b :: rest)) : bytes.getD pos d = b := by
  rw [List.getD_eq_getElem?_getD, h.getElem?]
  rfl

theorem tail {bytes rest : List α} (h : At bytes pos (b :: rest)) : At bytes (pos + 1) rest :=
  (show At bytes pos ([b] ++ rest) from h).right

theorem length_le {bytes part : List α} (h : At bytes pos part) :
    part.length ≤ bytes.length - pos := by
  rw [← List.length_drop]
  exact List.IsPrefix.length_le h

end At

/-! ## Overwriting -/

/-- Writes `part` over the bytes from `pos` on. -/
def patch (bytes : List α) (pos : Nat) (part : List α) : List α :=
  bytes.take pos ++ part ++ bytes.drop (pos + part.length)

theorem patch_append (pre old new post : List α) (h : old.length = new.length) :
    patch (pre ++ old ++ post) pre.length new = pre ++ new ++ post := by
  have hdrop : (pre ++ old ++ post).drop (pre.length + new.length) = post := by
    rw [← h, ← List.length_append, List.drop_left]
  rw [patch, hdrop, List.append_assoc pre old, List.take_left]

theorem length_patch (bytes : List α) (h : pos + part.length ≤ bytes.length) :
    (patch bytes pos part).length = bytes.length := by
  simp only [patch, List.length_append, List.length_take, List.length_drop]
  omega

theorem slice_patch (bytes : List α) (h : pos + part.length ≤ bytes.length) :
    slice (patch bytes pos part) pos part.length = part := by
  have hlen : (bytes.take pos).length = pos := by rw [List.length_take]; omega
  have hdrop : (bytes.take pos ++ (part ++ bytes.drop (pos + part.length))).drop pos =
      part ++ bytes.drop (pos + part.length) := List.drop_left' hlen
  rw [slice, patch, List.append_assoc, hdrop, List.take_left]

theorem slice_patch_left (bytes part : List α) (h : o + n ≤ pos) (hpos : pos ≤ bytes.length) :
    slice (patch bytes pos part) o n = slice bytes o n := by
  have hlen : (bytes.take pos).length = pos := by rw [List.length_take]; omega
  rw [slice, slice, patch, List.append_assoc, List.drop_append_of_le_length (by omega),
    List.take_append_of_le_length (by rw [List.length_drop]; omega), List.drop_take, List.take_take,
    Nat.min_eq_left (by omega)]

end Bytes

/-!
## Spans of a list

What a program sees of a list between two indices. A span is split where its contents are, and the
indices of the parts follow.
-/

/-- `s` stands in `b` from index `i` up to `last`. -/
structure Spans (b : List α) (i : Nat) (s : List α) (last : Nat) : Prop where
  around : ∃ pre post, b = pre ++ s ++ post ∧ pre.length = i
  last_eq : last = i + s.length

namespace Spans

theorem whole (b : List α) : Spans b 0 b b.length :=
  ⟨⟨[], [], by simp, rfl⟩, (Nat.zero_add _).symm⟩

theorem sub_eq (h : Spans b i s last) : last - i = s.length := by
  rw [h.last_eq, Nat.add_sub_cancel_left]

theorem lt_iff (h : Spans b i s last) : i < last ↔ s ≠ [] := by
  rw [h.last_eq, Nat.lt_add_right_iff_pos, List.length_pos_iff]

theorem left (h : Spans b i (x ++ y) last) : Spans b i x (i + x.length) := by
  obtain ⟨pre, post, rfl, rfl⟩ := h.around
  exact ⟨⟨pre, y ++ post, by simp, rfl⟩, rfl⟩

theorem right (h : Spans b i (x ++ y) last) : Spans b (i + x.length) y last := by
  obtain ⟨pre, post, rfl, rfl⟩ := h.around
  refine ⟨⟨pre ++ x, post, by simp, List.length_append⟩, ?_⟩
  rw [h.last_eq, List.length_append, Nat.add_assoc]

theorem tail (h : Spans b i (c :: s) last) : Spans b (i + 1) s last := by
  rw [← List.singleton_append] at h
  exact h.right

theorem behind (h : Spans b i (x ++ c :: y) last) : Spans b (i + x.length + 1) y last :=
  h.right.tail

theorem getElem?_add (h : Spans b i s last) (hk : k < s.length) : b[i + k]? = s[k]? := by
  obtain ⟨pre, post, rfl, rfl⟩ := h.around
  rw [List.append_assoc, List.getElem?_append_right (Nat.le_add_right _ _),
    Nat.add_sub_cancel_left, List.getElem?_append_left hk]

theorem getElem?_eq (h : Spans b i (c :: s) last) : b[i]? = some c := by
  have hat := h.getElem?_add (k := 0) (Nat.succ_pos _)
  rwa [Nat.add_zero] at hat

theorem set {b : List α} (h : Spans b i (x ++ c :: y) last) (v : α) :
    Spans (b.set (i + x.length) v) i (x ++ v :: y) last := by
  obtain ⟨pre, post, rfl, rfl⟩ := h.around
  refine ⟨⟨pre, post, ?_, rfl⟩, ?_⟩
  · rw [List.append_assoc, List.set_append_right _ _ (Nat.le_add_right _ _),
      Nat.add_sub_cancel_left, List.append_assoc, List.set_append_right _ _ (Nat.le_refl _),
      Nat.sub_self]
    simp
  · rw [h.last_eq, List.length_append, List.length_append, List.length_cons, List.length_cons]

end Spans

/-!
## Wrapping 64-bit arithmetic

A 64-bit register holds its value modulo 2^64, and integer division rounds toward zero. Floor
division is what is left when a negative remainder is corrected.
-/

namespace Wrapping

/-- The value of a 64-bit register that is given `x`. -/
def i64 (x : Int) : Int := x.bmod 18446744073709551616

/-- A 64-bit register can hold `x`. -/
def Fits64 (x : Int) : Prop := -9223372036854775808 ≤ x ∧ x ≤ 9223372036854775807

/-- A 32-bit register can hold `x`. -/
def Fits32 (x : Int) : Prop := -2147483648 ≤ x ∧ x ≤ 2147483647

instance (x : Int) : Decidable (Fits64 x) := by
  unfold Fits64
  infer_instance

instance (x : Int) : Decidable (Fits32 x) := by
  unfold Fits32
  infer_instance

theorem Fits32.fits64 (h : Fits32 x) : Fits64 x := by
  unfold Fits32 at h
  unfold Fits64
  omega

theorem i64_eq (h : Fits64 x) : i64 x = x := by
  unfold Fits64 at h
  exact Int.bmod_eq_of_le (by omega) (by omega)

theorem exists_wrap (x : Int) : ∃ k, x = i64 x + 18446744073709551616 * k ∧ Fits64 (i64 x) := by
  refine ⟨x.bdiv 18446744073709551616, ?_, ?_⟩
  · have h := Int.bmod_add_bdiv x 18446744073709551616
    unfold i64
    omega
  · have hlo := Int.le_bmod (x := x) (show 0 < 18446744073709551616 by omega)
    have hhi := Int.bmod_lt (x := x) (show 0 < 18446744073709551616 by omega)
    unfold Fits64 i64
    omega

@[simp] theorem i64_i64_add (x y : Int) : i64 (i64 x + y) = i64 (x + y) := Int.bmod_add_bmod

@[simp] theorem i64_add_i64 (x y : Int) : i64 (x + i64 y) = i64 (x + y) := Int.add_bmod_bmod

@[simp] theorem i64_i64_sub (x y : Int) : i64 (i64 x - y) = i64 (x - y) := Int.bmod_sub_bmod

@[simp] theorem i64_sub_i64 (x y : Int) : i64 (x - i64 y) = i64 (x - y) := Int.sub_bmod_bmod

@[simp] theorem i64_i64_mul (x y : Int) : i64 (i64 x * y) = i64 (x * y) := Int.bmod_mul_bmod

theorem tdiv_add_tmod (x : Int) (hd : 0 < d) :
    d * x.tdiv d + x.tmod d = x ∧ (0 ≤ x → 0 ≤ x.tmod d ∧ x.tmod d < d) ∧
      (x ≤ 0 → -d < x.tmod d ∧ x.tmod d ≤ 0) := by
  refine ⟨Int.mul_tdiv_add_tmod x d, fun hx => ⟨Int.tmod_nonneg d hx, Int.tmod_lt_of_pos x hd⟩,
    fun hx => ?_⟩
  have hneg := Int.tmod_nonneg d (show 0 ≤ -x by omega)
  have hlt := Int.tmod_lt_of_pos (-x) hd
  rw [Int.neg_tmod] at hneg hlt
  omega

theorem tdiv_of_nonneg (hx : 0 ≤ x) (d : Int) : x.tdiv d = x / d :=
  Int.tdiv_eq_ediv_of_nonneg hx

theorem tmod_of_nonneg (hx : 0 ≤ x) (d : Int) : x.tmod d = x % d :=
  Int.tmod_eq_emod_of_nonneg hx

theorem floor_eq (x : Int) (hd : 0 < d) :
    (if x.tmod d < 0 then x.tdiv d - 1 else x.tdiv d) = x / d ∧
      (if x.tmod d < 0 then x.tmod d + d else x.tmod d) = x % d := by
  obtain ⟨hsum, hpos, hneg⟩ := tdiv_add_tmod x hd
  by_cases h : x.tmod d < 0
  · have hrange : -d < x.tmod d := by
      rcases Int.le_total 0 x with hx | hx
      · exact absurd (hpos hx).1 (by omega)
      · exact (hneg hx).1
    obtain ⟨hq, hr⟩ : x / d = x.tdiv d - 1 ∧ x % d = x.tmod d + d := by
      refine (Int.ediv_emod_unique hd).mpr ⟨?_, by omega, by omega⟩
      rw [Int.mul_sub, Int.mul_one]
      omega
    rw [if_pos h, if_pos h]
    exact ⟨hq.symm, hr.symm⟩
  · obtain ⟨hq, hr⟩ : x / d = x.tdiv d ∧ x % d = x.tmod d :=
      (Int.ediv_emod_unique hd).mpr ⟨by omega, by omega, Int.tmod_lt_of_pos x hd⟩
    rw [if_neg h, if_neg h]
    exact ⟨hq.symm, hr.symm⟩

theorem era_eq (x : Int) (hd : 0 < d) :
    (if x ≥ 0 then x.tdiv d else (x - (d - 1)).tdiv d) = x / d := by
  split
  · next hx => exact tdiv_of_nonneg hx d
  · obtain ⟨hsum, -, hneg⟩ := tdiv_add_tmod (x - (d - 1)) hd
    obtain ⟨hlo, hhi⟩ := hneg (by omega)
    obtain ⟨hq, -⟩ : x / d = (x - (d - 1)).tdiv d ∧ x % d = (x - (d - 1)).tmod d + (d - 1) :=
      (Int.ediv_emod_unique hd).mpr ⟨by omega, by omega, by omega⟩
    exact hq.symm

end Wrapping
