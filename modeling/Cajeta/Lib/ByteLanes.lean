import Cajeta.Lib.BitMask
import Cajeta.Lib.Bytes

/-!
# Scanning the bytes of a word at once

A little-endian word holds a list of bytes, the first of them lowest. Adding or subtracting on the
word is adding or subtracting on each byte as long as nothing is carried or borrowed, and what is
carried goes up. So flags computed on the whole word are right up to and including the lowest one.
-/

namespace ByteLanes

open Bytes

/-- The word of `n` bytes `c`. -/
def fill (c : Nat) : Nat → Nat
  | 0 => 0
  | n + 1 => c + 256 * fill c n

theorem fill_lt (hc : c < 256) (n : Nat) : fill c n < 256 ^ n := by
  induction n with
  | zero => exact Nat.one_pos
  | succ n ih =>
    rw [fill, Nat.pow_succ]
    omega

theorem testBit_lane_zero (hb : b < 256) (w : Nat) (hj : j < 8) :
    (b + 256 * w).testBit j = b.testBit j := by
  have hsplit := Nat.testBit_two_pow_mul_add w (show b < 2 ^ 8 from hb) j
  rw [if_pos hj] at hsplit
  rw [Nat.add_comm, show 256 = 2 ^ 8 from rfl, hsplit]

theorem testBit_lane_succ (hb : b < 256) (w i : Nat) :
    (b + 256 * w).testBit (8 + i) = w.testBit i := by
  have hsplit := Nat.testBit_two_pow_mul_add w (show b < 2 ^ 8 from hb) (8 + i)
  rw [if_neg (by omega), Nat.add_sub_cancel_left] at hsplit
  rw [Nat.add_comm, show 256 = 2 ^ 8 from rfl, hsplit]

theorem testBit_ofLE (bs : List UInt8) (k : Nat) (hk : k < bs.length) (hj : j < 8) :
    (ofLE bs).testBit (8 * k + j) = bs[k].toNat.testBit j := by
  induction bs generalizing k with
  | nil => exact absurd hk (Nat.not_lt_zero k)
  | cons b bs ih =>
    cases k with
    | zero => rw [ofLE, Nat.mul_zero, Nat.zero_add, testBit_lane_zero b.toNat_lt _ hj]; rfl
    | succ k =>
      rw [ofLE, show 8 * (k + 1) + j = 8 + (8 * k + j) by omega, testBit_lane_succ b.toNat_lt,
        ih k (Nat.lt_of_succ_lt_succ hk)]
      rfl

theorem testBit_fill (hc : c < 256) (n i : Nat) :
    (fill c n).testBit i = (decide (i / 8 < n) && c.testBit (i % 8)) := by
  induction n generalizing i with
  | zero => rw [fill, Nat.zero_testBit]; simp
  | succ n ih =>
    rw [fill]
    rcases Nat.lt_or_ge i 8 with hi | hi
    · rw [testBit_lane_zero hc _ hi, Nat.div_eq_of_lt hi, Nat.mod_eq_of_lt hi]
      simp
    · obtain ⟨i, rfl⟩ := Nat.exists_eq_add_of_le hi
      rw [testBit_lane_succ hc, ih, Nat.add_mod_left, Nat.add_div_left _ (by decide)]
      simp

theorem ofLE_xor_fill (bs : List UInt8) (c : UInt8) :
    ofLE bs ^^^ fill c.toNat bs.length = ofLE (bs.map (· ^^^ c)) := by
  induction bs with
  | nil => exact Nat.xor_self 0
  | cons b bs ih =>
    have hxor : (b ^^^ c).toNat = b.toNat ^^^ c.toNat := UInt8.toNat_xor b c
    have hbyte : b.toNat ^^^ c.toNat < 2 ^ 8 := Nat.xor_lt_two_pow b.toNat_lt c.toNat_lt
    rw [List.map_cons, ofLE, List.length_cons, fill, ofLE, hxor, ← ih]
    refine Nat.eq_of_testBit_eq fun i => ?_
    rw [Nat.testBit_xor]
    rcases Nat.lt_or_ge i 8 with hi | hi
    · rw [testBit_lane_zero b.toNat_lt _ hi, testBit_lane_zero c.toNat_lt _ hi,
        testBit_lane_zero hbyte _ hi, Nat.testBit_xor]
    · obtain ⟨i, rfl⟩ := Nat.exists_eq_add_of_le hi
      rw [testBit_lane_succ b.toNat_lt, testBit_lane_succ c.toNat_lt, testBit_lane_succ hbyte,
        Nat.testBit_xor]

/-- The high bit of lane `k`. -/
def top (w k : Nat) : Bool := w.testBit (8 * k + 7)

theorem top_zero (w : Nat) : top w 0 = (w % 256).testBit 7 := by
  rw [top, show 256 = 2 ^ 8 from rfl, Nat.testBit_mod_two_pow]
  simp

theorem top_succ (w k : Nat) : top w (k + 1) = top (w / 256) k := by
  rw [top, top, show 256 = 2 ^ 8 from rfl, Nat.testBit_div_two_pow]
  congr 1

theorem top_sub (hc : c < 256) (bs : List UInt8) (k : Nat) (hk : k < bs.length)
    (hlow : ∀ b ∈ bs.take k, c ≤ b.toNat) :
    top ((256 ^ bs.length - fill c bs.length + ofLE bs) % 256 ^ bs.length) k =
      ((bs[k].toNat + 256 - c) % 256).testBit 7 := by
  induction bs generalizing k with
  | nil => exact absurd hk (Nat.not_lt_zero k)
  | cons b bs ih =>
    have hb := b.toNat_lt
    have hfill := fill_lt hc bs.length
    rw [List.length_cons, Nat.pow_succ, Nat.mul_comm, fill, ofLE]
    generalize 256 ^ bs.length = size at hfill ih ⊢
    generalize fill c bs.length = constant at hfill ih ⊢
    cases k with
    | zero =>
      rw [top_zero, Nat.mod_mul_right_mod]
      congr 1
      rw [List.getElem_cons_zero]
      omega
    | succ k =>
      have hbelow : c ≤ b.toNat := hlow b List.mem_cons_self
      have hrest : (256 * size - (c + 256 * constant) + (b.toNat + 256 * ofLE bs)) / 256 =
          size - constant + ofLE bs := by omega
      rw [top_succ, Nat.mod_mul_right_div_self, hrest,
        ih k (Nat.lt_of_succ_lt_succ hk) fun x hx => hlow x (List.mem_cons_of_mem _ hx)]
      rfl

theorem top_add (hc : c < 256) (bs : List UInt8) (k : Nat) (hk : k < bs.length)
    (hlow : ∀ b ∈ bs.take k, b.toNat + c < 256) :
    top ((ofLE bs + fill c bs.length) % 256 ^ bs.length) k =
      ((bs[k].toNat + c) % 256).testBit 7 := by
  induction bs generalizing k with
  | nil => exact absurd hk (Nat.not_lt_zero k)
  | cons b bs ih =>
    rw [List.length_cons, Nat.pow_succ, Nat.mul_comm, fill, ofLE]
    generalize 256 ^ bs.length = size at ih ⊢
    generalize fill c bs.length = constant at ih ⊢
    cases k with
    | zero =>
      rw [top_zero, Nat.mod_mul_right_mod]
      congr 1
      rw [List.getElem_cons_zero]
      omega
    | succ k =>
      have hbelow : b.toNat + c < 256 := hlow b List.mem_cons_self
      have hrest : (b.toNat + 256 * ofLE bs + (c + 256 * constant)) / 256 = ofLE bs + constant := by
        omega
      rw [top_succ, Nat.mod_mul_right_div_self, hrest,
        ih k (Nat.lt_of_succ_lt_succ hk) fun x hx => hlow x (List.mem_cons_of_mem _ hx)]
      rfl

/-- The mask `m` flags, by high bits, the bytes with `p`: surely as far as the first of them. -/
structure Flags (p : UInt8 → Bool) (bs : List UInt8) (m : Nat) : Prop where
  high : ∀ i, m.testBit i = true → i / 8 < bs.length ∧ i % 8 = 7
  first : ∀ k (hk : k < bs.length), (∀ b ∈ bs.take k, p b = false) → top m k = p bs[k]

theorem of_mem_take_findIdx {bs : List α} {p : α → Bool} (hk : k ≤ bs.findIdx p) :
    ∀ b ∈ bs.take k, p b = false := by
  intro b hb
  obtain ⟨i, hi, rfl⟩ := List.mem_iff_getElem.mp hb
  rw [List.length_take] at hi
  rw [List.getElem_take]
  exact List.not_of_lt_findIdx (by omega)

/-- The byte at the lowest flag is the first byte with `p`, and without a flag there is none. -/
theorem Flags.lowest (h : Flags p bs m) (hwidth : width = 8 * bs.length) :
    if m = 0 then bs.findIdx p = bs.length
    else BitMask.ctz width m / 8 = bs.findIdx p ∧ bs.findIdx p < bs.length := by
  have hclear : ∀ k (hk : k < bs.length), k < bs.findIdx p → top m k = false := by
    intro k hk hlt
    rw [h.first k hk (of_mem_take_findIdx (Nat.le_of_lt hlt))]
    exact List.not_of_lt_findIdx hlt
  have hfound : ∀ hlt : bs.findIdx p < bs.length, top m (bs.findIdx p) = true := fun hlt =>
    (h.first _ hlt (of_mem_take_findIdx (Nat.le_refl _))).trans List.findIdx_getElem
  split
  next hm =>
    refine Nat.le_antisymm List.findIdx_le_length (Nat.le_of_not_lt fun hlt => ?_)
    have hbit := hfound hlt
    rw [hm, top, Nat.zero_testBit] at hbit
    exact Bool.false_ne_true hbit
  next hm =>
    obtain ⟨i, hi⟩ := BitMask.exists_testBit hm
    obtain ⟨hlen, -⟩ := h.high i hi
    obtain ⟨hbit, -, hlow⟩ := BitMask.ctz_spec (show i < width by omega) hi
    obtain ⟨hlane, hmod⟩ := h.high _ hbit
    have hsplit := Nat.div_add_mod (BitMask.ctz width m) 8
    generalize BitMask.ctz width m = z at hbit hlow hlane hmod hsplit ⊢
    have htop : top m (z / 8) = true := by
      rw [top, ← hmod, hsplit]
      exact hbit
    have hge : bs.findIdx p ≤ z / 8 := Nat.le_of_not_lt fun hlt => by
      rw [hclear _ hlane hlt] at htop
      exact Bool.false_ne_true htop
    have hle : z / 8 ≤ bs.findIdx p := Nat.le_of_not_lt fun hlt => by
      have hbit := hfound (Nat.lt_trans hlt hlane)
      rw [top, hlow _ (by omega)] at hbit
      exact Bool.false_ne_true hbit
    exact ⟨Nat.le_antisymm hle hge, Nat.lt_of_le_of_lt hge hlane⟩

theorem Flags.of_map {bs : List UInt8} (h : Flags q (bs.map f) m) (hf : ∀ b, q (f b) = p b) :
    Flags p bs m where
  high i hi := List.length_map f ▸ h.high i hi
  first k hk hbefore := by
    have hfirst := h.first k (by rwa [List.length_map]) fun c hc => by
      rw [← List.map_take, List.mem_map] at hc
      obtain ⟨b, hb, rfl⟩ := hc
      rw [hf, hbefore b hb]
    rw [hfirst, List.getElem_map, hf]

theorem Flags.or (hp : Flags p bs m) (hq : Flags q bs m') :
    Flags (fun b => p b || q b) bs (m ||| m') where
  high i hi := by
    rw [Nat.testBit_or, Bool.or_eq_true] at hi
    exact hi.elim (hp.high i) (hq.high i)
  first k hk hbefore := by
    have hnone : ∀ b ∈ bs.take k, p b = false ∧ q b = false := fun b hb =>
      Bool.or_eq_false_iff.mp (hbefore b hb)
    rw [top, Nat.testBit_or]
    exact congrArg₂ _ (hp.first k hk fun b hb => (hnone b hb).1)
      (hq.first k hk fun b hb => (hnone b hb).2)

end ByteLanes
