import Cajeta.Lib.Bytes
import Mathlib.Data.Nat.Bitwise

/-!
# The UTF-8 codec

Decoding one scalar value, encoding one and checking a whole buffer are three pieces of code. What
they share is the encoding of a scalar value: decoding finds the one that starts at a position,
encoding writes it, and a buffer is valid when it is made of them.
-/

namespace Cajeta.Codec.Utf8

open String (utf8EncodeChar)

/-- A continuation byte. -/
def isTail (b : UInt8) : Bool := b &&& 0xC0 == 0x80

def bits (b mask : UInt8) : UInt32 := (b &&& mask).toUInt32

/-- What is decoded when nothing is. -/
def malformed : Option (Nat × UInt32) := some (0, 0)

/-- The length and the value of the scalar value at `i`; its length is 0 on any malformation.
Reading a byte that the buffer does not have fails. -/
def decode (s : List UInt8) (i n : Nat) : Option (Nat × UInt32) := do
  let b0 ← s[i]?
  if b0 < 0x80 then some (1, b0.toUInt32)
  else if b0 < 0xC2 then malformed
  else if b0 < 0xE0 then
    if i + 1 ≥ n then malformed
    else
      let b1 ← s[i + 1]?
      if isTail b1 then some (2, bits b0 0x1F <<< 6 ||| bits b1 0x3F)
      else malformed
  else if b0 < 0xF0 then
    if i + 2 ≥ n then malformed
    else
      let b1 ← s[i + 1]?
      let b2 ← s[i + 2]?
      if isTail b1 ∧ isTail b2 then
        let cp := bits b0 0x0F <<< 12 ||| bits b1 0x3F <<< 6 ||| bits b2 0x3F
        if cp < 0x800 ∨ cp ≥ 0xD800 ∧ cp ≤ 0xDFFF then malformed else some (3, cp)
      else malformed
  else if b0 < 0xF5 then
    if i + 3 ≥ n then malformed
    else
      let b1 ← s[i + 1]?
      let b2 ← s[i + 2]?
      let b3 ← s[i + 3]?
      if isTail b1 ∧ isTail b2 ∧ isTail b3 then
        let cp := bits b0 0x07 <<< 18 ||| bits b1 0x3F <<< 12 ||| bits b2 0x3F <<< 6 |||
          bits b3 0x3F
        if cp < 0x10000 ∨ cp > 0x10FFFF then malformed else some (4, cp)
      else malformed
  else malformed

/-- The lowest byte of `x` under the mark bits `m`. -/
def mark (m x : UInt32) : UInt8 := (m ||| x).toUInt8

/-- The bytes of a scalar value. -/
def encode (cp : UInt32) : List UInt8 :=
  if cp < 0x80 then [cp.toUInt8]
  else if cp < 0x800 then [mark 0xC0 (cp >>> 6), mark 0x80 (cp &&& 0x3F)]
  else if cp < 0x10000 then
    [mark 0xE0 (cp >>> 12), mark 0x80 (cp >>> 6 &&& 0x3F), mark 0x80 (cp &&& 0x3F)]
  else
    [mark 0xF0 (cp >>> 18), mark 0x80 (cp >>> 12 &&& 0x3F), mark 0x80 (cp >>> 6 &&& 0x3F),
      mark 0x80 (cp &&& 0x3F)]

/-- The loop of the validity check from `i` on; no more than `fuel` scalar values are read. -/
def validFrom (s : List UInt8) (n : Nat) : Nat → Nat → Option Nat
  | 0, _ => none
  | fuel + 1, i =>
    if i < n then do
      let (len, _) ← decode s i n
      if len = 0 then some 0 else validFrom s n fuel (i + len)
    else some 1

/-- 1 for a valid buffer, 0 for any other. -/
def validBuf (s : List UInt8) (n : Nat) : Option Nat := validFrom s n (n + 1) 0

/-- The loop that decodes a buffer; a malformed one has no scalar values. -/
def decodeFrom (s : List UInt8) (n : Nat) :
    Nat → Nat → List UInt32 → Option (Option (List UInt32))
  | 0, _, _ => none
  | fuel + 1, i, cps =>
    if i < n then do
      let (len, cp) ← decode s i n
      if len = 0 then some none else decodeFrom s n fuel (i + len) (cps ++ [cp])
    else some (some cps)

def decodeBuf (s : List UInt8) (n : Nat) : Option (Option (List UInt32)) :=
  decodeFrom s n (n + 1) 0 []

/-- The loop that encodes scalar values. -/
def encodeAll (cps : List UInt32) : List UInt8 := cps.flatMap encode

/-! ## Bits as arithmetic -/

theorem isTail_iff (b : UInt8) : isTail b = true ↔ 128 ≤ b.toNat ∧ b.toNat < 192 := by
  have hall : ∀ n < 256, n &&& 192 = 128 ↔ 128 ≤ n ∧ n < 192 := by decide +kernel
  rw [isTail, beq_iff_eq, ← UInt8.toNat_inj, UInt8.toNat_and]
  exact hall _ b.toNat_lt

theorem toNat_bits (k : Nat) {mask : UInt8} (hmask : mask.toNat = 2 ^ k - 1) (b : UInt8) :
    (bits b mask).toNat = b.toNat % 2 ^ k := by
  rw [bits, UInt8.toNat_toUInt32, UInt8.toNat_and, hmask, Nat.and_two_pow_sub_one_eq_mod]

theorem toNat_or (k : Nat) {x y : UInt32} (hx : x.toNat % 2 ^ k = 0) (hy : y.toNat < 2 ^ k) :
    (x ||| y).toNat = x.toNat + y.toNat := by
  obtain ⟨a, ha⟩ := Nat.dvd_of_mod_eq_zero hx
  rw [UInt32.toNat_or, ha, Nat.two_pow_add_eq_or_of_lt hy]

theorem toNat_shl (j : Nat) {x k : UInt32} (hk : k.toNat = j) (hj : j < 32)
    (hx : x.toNat * 2 ^ j < 4294967296) : (x <<< k).toNat = x.toNat * 2 ^ j := by
  rw [UInt32.toNat_shiftLeft, hk, Nat.mod_eq_of_lt hj, Nat.shiftLeft_eq, Nat.mod_eq_of_lt hx]

theorem toNat_two (b0 b1 : UInt8) :
    (bits b0 0x1F <<< 6 ||| bits b1 0x3F).toNat = b0.toNat % 32 * 64 + b1.toNat % 64 := by
  have h0 : (bits b0 0x1F).toNat = b0.toNat % 32 := toNat_bits 5 rfl b0
  have h1 : (bits b1 0x3F).toNat = b1.toNat % 64 := toNat_bits 6 rfl b1
  have hs : (bits b0 0x1F <<< 6).toNat = b0.toNat % 32 * 64 :=
    h0 ▸ toNat_shl 6 rfl (by decide) (by omega)
  have hx : (bits b0 0x1F <<< 6).toNat % 2 ^ 6 = 0 := by omega
  rw [toNat_or 6 hx (by omega), hs, h1]

theorem toNat_three (b0 b1 b2 : UInt8) :
    (bits b0 0x0F <<< 12 ||| bits b1 0x3F <<< 6 ||| bits b2 0x3F).toNat =
      b0.toNat % 16 * 4096 + b1.toNat % 64 * 64 + b2.toNat % 64 := by
  have h0 : (bits b0 0x0F).toNat = b0.toNat % 16 := toNat_bits 4 rfl b0
  have h1 : (bits b1 0x3F).toNat = b1.toNat % 64 := toNat_bits 6 rfl b1
  have h2 : (bits b2 0x3F).toNat = b2.toNat % 64 := toNat_bits 6 rfl b2
  have hs0 : (bits b0 0x0F <<< 12).toNat = b0.toNat % 16 * 4096 :=
    h0 ▸ toNat_shl 12 rfl (by decide) (by omega)
  have hs1 : (bits b1 0x3F <<< 6).toNat = b1.toNat % 64 * 64 :=
    h1 ▸ toNat_shl 6 rfl (by decide) (by omega)
  have hs : (bits b0 0x0F <<< 12 ||| bits b1 0x3F <<< 6).toNat =
      b0.toNat % 16 * 4096 + b1.toNat % 64 * 64 := by
    have hx : (bits b0 0x0F <<< 12).toNat % 2 ^ 12 = 0 := by omega
    rw [toNat_or 12 hx (by omega), hs0, hs1]
  have hx : (bits b0 0x0F <<< 12 ||| bits b1 0x3F <<< 6).toNat % 2 ^ 6 = 0 := by omega
  rw [toNat_or 6 hx (by omega), hs, h2]

theorem toNat_four (b0 b1 b2 b3 : UInt8) :
    (bits b0 0x07 <<< 18 ||| bits b1 0x3F <<< 12 ||| bits b2 0x3F <<< 6 ||| bits b3 0x3F).toNat =
      b0.toNat % 8 * 262144 + b1.toNat % 64 * 4096 + b2.toNat % 64 * 64 + b3.toNat % 64 := by
  have h0 : (bits b0 0x07).toNat = b0.toNat % 8 := toNat_bits 3 rfl b0
  have h1 : (bits b1 0x3F).toNat = b1.toNat % 64 := toNat_bits 6 rfl b1
  have h2 : (bits b2 0x3F).toNat = b2.toNat % 64 := toNat_bits 6 rfl b2
  have h3 : (bits b3 0x3F).toNat = b3.toNat % 64 := toNat_bits 6 rfl b3
  have hs0 : (bits b0 0x07 <<< 18).toNat = b0.toNat % 8 * 262144 :=
    h0 ▸ toNat_shl 18 rfl (by decide) (by omega)
  have hs1 : (bits b1 0x3F <<< 12).toNat = b1.toNat % 64 * 4096 :=
    h1 ▸ toNat_shl 12 rfl (by decide) (by omega)
  have hs2 : (bits b2 0x3F <<< 6).toNat = b2.toNat % 64 * 64 :=
    h2 ▸ toNat_shl 6 rfl (by decide) (by omega)
  have hx0 : (bits b0 0x07 <<< 18).toNat % 2 ^ 18 = 0 := by omega
  have hs01 := toNat_or 18 (y := bits b1 0x3F <<< 12) hx0 (by omega)
  have hx1 : (bits b0 0x07 <<< 18 ||| bits b1 0x3F <<< 12).toNat % 2 ^ 12 = 0 := by omega
  have hs012 := toNat_or 12 (y := bits b2 0x3F <<< 6) hx1 (by omega)
  have hx2 : (bits b0 0x07 <<< 18 ||| bits b1 0x3F <<< 12 ||| bits b2 0x3F <<< 6).toNat % 2 ^ 6 =
      0 := by omega
  rw [toNat_or 6 hx2 (by omega), hs012, hs01, hs0, hs1, hs2, h3]

theorem toNat_mark (k : Nat) {m x : UInt32} (hm : m.toNat % 2 ^ k = 0) (hx : x.toNat < 2 ^ k)
    (hfit : m.toNat + x.toNat < 256) : (mark m x).toNat = m.toNat + x.toNat := by
  rw [mark, UInt32.toNat_toUInt8, toNat_or k hm hx, Nat.mod_eq_of_lt hfit]

theorem toNat_shr (j : Nat) {x k : UInt32} (hk : k.toNat = j) (hj : j < 32) :
    (x >>> k).toNat = x.toNat / 2 ^ j := by
  rw [UInt32.toNat_shiftRight, hk, Nat.mod_eq_of_lt hj, Nat.shiftRight_eq_div_pow]

theorem mark_tail (x : UInt32) : mark 0x80 (x &&& 0x3F) = UInt8.ofNat (x.toNat % 64 + 128) := by
  have hx : (x &&& 0x3F).toNat = x.toNat % 64 := by
    rw [UInt32.toNat_and]
    exact Nat.and_two_pow_sub_one_eq_mod _ 6
  have hm : (0x80 : UInt32).toNat = 128 := rfl
  rw [← UInt8.toNat_inj, toNat_mark 6 rfl (by omega) (by omega), hx, hm, UInt8.toNat_ofNat']
  omega

theorem mark_lead (k : Nat) {m x : UInt32} (hm : m.toNat % 2 ^ k = 0) (hx : x.toNat < 2 ^ k)
    (hfit : m.toNat + x.toNat < 256) : mark m x = UInt8.ofNat (x.toNat + m.toNat) := by
  rw [← UInt8.toNat_inj, toNat_mark k hm hx hfit, UInt8.toNat_ofNat', Nat.add_comm,
    Nat.mod_eq_of_lt (by omega)]

theorem val_lt (c : Char) : c.val.toNat < 0x110000 := by
  rcases c.valid with h | h <;> omega

theorem encode_val (c : Char) : encode c.val = utf8EncodeChar c := by
  have hc := val_lt c
  have h6 : (c.val >>> 6).toNat = c.val.toNat / 64 := toNat_shr 6 rfl (by decide)
  have h12 : (c.val >>> 12).toNat = c.val.toNat / 4096 := toNat_shr 12 rfl (by decide)
  have h18 : (c.val >>> 18).toNat = c.val.toNat / 262144 := toNat_shr 18 rfl (by decide)
  simp only [encode, utf8EncodeChar, UInt32.lt_iff_toNat_lt, UInt32.reduceToNat, mark_tail, h6, h12]
  rcases Nat.lt_or_ge c.val.toNat 128 with h | h
  · rw [if_pos h, if_pos (by omega)]
    rfl
  rw [if_neg (Nat.not_lt.mpr h), if_neg (show ¬c.val.toNat ≤ 127 by omega)]
  rcases Nat.lt_or_ge c.val.toNat 2048 with h' | h'
  · have hm : (192 : UInt32).toNat = 192 := rfl
    have hlead : mark 192 (c.val >>> 6) = UInt8.ofNat (c.val.toNat / 64 % 32 + 192) :=
      (mark_lead 6 rfl (by omega) (by omega)).trans (congrArg UInt8.ofNat (by omega))
    rw [if_pos h', if_pos (by omega), hlead]
  rw [if_neg (Nat.not_lt.mpr h'), if_neg (show ¬c.val.toNat ≤ 2047 by omega)]
  rcases Nat.lt_or_ge c.val.toNat 65536 with h'' | h''
  · have hm : (224 : UInt32).toNat = 224 := rfl
    have hlead : mark 224 (c.val >>> 12) = UInt8.ofNat (c.val.toNat / 4096 % 16 + 224) :=
      (mark_lead 5 rfl (by omega) (by omega)).trans (congrArg UInt8.ofNat (by omega))
    rw [if_pos h'', if_pos (by omega), hlead]
  · have hm : (240 : UInt32).toNat = 240 := rfl
    have hlead : mark 240 (c.val >>> 18) = UInt8.ofNat (c.val.toNat / 262144 % 8 + 240) :=
      (mark_lead 4 rfl (by omega) (by omega)).trans (congrArg UInt8.ofNat (by omega))
    rw [if_neg (Nat.not_lt.mpr h''), if_neg (show ¬c.val.toNat ≤ 65535 by omega), hlead]

/-! ## Decoding one scalar value -/

/-- The four ways a scalar value is decoded at `i`. -/
inductive Reads (s : List UInt8) (i n : Nat) : Nat → UInt32 → Prop
  | one (h0 : s[i]? = some b0) (h : b0.toNat < 128) : Reads s i n 1 b0.toUInt32
  | two (h0 : s[i]? = some b0) (hlo : 194 ≤ b0.toNat) (hhi : b0.toNat < 224) (hn : i + 1 < n)
    (h1 : s[i + 1]? = some b1) (t1 : isTail b1 = true) :
    Reads s i n 2 (bits b0 0x1F <<< 6 ||| bits b1 0x3F)
  | three (h0 : s[i]? = some b0) (hlo : 224 ≤ b0.toNat) (hhi : b0.toNat < 240) (hn : i + 2 < n)
    (h1 : s[i + 1]? = some b1) (t1 : isTail b1 = true)
    (h2 : s[i + 2]? = some b2) (t2 : isTail b2 = true)
    (hcp : cp = bits b0 0x0F <<< 12 ||| bits b1 0x3F <<< 6 ||| bits b2 0x3F)
    (hrange : 2048 ≤ cp.toNat ∧ (cp.toNat < 55296 ∨ 57343 < cp.toNat)) : Reads s i n 3 cp
  | four (h0 : s[i]? = some b0) (hlo : 240 ≤ b0.toNat) (hhi : b0.toNat < 245) (hn : i + 3 < n)
    (h1 : s[i + 1]? = some b1) (t1 : isTail b1 = true)
    (h2 : s[i + 2]? = some b2) (t2 : isTail b2 = true)
    (h3 : s[i + 3]? = some b3) (t3 : isTail b3 = true)
    (hcp : cp = bits b0 0x07 <<< 18 ||| bits b1 0x3F <<< 12 ||| bits b2 0x3F <<< 6 |||
      bits b3 0x3F)
    (hrange : 65536 ≤ cp.toNat ∧ cp.toNat ≤ 1114111) : Reads s i n 4 cp

theorem Reads.decode (h : Reads s i n len cp) : decode s i n = some (len, cp) := by
  cases h with
  | one h0 h =>
    simp only [Utf8.decode, h0, Option.bind_eq_bind, Option.bind_some, UInt8.lt_iff_toNat_lt,
      UInt8.reduceToNat]
    rw [if_pos h]
  | two h0 hlo hhi hn h1 t1 =>
    simp only [Utf8.decode, h0, h1, Option.bind_eq_bind, Option.bind_some,
      UInt8.lt_iff_toNat_lt, UInt8.reduceToNat]
    rw [if_neg (by omega), if_neg (by omega), if_pos hhi, if_neg (by omega), if_pos t1]
  | three h0 hlo hhi hn h1 t1 h2 t2 hcp hrange =>
    simp only [Utf8.decode, h0, h1, h2, ← hcp, Option.bind_eq_bind, Option.bind_some,
      UInt8.lt_iff_toNat_lt, UInt8.reduceToNat, UInt32.lt_iff_toNat_lt, UInt32.le_iff_toNat_le,
      UInt32.reduceToNat, ge_iff_le]
    rw [if_neg (by omega), if_neg (by omega), if_neg (by omega), if_pos hhi, if_neg (by omega),
      if_pos ⟨t1, t2⟩, if_neg (by omega)]
  | four h0 hlo hhi hn h1 t1 h2 t2 h3 t3 hcp hrange =>
    simp only [Utf8.decode, h0, h1, h2, h3, ← hcp, Option.bind_eq_bind, Option.bind_some,
      UInt8.lt_iff_toNat_lt, UInt8.reduceToNat, UInt32.lt_iff_toNat_lt, UInt32.reduceToNat,
      gt_iff_lt]
    rw [if_neg (by omega), if_neg (by omega), if_neg (by omega), if_neg (by omega), if_pos hhi,
      if_neg (by omega), if_pos ⟨t1, t2, t3⟩, if_neg (by omega)]

theorem Reads.of_decode (h : Utf8.decode s i n = some (len, cp)) (hlen : len ≠ 0) :
    Reads s i n len cp := by
  have hmal : malformed ≠ some (len, cp) := by
    intro h
    cases h
    exact hlen rfl
  unfold Utf8.decode at h
  obtain ⟨b0, h0, h⟩ := Option.bind_eq_some_iff.mp h
  simp only [UInt8.lt_iff_toNat_lt, UInt8.reduceToNat] at h
  split at h
  · next hb =>
    cases h
    exact .one h0 hb
  next hb1 =>
  split at h
  · exact absurd h hmal
  next hb2 =>
  split at h
  · next hb3 =>
    split at h
    · exact absurd h hmal
    next hn =>
    obtain ⟨b1, h1, h⟩ := Option.bind_eq_some_iff.mp h
    split at h
    · next t1 =>
      cases h
      exact .two h0 (by omega) hb3 (by omega) h1 t1
    · exact absurd h hmal
  next hb3 =>
  split at h
  · next hb4 =>
    split at h
    · exact absurd h hmal
    next hn =>
    obtain ⟨b1, h1, h⟩ := Option.bind_eq_some_iff.mp h
    obtain ⟨b2, h2, h⟩ := Option.bind_eq_some_iff.mp h
    split at h
    · next t =>
      simp only [UInt32.lt_iff_toNat_lt, UInt32.le_iff_toNat_le, UInt32.reduceToNat,
        ge_iff_le] at h
      split at h
      · exact absurd h hmal
      next hrange =>
      cases h
      exact .three h0 (by omega) hb4 (by omega) h1 t.1 h2 t.2 rfl (by omega)
    · exact absurd h hmal
  next hb4 =>
  split at h
  · next hb5 =>
    split at h
    · exact absurd h hmal
    next hn =>
    obtain ⟨b1, h1, h⟩ := Option.bind_eq_some_iff.mp h
    obtain ⟨b2, h2, h⟩ := Option.bind_eq_some_iff.mp h
    obtain ⟨b3, h3, h⟩ := Option.bind_eq_some_iff.mp h
    split at h
    · next t =>
      simp only [UInt32.lt_iff_toNat_lt, UInt32.reduceToNat, gt_iff_lt] at h
      split at h
      · exact absurd h hmal
      next hrange =>
      cases h
      exact .four h0 (by omega) hb5 (by omega) h1 t.1 h2 t.2.1 h3 t.2.2 rfl (by omega)
    · exact absurd h hmal
  · exact absurd h hmal

theorem ite_ne_none {c : Prop} [Decidable c] {x y : Option α} (hx : c → x ≠ none)
    (hy : ¬c → y ≠ none) : (if c then x else y) ≠ none := by
  split
  · next h => exact hx h
  · next h => exact hy h

theorem decode_ne_none (hi : i < s.length) : decode s i s.length ≠ none := by
  have hget : ∀ k, k < s.length → ∃ b, s[k]? = some b :=
    fun k hk => ⟨_, List.getElem?_eq_getElem hk⟩
  have hmal : malformed ≠ none := Option.some_ne_none _
  have hsome : ∀ r : Nat × UInt32, some r ≠ none := Option.some_ne_none
  obtain ⟨b0, h0⟩ := hget i hi
  unfold decode
  rw [h0]
  refine ite_ne_none (fun _ => hsome _) fun _ => ite_ne_none (fun _ => hmal) fun _ => ?_
  apply ite_ne_none
  · intro _
    refine ite_ne_none (fun _ => hmal) fun hn => ?_
    obtain ⟨b1, h1⟩ := hget (i + 1) (by omega)
    rw [h1]
    exact ite_ne_none (fun _ => hsome _) fun _ => hmal
  intro _
  apply ite_ne_none
  · intro _
    refine ite_ne_none (fun _ => hmal) fun hn => ?_
    obtain ⟨b1, h1⟩ := hget (i + 1) (by omega)
    obtain ⟨b2, h2⟩ := hget (i + 2) (by omega)
    rw [h1, h2]
    exact ite_ne_none (fun _ => ite_ne_none (fun _ => hmal) fun _ => hsome _) fun _ => hmal
  intro _
  apply ite_ne_none
  · intro _
    refine ite_ne_none (fun _ => hmal) fun hn => ?_
    obtain ⟨b1, h1⟩ := hget (i + 1) (by omega)
    obtain ⟨b2, h2⟩ := hget (i + 2) (by omega)
    obtain ⟨b3, h3⟩ := hget (i + 3) (by omega)
    rw [h1, h2, h3]
    exact ite_ne_none (fun _ => ite_ne_none (fun _ => hmal) fun _ => hsome _) fun _ => hmal
  · exact fun _ => hmal

/-! ## Decoding finds the encodings -/

theorem drop_eq_cons {s : List UInt8} (h : s[i]? = some b) : s.drop i = b :: s.drop (i + 1) := by
  obtain ⟨hi, rfl⟩ := List.getElem?_eq_some_iff.mp h
  exact List.drop_eq_getElem_cons hi

theorem getElem?_of_start {s bs : List UInt8} (h : bs <+: s.drop i) (hj : bs[j]? = some b) :
    s[i + j]? = some b := by
  rw [← List.getElem?_drop]
  obtain ⟨rest, hrest⟩ := h
  rw [← hrest, List.getElem?_append_left (List.getElem?_eq_some_iff.mp hj).1, hj]

theorem encode_two (hlo : 128 ≤ c.val.toNat) (hhi : c.val.toNat < 2048) : utf8EncodeChar c =
    [UInt8.ofNat (c.val.toNat / 64 % 32 + 192), UInt8.ofNat (c.val.toNat % 64 + 128)] := by
  simp only [utf8EncodeChar]
  rw [if_neg (by omega), if_pos (by omega)]

theorem encode_three (hlo : 2048 ≤ c.val.toNat) (hhi : c.val.toNat < 65536) : utf8EncodeChar c =
    [UInt8.ofNat (c.val.toNat / 4096 % 16 + 224), UInt8.ofNat (c.val.toNat / 64 % 64 + 128),
      UInt8.ofNat (c.val.toNat % 64 + 128)] := by
  simp only [utf8EncodeChar]
  rw [if_neg (by omega), if_neg (by omega), if_pos (by omega)]

theorem encode_four (hlo : 65536 ≤ c.val.toNat) : utf8EncodeChar c =
    [UInt8.ofNat (c.val.toNat / 262144 % 8 + 240), UInt8.ofNat (c.val.toNat / 4096 % 64 + 128),
      UInt8.ofNat (c.val.toNat / 64 % 64 + 128), UInt8.ofNat (c.val.toNat % 64 + 128)] := by
  simp only [utf8EncodeChar]
  rw [if_neg (by omega), if_neg (by omega), if_neg (by omega)]

theorem eq_ofNat {b : UInt8} (h : b.toNat = n) : b = UInt8.ofNat n := by
  rw [← h, UInt8.ofNat_toNat]

theorem Reads.encoding (h : Reads s i n len cp) :
    ∃ c : Char, c.val = cp ∧ (utf8EncodeChar c).length = len ∧ utf8EncodeChar c <+: s.drop i := by
  cases h with
  | @one b0 h0 h =>
    have hval : b0.toUInt32.toNat = b0.toNat := UInt8.toNat_toUInt32 b0
    refine ⟨⟨b0.toUInt32, .inl (by omega)⟩, rfl, ?_⟩
    have henc : utf8EncodeChar ⟨b0.toUInt32, .inl (by omega)⟩ = [b0] := by
      simp only [utf8EncodeChar, hval]
      rw [if_pos (by omega), UInt8.ofNat_toNat]
    rw [henc, drop_eq_cons h0]
    exact ⟨rfl, List.prefix_append [b0] _⟩
  | @two b0 b1 h0 hlo hhi hn h1 t1 =>
    have ht1 := (isTail_iff b1).mp t1
    have hval := toNat_two b0 b1
    refine ⟨⟨_, .inl (by omega)⟩, rfl, ?_⟩
    rw [encode_two (by simp only; omega) (by simp only; omega), drop_eq_cons h0, drop_eq_cons h1]
    have e0 : b0 = UInt8.ofNat ((bits b0 0x1F <<< 6 ||| bits b1 0x3F).toNat / 64 % 32 + 192) :=
      eq_ofNat (by omega)
    have e1 : b1 = UInt8.ofNat ((bits b0 0x1F <<< 6 ||| bits b1 0x3F).toNat % 64 + 128) :=
      eq_ofNat (by omega)
    simp only [← e0, ← e1]
    exact ⟨rfl, List.prefix_append [b0, b1] _⟩
  | @three b0 b1 b2 _ h0 hlo hhi hn h1 t1 h2 t2 hcp hrange =>
    have ht1 := (isTail_iff b1).mp t1
    have ht2 := (isTail_iff b2).mp t2
    have hval := toNat_three b0 b1 b2
    rw [← hcp] at hval
    refine ⟨⟨cp, ?_⟩, rfl, ?_⟩
    · rcases hrange.2 with h | h
      · exact .inl h
      · exact .inr ⟨h, by omega⟩
    rw [encode_three (by simp only; omega) (by simp only; omega), drop_eq_cons h0, drop_eq_cons h1,
      drop_eq_cons h2]
    have e0 : b0 = UInt8.ofNat (cp.toNat / 4096 % 16 + 224) := eq_ofNat (by omega)
    have e1 : b1 = UInt8.ofNat (cp.toNat / 64 % 64 + 128) := eq_ofNat (by omega)
    have e2 : b2 = UInt8.ofNat (cp.toNat % 64 + 128) := eq_ofNat (by omega)
    simp only [← e0, ← e1, ← e2]
    exact ⟨rfl, List.prefix_append [b0, b1, b2] _⟩
  | @four b0 b1 b2 b3 _ h0 hlo hhi hn h1 t1 h2 t2 h3 t3 hcp hrange =>
    have ht1 := (isTail_iff b1).mp t1
    have ht2 := (isTail_iff b2).mp t2
    have ht3 := (isTail_iff b3).mp t3
    have hval := toNat_four b0 b1 b2 b3
    rw [← hcp] at hval
    refine ⟨⟨cp, .inr ⟨by omega, by omega⟩⟩, rfl, ?_⟩
    rw [encode_four (by simp only; omega), drop_eq_cons h0, drop_eq_cons h1, drop_eq_cons h2,
      drop_eq_cons h3]
    have e0 : b0 = UInt8.ofNat (cp.toNat / 262144 % 8 + 240) := eq_ofNat (by omega)
    have e1 : b1 = UInt8.ofNat (cp.toNat / 4096 % 64 + 128) := eq_ofNat (by omega)
    have e2 : b2 = UInt8.ofNat (cp.toNat / 64 % 64 + 128) := eq_ofNat (by omega)
    have e3 : b3 = UInt8.ofNat (cp.toNat % 64 + 128) := eq_ofNat (by omega)
    simp only [← e0, ← e1, ← e2, ← e3]
    exact ⟨rfl, List.prefix_append [b0, b1, b2, b3] _⟩

theorem toNat_ofNat (h : n < 256) : (UInt8.ofNat n).toNat = n := by
  rw [UInt8.toNat_ofNat', Nat.mod_eq_of_lt h]

theorem isTail_tail (n : Nat) : isTail (UInt8.ofNat (n % 64 + 128)) = true := by
  rw [isTail_iff, toNat_ofNat (by omega)]
  omega

theorem mod_tail (n : Nat) : (UInt8.ofNat (n % 64 + 128)).toNat % 64 = n % 64 := by
  rw [toNat_ofNat (by omega)]
  omega

theorem Reads.of_encoding_two (hlo : 128 ≤ c.val.toNat) (hhi : c.val.toNat < 2048)
    (h : utf8EncodeChar c <+: s.drop i) (hsize : (utf8EncodeChar c).length ≤ s.length - i) :
    Reads s i s.length (utf8EncodeChar c).length c.val := by
  have henc := encode_two hlo hhi
  rw [henc] at h hsize ⊢
  change 2 ≤ _ at hsize
  have hb0 := toNat_ofNat (n := c.val.toNat / 64 % 32 + 192) (by omega)
  have hval : bits (UInt8.ofNat (c.val.toNat / 64 % 32 + 192)) 0x1F <<< 6 |||
      bits (UInt8.ofNat (c.val.toNat % 64 + 128)) 0x3F = c.val := by
    rw [← UInt32.toNat_inj, toNat_two, hb0, mod_tail]
    omega
  have hread := Reads.two (n := s.length) (getElem?_of_start (j := 0) h rfl) (by omega)
    (by omega) (by omega) (getElem?_of_start (j := 1) h rfl) (isTail_tail _)
  rwa [hval] at hread

theorem Reads.of_encoding_three (hlo : 2048 ≤ c.val.toNat) (hhi : c.val.toNat < 65536)
    (h : utf8EncodeChar c <+: s.drop i) (hsize : (utf8EncodeChar c).length ≤ s.length - i) :
    Reads s i s.length (utf8EncodeChar c).length c.val := by
  have henc := encode_three hlo hhi
  rw [henc] at h hsize ⊢
  change 3 ≤ _ at hsize
  have hb0 := toNat_ofNat (n := c.val.toNat / 4096 % 16 + 224) (by omega)
  refine .three (getElem?_of_start (j := 0) h rfl) (by omega) (by omega) (by omega)
    (getElem?_of_start (j := 1) h rfl) (isTail_tail _)
    (getElem?_of_start (j := 2) h rfl) (isTail_tail _) ?_
    ⟨hlo, by rcases c.valid with h | h <;> omega⟩
  rw [← UInt32.toNat_inj, toNat_three, hb0, mod_tail, mod_tail]
  clear h henc hb0
  omega

theorem Reads.of_encoding_four (hlo : 65536 ≤ c.val.toNat)
    (h : utf8EncodeChar c <+: s.drop i) (hsize : (utf8EncodeChar c).length ≤ s.length - i) :
    Reads s i s.length (utf8EncodeChar c).length c.val := by
  have hhi := val_lt c
  have henc := encode_four hlo
  rw [henc] at h hsize ⊢
  change 4 ≤ _ at hsize
  have hb0 := toNat_ofNat (n := c.val.toNat / 262144 % 8 + 240) (by omega)
  refine .four (getElem?_of_start (j := 0) h rfl) (by omega) (by omega) (by omega)
    (getElem?_of_start (j := 1) h rfl) (isTail_tail _)
    (getElem?_of_start (j := 2) h rfl) (isTail_tail _)
    (getElem?_of_start (j := 3) h rfl) (isTail_tail _) ?_ ⟨hlo, by omega⟩
  rw [← UInt32.toNat_inj, toNat_four, hb0, mod_tail, mod_tail, mod_tail]
  clear h henc hb0
  omega

theorem Reads.of_encoding {c : Char} (h : utf8EncodeChar c <+: s.drop i) :
    Reads s i s.length (utf8EncodeChar c).length c.val := by
  have hsize : (utf8EncodeChar c).length ≤ s.length - i := by
    rw [← List.length_drop]
    exact h.length_le
  rcases Nat.lt_or_ge c.val.toNat 128 with h1 | h1
  · have henc : utf8EncodeChar c = [UInt8.ofNat c.val.toNat] := by
      simp only [utf8EncodeChar]
      rw [if_pos (by omega)]
    have hb := toNat_ofNat (n := c.val.toNat) (by omega)
    rw [henc] at h ⊢
    have hval : (UInt8.ofNat c.val.toNat).toUInt32 = c.val := by
      rw [← UInt32.toNat_inj, UInt8.toNat_toUInt32, hb]
    have hread := Reads.one (n := s.length) (getElem?_of_start (j := 0) h rfl) (by omega)
    rwa [hval] at hread
  rcases Nat.lt_or_ge c.val.toNat 2048 with h2 | h2
  · exact .of_encoding_two h1 h2 h hsize
  rcases Nat.lt_or_ge c.val.toNat 65536 with h3 | h3
  · exact .of_encoding_three h2 h3 h hsize
  · exact .of_encoding_four h3 h hsize

/-! ## Buffers -/

/-- A concatenation of encodings of scalar values. -/
def IsUtf8 (s : List UInt8) : Prop := ∃ cs : List Char, s = cs.flatMap utf8EncodeChar

theorem length_encode_pos (c : Char) : 0 < (utf8EncodeChar c).length := by
  rw [String.length_utf8EncodeChar]
  exact c.utf8Size_pos

theorem encoding_unique {c c' : Char} (h : utf8EncodeChar c <+: s)
    (h' : utf8EncodeChar c' <+: s) : c = c' := by
  have hread := (Reads.of_encoding (s := s) (i := 0) h).decode
  rw [(Reads.of_encoding (s := s) (i := 0) h').decode] at hread
  exact (Char.ext (Prod.ext_iff.mp (Option.some.inj hread)).2).symm

theorem decode_cases (hi : i < s.length) :
    (∃ c, utf8EncodeChar c <+: s.drop i ∧
      decode s i s.length = some ((utf8EncodeChar c).length, c.val)) ∨
    (∃ cp, decode s i s.length = some (0, cp)) ∧ ∀ c, ¬utf8EncodeChar c <+: s.drop i := by
  obtain ⟨⟨len, cp⟩, h⟩ := Option.ne_none_iff_exists'.mp (decode_ne_none hi)
  rcases Nat.eq_zero_or_pos len with rfl | hlen
  · refine .inr ⟨⟨cp, h⟩, fun c hc => ?_⟩
    have hread := (Reads.of_encoding hc).decode
    rw [h] at hread
    have hzero : 0 = (utf8EncodeChar c).length := (Prod.ext_iff.mp (Option.some.inj hread)).1
    exact absurd (length_encode_pos c) (by omega)
  · obtain ⟨c, rfl, rfl, hc⟩ := (Reads.of_decode h (Nat.pos_iff_ne_zero.mp hlen)).encoding
    exact .inl ⟨c, hc, h⟩

theorem isUtf8_drop {s : List UInt8} {c : Char} (h : utf8EncodeChar c <+: s.drop i) :
    IsUtf8 (s.drop i) ↔ IsUtf8 (s.drop (i + (utf8EncodeChar c).length)) := by
  obtain ⟨rest, hrest⟩ := h
  rw [← List.drop_drop, ← hrest, List.drop_left]
  constructor
  · rintro ⟨cs, hcs⟩
    cases cs with
    | nil =>
      have hlen := congrArg List.length hcs
      rw [List.length_append, List.flatMap_nil, List.length_nil] at hlen
      exact absurd (length_encode_pos c) (by omega)
    | cons c' cs =>
      rw [List.flatMap_cons] at hcs
      obtain rfl : c = c' :=
        encoding_unique (List.prefix_append _ rest) (hcs ▸ List.prefix_append ..)
      exact ⟨cs, List.append_cancel_left hcs⟩
  · rintro ⟨cs, rfl⟩
    exact ⟨c :: cs, rfl⟩

theorem not_isUtf8 {s : List UInt8} (hi : i < s.length) (h : ∀ c, ¬utf8EncodeChar c <+: s.drop i) :
    ¬IsUtf8 (s.drop i) := by
  rintro ⟨cs, hcs⟩
  cases cs with
  | nil =>
    rw [List.flatMap_nil, List.drop_eq_nil_iff] at hcs
    omega
  | cons c cs => exact h c (hcs ▸ List.prefix_append ..)

theorem validFrom_spec (hi : i ≤ s.length) (hfuel : s.length - i < fuel) :
    (validFrom s s.length fuel i = some 1 ∧ IsUtf8 (s.drop i)) ∨
      (validFrom s s.length fuel i = some 0 ∧ ¬IsUtf8 (s.drop i)) := by
  induction fuel generalizing i with
  | zero => exact absurd hfuel (Nat.not_lt_zero _)
  | succ fuel ih =>
    rw [validFrom]
    rcases Nat.lt_or_ge i s.length with hlt | hge
    · rw [if_pos hlt]
      rcases decode_cases hlt with ⟨c, hc, hdecode⟩ | ⟨⟨cp, hdecode⟩, hnone⟩
      · have hpos := length_encode_pos c
        have hle := hc.length_le
        rw [List.length_drop] at hle
        rw [hdecode, isUtf8_drop hc, Option.bind_eq_bind, Option.bind_some]
        dsimp only
        rw [if_neg (Nat.pos_iff_ne_zero.mp hpos)]
        exact ih (by omega) (by omega)
      · rw [hdecode]
        exact .inr ⟨rfl, not_isUtf8 hlt hnone⟩
    · rw [if_neg (Nat.not_lt.mpr hge), List.drop_of_length_le hge]
      exact .inl ⟨rfl, [], rfl⟩

theorem decodeFrom_spec {s : List UInt8} {cs : List Char} (cps : List UInt32)
    (h : s.drop i = cs.flatMap utf8EncodeChar) (hfuel : s.length - i < fuel) :
    decodeFrom s s.length fuel i cps = some (some (cps ++ cs.map Char.val)) := by
  induction cs generalizing i fuel cps with
  | nil =>
    rw [List.flatMap_nil, List.drop_eq_nil_iff] at h
    obtain ⟨fuel, rfl⟩ := Nat.exists_eq_succ_of_ne_zero (Nat.ne_zero_of_lt hfuel)
    rw [decodeFrom, if_neg (Nat.not_lt.mpr h), List.map_nil, List.append_nil]
  | cons c cs ih =>
    obtain ⟨fuel, rfl⟩ := Nat.exists_eq_succ_of_ne_zero (Nat.ne_zero_of_lt hfuel)
    rw [List.flatMap_cons] at h
    have hc : utf8EncodeChar c <+: s.drop i := h ▸ List.prefix_append ..
    have hpos := length_encode_pos c
    have hle := hc.length_le
    rw [List.length_drop] at hle
    have hrest : s.drop (i + (utf8EncodeChar c).length) = cs.flatMap utf8EncodeChar := by
      rw [← List.drop_drop, h, List.drop_left]
    rw [decodeFrom, if_pos (by omega), (Reads.of_encoding hc).decode, Option.bind_eq_bind,
      Option.bind_some]
    dsimp only
    rw [if_neg (Nat.pos_iff_ne_zero.mp hpos), ih _ hrest (by omega), List.map_cons,
      List.append_assoc]
    rfl

theorem encodeAll_map (cs : List Char) :
    encodeAll (cs.map Char.val) = cs.flatMap utf8EncodeChar := by
  rw [encodeAll, List.flatMap_map]
  exact List.flatMap_congr fun c _ => encode_val c

/-- The validity check accepts the concatenations of encodings and no other buffer; the encoding of
a scalar value is decoded wherever it stands; encoding what is decoded of a valid buffer gives the
buffer; and decoding stays in the buffer and gets on. -/
theorem codec_exact :
    (∀ s : List UInt8,
      (validBuf s s.length = some 1 ↔ ∃ cs : List Char, s = cs.flatMap utf8EncodeChar) ∧
      (validBuf s s.length = some 1 ∨ validBuf s s.length = some 0)) ∧
    (∀ (c : Char) (before after : List UInt8), encode c.val = utf8EncodeChar c ∧
      decode (before ++ encode c.val ++ after) before.length
        (before ++ encode c.val ++ after).length = some ((encode c.val).length, c.val)) ∧
    (∀ s : List UInt8, validBuf s s.length = some 1 →
      ∃ cps, decodeBuf s s.length = some (some cps) ∧ encodeAll cps = s) ∧
    (∀ (s : List UInt8) (i : Nat), i < s.length → ∃ len cp, decode s i s.length = some (len, cp) ∧
      (len = 0 ∨ 0 < len ∧ i + len ≤ s.length)) := by
  have hvalid : ∀ s : List UInt8, (validBuf s s.length = some 1 ∧ IsUtf8 s) ∨
      (validBuf s s.length = some 0 ∧ ¬IsUtf8 s) :=
    fun s => validFrom_spec (i := 0) (Nat.zero_le _) (Nat.lt_succ_self _)
  refine ⟨fun s => ?_, fun c before after => ⟨encode_val c, ?_⟩, fun s hs => ?_, fun s i hi => ?_⟩
  · rcases hvalid s with ⟨h, hs⟩ | ⟨h, hs⟩
    · exact ⟨⟨fun _ => hs, fun _ => h⟩, .inl h⟩
    · refine ⟨⟨fun h' => ?_, fun h' => absurd h' hs⟩, .inr h⟩
      rw [h] at h'
      cases h'
  · rw [encode_val]
    refine (Reads.of_encoding (s := before ++ utf8EncodeChar c ++ after) ?_).decode
    rw [List.append_assoc, List.drop_left]
    exact List.prefix_append ..
  · rcases hvalid s with ⟨-, cs, hcs⟩ | ⟨h, -⟩
    · exact ⟨_, decodeFrom_spec (i := 0) [] hcs (Nat.lt_succ_self _), by
        rw [List.nil_append, encodeAll_map, ← hcs]⟩
    · rw [h] at hs
      cases hs
  · rcases decode_cases hi with ⟨c, hc, hdecode⟩ | ⟨⟨cp, hdecode⟩, -⟩
    · have hle := hc.length_le
      rw [List.length_drop] at hle
      exact ⟨_, _, hdecode, .inr ⟨length_encode_pos c, by omega⟩⟩
    · exact ⟨_, _, hdecode, .inl rfl⟩

end Cajeta.Codec.Utf8
