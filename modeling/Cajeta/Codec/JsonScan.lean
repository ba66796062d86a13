import Cajeta.Codec.JsonReader
import Cajeta.Lib.ByteLanes
import Mathlib.Data.List.TakeWhile

/-!
# The scans byte by byte

What the word loops find, compared with a reading of one byte at a time.
-/

namespace Cajeta.Codec.Json

open Bytes ByteLanes Except

/-! ## Masks -/

theorem high_eq_fill : high.toNat = fill 128 8 := rfl

theorem toNat_not (x : UInt64) : (~~~x).toNat = 2 ^ 64 - (x.toNat + 1) := by
  have hsize : UInt64.size = 2 ^ 64 := rfl
  rw [UInt64.toNat_not, hsize]
  omega

theorem top_not (x : UInt64) (hk : k < 8) : top (~~~x).toNat k = !top x.toNat k := by
  rw [top, toNat_not, Nat.testBit_two_pow_sub_succ x.toNat_lt, decide_eq_true (by omega),
    Bool.true_and]
  rfl

theorem top_and (x y : UInt64) : top (x &&& y).toNat k = (top x.toNat k && top y.toNat k) := by
  rw [top, UInt64.toNat_and, Nat.testBit_and]
  rfl

theorem top_high (hk : k < 8) : top high.toNat k = true := by
  rw [high_eq_fill, top, testBit_fill (by decide), decide_eq_true (by omega), Nat.mul_add_mod]
  rfl

theorem high_bits {m : UInt64} (hi : (m &&& high).toNat.testBit i = true) :
    i / 8 < 8 ∧ i % 8 = 7 := by
  rw [UInt64.toNat_and, Nat.testBit_and, Bool.and_eq_true, high_eq_fill,
    testBit_fill (by decide), Bool.and_eq_true, decide_eq_true_eq] at hi
  refine ⟨hi.2.1, ?_⟩
  have hbyte : ∀ j < 8, Nat.testBit 128 j = true → j = 7 := by decide
  exact hbyte _ (Nat.mod_lt _ (by decide)) hi.2.2

theorem testBit_seven (n : Nat) : n.testBit 7 = decide (n / 128 % 2 = 1) :=
  Nat.testBit_eq_decide_div_mod_eq

theorem zeroBytes_flags (hlen : bs.length = 8) (hx : x.toNat = ofLE bs) :
    ByteLanes.Flags (· == 0) bs (zeroBytes x).toNat where
  high i hi := hlen ▸ high_bits hi
  first k hk hbefore := by
    have hlane : ∀ n < 256, (((n + 256 - 1) % 256).testBit 7 && !n.testBit 7) = (n == 0) := by
      intro n hn
      rw [testBit_seven, testBit_seven, Bool.eq_iff_iff, Bool.and_eq_true, Bool.not_eq_true',
        decide_eq_true_eq, decide_eq_false_iff_not, beq_iff_eq]
      omega
    have hdiff : (x - ones).toNat =
        (256 ^ bs.length - fill 1 bs.length + ofLE bs) % 256 ^ bs.length := by
      rw [UInt64.toNat_sub, hx, hlen]
      rfl
    have hborrow : ∀ b ∈ bs.take k, 1 ≤ b.toNat := by
      intro b hb
      have hne := beq_eq_false_iff_ne.mp (hbefore b hb)
      rw [Ne, UInt8.ext_iff] at hne
      exact Nat.pos_of_ne_zero hne
    have hk8 : k < 8 := hlen ▸ hk
    rw [zeroBytes, top_and, top_and, top_not x hk8, top_high hk8, Bool.and_true, hdiff,
      top_sub (by decide) bs k hk hborrow, hx, top, testBit_ofLE bs k hk (by decide),
      hlane _ bs[k].toNat_lt]
    rw [Bool.eq_iff_iff, beq_iff_eq, beq_iff_eq, UInt8.ext_iff]
    rfl

theorem zeroBytes_xor_flags (c : UInt8) {all : UInt64} (hall : all.toNat = fill c.toNat 8)
    (hlen : bs.length = 8) (hw : w.toNat = ofLE bs) :
    ByteLanes.Flags (· == c) bs (zeroBytes (w ^^^ all)).toNat := by
  have hmap : (bs.map (· ^^^ c)).length = 8 := by rwa [List.length_map]
  refine (zeroBytes_flags hmap ?_).of_map fun b => ?_
  · rw [UInt64.toNat_xor, hw, hall, ← hlen, ofLE_xor_fill]
  · rw [Bool.eq_iff_iff, beq_iff_eq, beq_iff_eq, UInt8.xor_eq_zero_iff]

theorem quotesAndBackslashes_flags (hlen : bs.length = 8) (hw : w.toNat = ofLE bs) :
    ByteLanes.Flags (fun b => b == quote || b == backslash) bs (quotesAndBackslashes w).toNat := by
  rw [quotesAndBackslashes, UInt64.toNat_or]
  exact (zeroBytes_xor_flags quote rfl hlen hw).or (zeroBytes_xor_flags backslash rfl hlen hw)

theorem isDigit_eq (b : UInt8) :
    isDigit b = (((b.toNat + 80) % 256).testBit 7 && !((b.toNat + 70) % 256).testBit 7) := by
  have hlane : ∀ n < 256, (decide (48 ≤ n) && decide (n ≤ 57)) =
      (((n + 80) % 256).testBit 7 && !((n + 70) % 256).testBit 7) := by
    intro n hn
    rw [testBit_seven, testBit_seven, Bool.eq_iff_iff, Bool.and_eq_true, Bool.and_eq_true,
      Bool.not_eq_true', decide_eq_true_eq, decide_eq_true_eq, decide_eq_true_eq,
      decide_eq_false_iff_not]
    omega
  exact hlane b.toNat b.toNat_lt

theorem nonDigits_flags (hlen : bs.length = 8) (hw : w.toNat = ofLE bs) :
    ByteLanes.Flags (fun b => !isDigit b) bs (nonDigits w).toNat where
  high i hi := hlen ▸ high_bits hi
  first k hk hbefore := by
    have hk8 : k < 8 := hlen ▸ hk
    have hsmall : ∀ b ∈ bs.take k, b.toNat + 80 < 256 ∧ b.toNat + 70 < 256 := by
      intro b hb
      have hdigit := hbefore b hb
      rw [Bool.not_eq_false'] at hdigit
      rw [isDigit, Bool.and_eq_true, decide_eq_true_eq, decide_eq_true_eq, UInt8.le_iff_toNat_le,
        UInt8.le_iff_toNat_le] at hdigit
      have hle : b.toNat ≤ 57 := hdigit.2
      omega
    have hge : (w + 0x5050505050505050).toNat =
        (ofLE bs + fill 80 bs.length) % 256 ^ bs.length := by
      rw [UInt64.toNat_add, hw, hlen]
      rfl
    have hgt : (w + 0x4646464646464646).toNat =
        (ofLE bs + fill 70 bs.length) % 256 ^ bs.length := by
      rw [UInt64.toNat_add, hw, hlen]
      rfl
    rw [nonDigits]
    simp only [top_and, top_not _ hk8, top_high hk8, Bool.and_true]
    rw [hge, hgt, top_add (by decide) bs k hk fun b hb => (hsmall b hb).1,
      top_add (by decide) bs k hk fun b hb => (hsmall b hb).2, isDigit_eq]

theorem loadU64_eq {input : List UInt8} (h : p + 8 ≤ input.length) :
    ∃ w, loadU64 input p = .ok w ∧ w.toNat = ofLE (slice input p 8) ∧
      (slice input p 8).length = 8 := by
  have hlen : (slice input p 8).length = 8 := by
    rw [slice, List.length_take, List.length_drop]
    omega
  refine ⟨_, if_pos h, ?_, hlen⟩
  have hlt := ofLE_lt (slice input p 8)
  rw [hlen] at hlt
  exact UInt64.toNat_ofNat_of_lt' hlt

theorem lowestByte_eq {bs : List UInt8} (h : ByteLanes.Flags q bs m.toNat) (hlen : bs.length = 8) :
    if m = 0 then ∀ b ∈ bs, q b = false
    else lowestByte m = bs.findIdx q ∧ bs.findIdx q < bs.length := by
  have hlowest := h.lowest (show 64 = 8 * bs.length by rw [hlen])
  split
  next hm =>
    have hzero : m.toNat = 0 := congrArg UInt64.toNat hm
    rw [if_pos hzero] at hlowest
    exact List.findIdx_eq_length.mp hlowest
  next hm =>
    have hne : ¬m.toNat = 0 := fun h0 => hm (UInt64.toNat_inj.mp h0)
    rw [if_neg hne] at hlowest
    exact hlowest

theorem drop_eq_slice (input : List UInt8) (p n : Nat) :
    input.drop p = slice input p n ++ input.drop (p + n) := by
  rw [slice, ← List.drop_drop, List.take_append_drop]

theorem drop_eq_cons {input : List UInt8} (h : p < input.length) :
    ∃ c, byteAt input p = .ok c ∧ input.drop p = c :: input.drop (p + 1) :=
  ⟨input[p], by rw [byteAt, List.getElem?_eq_getElem h]; rfl, List.drop_eq_getElem_cons h⟩

theorem slice_findIdx {input : List UInt8} {q : UInt8 → Bool}
    (hk : (slice input p n).findIdx q = k) (hlt : k < (slice input p n).length) :
    ∃ c, byteAt input (p + k) = .ok c ∧ q c = true ∧ p + k < input.length ∧
      (slice input p k).length = k ∧ ∀ b ∈ slice input p k, q b = false := by
  subst hk
  have hfound := List.findIdx_getElem (w := hlt)
  have hbefore := of_mem_take_findIdx (Nat.le_refl ((slice input p n).findIdx q))
  generalize (slice input p n).findIdx q = k at hlt hfound hbefore ⊢
  rw [slice, List.length_take, List.length_drop] at hlt
  have hin : p + k < input.length := by omega
  simp only [slice, List.getElem_take, List.getElem_drop] at hfound
  rw [slice, List.take_take, Nat.min_eq_left (by omega)] at hbefore
  refine ⟨input[p + k], ?_, hfound, hin, ?_, hbefore⟩
  · rw [byteAt, List.getElem?_eq_getElem hin]
    rfl
  · rw [slice, List.length_take, List.length_drop]
    omega

/-! ## Strings -/

/-- Where a string ends that goes on with these bytes, the first of them at `p`: the closing quote,
found by looking at one byte at a time and passing over what is escaped. -/
def stringEnd : List UInt8 → (p : Nat) → Option Nat
  | [], _ => none
  | c :: rest, p =>
    if c = quote then some p
    else if c = backslash then
      match rest with
      | [] => none
      | _ :: rest => stringEnd rest (p + 2)
    else stringEnd rest (p + 1)

def JsonReader.endString (r : JsonReader) : Option Nat → Scan JsonReader
  | some p => .ok (r.closeString p)
  | none => r.unterminated

/-- `scanStringSpan`, one byte at a time. -/
def JsonReader.scanStringByBytes (r : JsonReader) : Scan JsonReader :=
  { r with tokenStart := r.pos + 1 }.endString (stringEnd (r.input.drop (r.pos + 1)) (r.pos + 1))

theorem stringEnd_append {xs : List UInt8}
    (hplain : ∀ b ∈ xs, (b == quote || b == backslash) = false) (rest : List UInt8) (p : Nat) :
    stringEnd (xs ++ rest) p = stringEnd rest (p + xs.length) := by
  induction xs generalizing p with
  | nil => rfl
  | cons b xs ih =>
    have hb := hplain b List.mem_cons_self
    rw [Bool.or_eq_false_iff, beq_eq_false_iff_ne, beq_eq_false_iff_ne] at hb
    rw [List.cons_append, stringEnd.eq_def]
    dsimp only
    rw [if_neg hb.1, if_neg hb.2, ih fun c hc => hplain c (List.mem_cons_of_mem _ hc),
      List.length_cons]
    congr 1
    omega

theorem endString_step {r : JsonReader} (h : p < r.byteCount) (hc : byteAt r.input p = .ok c) :
    r.endString (stringEnd (r.input.drop p) p) =
      if c = quote then .ok (r.closeString p)
      else if c = backslash then
        if p + 2 > r.byteCount then r.unterminated
        else r.endString (stringEnd (r.input.drop (p + 2)) (p + 2))
      else r.endString (stringEnd (r.input.drop (p + 1)) (p + 1)) := by
  obtain ⟨c', hc', hdrop⟩ := drop_eq_cons h
  obtain rfl : c = c' := Except.ok.inj (hc.symm.trans hc')
  rw [hdrop, stringEnd.eq_def]
  dsimp only
  split
  · rfl
  split
  · rcases Nat.lt_or_ge r.byteCount (p + 2) with hend | hmore
    · rw [if_pos hend, List.drop_eq_nil_of_le (Nat.le_of_lt_succ hend)]
      rfl
    · obtain ⟨d, -, hd⟩ := drop_eq_cons hmore
      rw [if_neg (Nat.not_lt.mpr hmore), hd]
  · rfl

theorem endString_end {r : JsonReader} (h : r.byteCount ≤ p) :
    r.endString (stringEnd (r.input.drop p) p) = r.unterminated := by
  rw [List.drop_eq_nil_of_le h]
  rfl

theorem stringTail_eq {r : JsonReader} (h : r.byteCount ≤ p + fuel) :
    r.stringTail (fuel + 1) p = r.endString (stringEnd (r.input.drop p) p) := by
  induction fuel generalizing p with
  | zero => rw [JsonReader.stringTail, if_neg (by omega), endString_end (p := p) h]
  | succ fuel ih =>
    rw [JsonReader.stringTail]
    split
    next hp =>
      obtain ⟨c, hc, -⟩ := drop_eq_cons hp
      rw [hc, ok_bind, endString_step hp hc, ih (by omega), ih (by omega)]
      rfl
    next hp => rw [endString_end (Nat.le_of_not_lt hp)]

theorem stringWords_eq {r : JsonReader} (h : r.byteCount ≤ p + fuel) :
    r.stringWords (fuel + 1) p = r.endString (stringEnd (r.input.drop p) p) := by
  induction fuel generalizing p with
  | zero => rw [JsonReader.stringWords, if_neg (by omega), stringTail_eq (by omega)]
  | succ fuel ih =>
    rw [JsonReader.stringWords]
    split
    next hp =>
      obtain ⟨w, hload, hw, hlen⟩ := loadU64_eq hp
      have hfind := lowestByte_eq (quotesAndBackslashes_flags hlen hw) hlen
      rw [hload, ok_bind]
      dsimp only
      split
      next hm =>
        rw [if_neg hm] at hfind
        obtain ⟨hidx, hlt⟩ := hfind
        obtain ⟨c, hc, hflag, hin, hk, hplain⟩ := slice_findIdx hidx.symm (hidx ▸ hlt)
        rw [hc, ok_bind, drop_eq_slice r.input p, stringEnd_append hplain, hk,
          endString_step hin hc]
        split
        · rfl
        next hquote =>
          rw [Bool.or_eq_true, beq_iff_eq, beq_iff_eq] at hflag
          rw [if_pos (hflag.resolve_left hquote), ih (by omega)]
      next hm =>
        rw [if_pos (not_not.mp hm)] at hfind
        rw [drop_eq_slice r.input p 8, stringEnd_append hfind, hlen]
        exact ih (by omega)
    next hp => exact stringTail_eq (by omega)

/-! ## Numbers -/

def numberByte (c : UInt8) : Bool := isDigit c || isSpecial c

/-- The end of the bytes of numbers from `p` on. -/
def numberEnd (input : List UInt8) (p : Nat) : Nat :=
  p + ((input.drop p).takeWhile numberByte).length

theorem numberEnd_of_length_le {input : List UInt8} (h : input.length ≤ p) :
    numberEnd input p = p := by
  rw [numberEnd, List.drop_eq_nil_of_le h]
  rfl

theorem numberEnd_of_neg {input : List UInt8} (h : p < input.length) (hc : byteAt input p = .ok c)
    (hno : numberByte c = false) : numberEnd input p = p := by
  obtain ⟨d, hd, hdrop⟩ := drop_eq_cons h
  obtain rfl : c = d := Except.ok.inj (hc.symm.trans hd)
  rw [numberEnd, hdrop, List.takeWhile_cons_of_neg (by rw [hno]; decide)]
  rfl

theorem numberEnd_add {input : List UInt8} (hlen : (slice input p n).length = n)
    (hall : ∀ b ∈ slice input p n, numberByte b = true) :
    numberEnd input (p + n) = numberEnd input p := by
  rw [numberEnd, numberEnd, drop_eq_slice input p n, List.takeWhile_append_of_pos hall,
    List.length_append, hlen]
  omega

theorem numberEnd_succ {input : List UInt8} (h : p < input.length) (hc : byteAt input p = .ok c)
    (hyes : numberByte c = true) : numberEnd input (p + 1) = numberEnd input p := by
  obtain ⟨d, hd, hdrop⟩ := drop_eq_cons h
  obtain rfl : c = d := Except.ok.inj (hc.symm.trans hd)
  rw [numberEnd, numberEnd, hdrop, List.takeWhile_cons_of_pos hyes, List.length_cons]
  omega

theorem numberByte_of_digits {bs : List UInt8} (h : ∀ b ∈ bs, (!isDigit b) = false) :
    ∀ b ∈ bs, numberByte b = true := by
  intro b hb
  have hdigit := h b hb
  rw [Bool.not_eq_false'] at hdigit
  rw [numberByte, hdigit, Bool.true_or]

theorem skipDigits_spec {input : List UInt8} (h : input.length ≤ p + fuel) :
    ∃ q, skipDigits (fuel + 1) input p = .ok q ∧ p ≤ q ∧
      numberEnd input q = numberEnd input p := by
  induction fuel generalizing p with
  | zero =>
    rw [skipDigits, if_neg (by omega)]
    exact ⟨p, rfl, Nat.le_refl p, rfl⟩
  | succ fuel ih =>
    rw [skipDigits]
    split
    next hp =>
      obtain ⟨w, hload, hw, hlen⟩ := loadU64_eq hp
      have hfind := lowestByte_eq (nonDigits_flags hlen hw) hlen
      rw [hload, ok_bind]
      dsimp only
      split
      next hnd =>
        rw [if_pos hnd] at hfind
        obtain ⟨q, hq, hle, hend⟩ := ih (p := p + 8) (by omega)
        exact ⟨q, hq, by omega, hend.trans (numberEnd_add hlen (numberByte_of_digits hfind))⟩
      next hnd =>
        rw [if_neg hnd] at hfind
        obtain ⟨hidx, hlt⟩ := hfind
        obtain ⟨-, -, -, -, hk, hdigits⟩ := slice_findIdx hidx.symm (hidx ▸ hlt)
        exact ⟨_, rfl, Nat.le_add_right p _, numberEnd_add hk (numberByte_of_digits hdigits)⟩
    next => exact ⟨p, rfl, Nat.le_refl p, rfl⟩

theorem numberLoop_eq {r : JsonReader} (h : r.byteCount ≤ p + fuel) :
    r.numberLoop (fuel + 1) p = .ok (r.endNumber (numberEnd r.input p)) := by
  induction fuel generalizing p with
  | zero =>
    obtain ⟨q, hq, hle, hend⟩ := skipDigits_spec (p := p) (Nat.le_add_left r.byteCount p)
    have hstop : q ≥ r.byteCount := by omega
    rw [JsonReader.numberLoop, hq, ok_bind, if_pos hstop, ← hend, numberEnd_of_length_le hstop]
    rfl
  | succ fuel ih =>
    obtain ⟨q, hq, hle, hend⟩ := skipDigits_spec (p := p) (Nat.le_add_left r.byteCount p)
    rw [JsonReader.numberLoop, hq, ok_bind, ← hend]
    split
    next hstop =>
      rw [numberEnd_of_length_le hstop]
      rfl
    next hin =>
      obtain ⟨c, hc, -⟩ := drop_eq_cons (Nat.lt_of_not_le hin)
      rw [hc, ok_bind]
      split
      next hyes => rw [ih (by omega), numberEnd_succ (Nat.lt_of_not_le hin) hc hyes]
      next hno =>
        rw [numberEnd_of_neg (Nat.lt_of_not_le hin) hc (Bool.eq_false_iff.mpr hno)]
        rfl

theorem scanNumberSpan_eq (r : JsonReader) :
    r.scanNumberSpan = .ok { r with
      tokenStart := r.pos
      tokenEnd := numberEnd r.input (r.pos + 1)
      pos := numberEnd r.input (r.pos + 1) } :=
  numberLoop_eq (Nat.le_add_left _ _)

theorem numberEnd_spec (input : List UInt8) (p : Nat) :
    p ≤ numberEnd input p ∧
      (∀ i, p ≤ i → i < numberEnd input p → ∃ c, input[i]? = some c ∧ numberByte c = true) ∧
      ∀ c, input[numberEnd input p]? = some c → numberByte c = false := by
  rw [numberEnd]
  generalize htaken : (input.drop p).takeWhile numberByte = taken
  have hsplit := List.takeWhile_append_dropWhile (p := numberByte) (l := input.drop p)
  rw [htaken] at hsplit
  have hall : ∀ b ∈ taken, numberByte b = true := by
    intro b hb
    rw [← htaken] at hb
    exact List.mem_takeWhile_imp hb
  refine ⟨Nat.le_add_right _ _, fun i hi hlt => ?_, fun c hc => ?_⟩
  · obtain ⟨i, rfl⟩ := Nat.exists_eq_add_of_le hi
    have hlt' : i < taken.length := by omega
    rw [← List.getElem?_drop, ← hsplit, List.getElem?_append_left hlt',
      List.getElem?_eq_getElem hlt']
    exact ⟨_, rfl, hall _ (List.getElem_mem hlt')⟩
  · rw [← List.getElem?_drop, ← hsplit, List.getElem?_append_right (Nat.le_refl _),
      Nat.sub_self] at hc
    have hhead := List.head?_dropWhile_not numberByte (input.drop p)
    rw [← List.head?_eq_getElem?] at hc
    rw [hc] at hhead
    exact Bool.eq_false_iff.mpr (by simpa using hhead)

/-- Both scans are scans of one byte at a time: a string ends, or is unterminated, where it does
when every byte is looked at, and a number ends at the first byte outside the alphabet. -/
theorem scans_by_bytes (r : JsonReader) :
    r.scanStringSpan = r.scanStringByBytes ∧
      ∃ e, r.scanNumberSpan = .ok { r with tokenStart := r.pos, tokenEnd := e, pos := e } ∧
        r.pos < e ∧
        (∀ i, r.pos < i → i < e → ∃ c, r.input[i]? = some c ∧ numberByte c = true) ∧
        ∀ c, r.input[e]? = some c → numberByte c = false :=
  ⟨stringWords_eq (Nat.le_add_left _ _), _, scanNumberSpan_eq r, numberEnd_spec r.input (r.pos + 1)⟩

end Cajeta.Codec.Json
