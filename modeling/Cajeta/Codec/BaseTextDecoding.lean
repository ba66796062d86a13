import Cajeta.Codec.BaseText
import Cajeta.Lib.Bytes
import Cajeta.Lib.Positional
import Mathlib.Data.List.DropRight

/-!
# Decoding

What the symbols of a text regroup to, when the call fails, and that an encoding is read back as
long as the sizes fit an `int32`.
-/

namespace Cajeta.Codec

open BaseText Cells Positional Except

namespace BaseText

theorem toNat_unsigned (c : UInt8) : (unsigned c).toNat = c.toNat := by
  have hlt := c.toNat_lt
  rw [unsigned, BitVec.toNat_setWidth]
  exact Nat.mod_eq_of_lt (by omega)

theorem field_eq (acc : BitVec 32) (h : shift + width ≤ 32) :
    field width acc shift = acc.toNat / 2 ^ shift % 2 ^ width := by
  have hmask : (BitVec.ofNat 32 (2 ^ width - 1)).toNat = 2 ^ width - 1 := by
    have hpow : 2 ^ width ≤ 2 ^ 32 := Nat.pow_le_pow_right (by decide) (by omega)
    rw [BitVec.toNat_ofNat]
    exact Nat.mod_eq_of_lt (by have := Nat.two_pow_pos width; omega)
  rw [field, BitVec.toNat_and, hmask, Nat.and_two_pow_sub_one_eq_mod]
  refine Nat.eq_of_testBit_eq fun i => ?_
  rw [Nat.testBit_mod_two_pow, Nat.testBit_mod_two_pow, Nat.testBit_div_two_pow,
    BitVec.testBit_toNat, BitVec.testBit_toNat, BitVec.getLsbD_sshiftRight]
  by_cases hi : i < width
  · rw [decide_eq_false (show ¬32 ≤ i by omega), if_pos (show shift + i < 32 by omega),
      Nat.add_comm]
    rfl
  · rw [decide_eq_false hi, Bool.false_and, Bool.false_and]

theorem shiftIn_mod (acc : BitVec 32) {s : BitVec 32} (hs : s.toNat < 2 ^ width)
    (h : bits + width ≤ 32) :
    (acc <<< width ||| s).toNat % 2 ^ (bits + width) =
      acc.toNat % 2 ^ bits * 2 ^ width + s.toNat := by
  refine Nat.eq_of_testBit_eq fun i => ?_
  rw [Nat.mul_comm, Nat.testBit_two_pow_mul_add _ hs, Nat.testBit_mod_two_pow, BitVec.testBit_toNat,
    BitVec.getLsbD_or, BitVec.getLsbD_shiftLeft, Nat.testBit_mod_two_pow]
  by_cases hi : i < width
  · rw [if_pos hi, decide_eq_true (show i < bits + width by omega), decide_eq_true hi,
      BitVec.testBit_toNat]
    simp
  · rw [if_neg hi, decide_eq_false hi, ← BitVec.testBit_toNat s,
      Nat.testBit_lt_two_pow (Nat.lt_of_lt_of_le hs (Nat.pow_le_pow_right (by decide) (by omega)))]
    by_cases hin : i < bits + width
    · rw [decide_eq_true hin, decide_eq_true (show i < 32 by omega),
        decide_eq_true (show i - width < bits by omega), BitVec.testBit_toNat]
      simp
    · rw [decide_eq_false hin, decide_eq_false (show ¬i - width < bits by omega)]
      simp

theorem field_pending (acc : BitVec 32) (h : shift + width ≤ 32) :
    field width acc shift = acc.toNat % 2 ^ (shift + width) / 2 ^ shift := by
  rw [field_eq acc h, Nat.pow_add, Nat.mod_mul_right_div_self]

/-- Characters written from `o` on. -/
def emit (out : List UInt8) : (o : Nat) → List UInt8 → Coding (List UInt8)
  | _, [] => .ok out
  | o, c :: cs => do emit (← store out o c) (o + 1) cs

theorem bind_ok (x : Coding α) : (x >>= fun a => .ok a) = x := bind_pure x

theorem emit_append (out : List UInt8) (o : Nat) (xs ys : List UInt8) :
    emit out o (xs ++ ys) = emit out o xs >>= fun out => emit out (o + xs.length) ys := by
  induction xs generalizing out o with
  | nil => rfl
  | cons x xs ih =>
    rw [List.cons_append, emit, emit]
    cases store out o x with
    | error e => rfl
    | ok out =>
      rw [ok_bind, ok_bind, ih, List.length_cons]
      congr 1
      funext out
      congr 1
      omega

/-- Everything is written when there is room, and otherwise the program ends. -/
theorem emit_eq (before rest cs : List UInt8) :
    emit (before ++ rest) before.length cs =
      if cs.length ≤ rest.length then .ok (before ++ cs ++ rest.drop cs.length)
      else .error .outOfBounds := by
  induction cs generalizing before rest with
  | nil =>
    rw [List.length_nil, if_pos (Nat.zero_le _), List.append_nil]
    rfl
  | cons c cs ih =>
    cases rest with
    | nil =>
      have hfull : ¬before.length < (before ++ ([] : List UInt8)).length := by
        rw [List.append_nil]
        exact Nat.lt_irrefl _
      rw [emit, store, if_neg hfull, List.length_cons, List.length_nil,
        if_neg (Nat.not_succ_le_zero _)]
      rfl
    | cons r rest =>
      have hroom : before.length < (before ++ r :: rest).length := by
        rw [List.length_append, List.length_cons]
        omega
      have hset : (before ++ r :: rest).set before.length c = before ++ [c] ++ rest := by
        rw [List.set_append_right _ _ (Nat.le_refl _), Nat.sub_self, List.append_assoc]
        rfl
      have hrest := ih (before ++ [c]) rest
      rw [List.length_append, List.length_singleton] at hrest
      rw [emit, store, if_pos hroom, ok_bind, hset, hrest, List.length_cons, List.length_cons,
        List.drop_succ_cons, List.append_assoc before]
      simp only [Nat.add_le_add_iff_right]
      rfl

theorem emit_new (size : Nat) (cs : List UInt8) :
    emit (List.replicate size 0) 0 cs =
      if cs.length ≤ size then .ok (cs ++ List.replicate (size - cs.length) 0)
      else .error .outOfBounds := by
  have h := emit_eq [] (List.replicate size 0) cs
  rw [List.length_replicate, List.drop_replicate] at h
  exact h

theorem allocate_natCast (size : Nat) : allocate size = .ok (List.replicate size 0) := by
  rw [allocate, if_neg (by omega), Int.toNat_natCast]

/-! ## Decoding -/

/-- The values of the symbols, when all of them have one. -/
def symbols (d : Decoder) (text : List UInt8) : Option (List Nat) := text.mapM d.symbol

structure Decoder.Sound (d : Decoder) : Prop where
  width_pos : 0 < d.width
  width_le : d.width ≤ 8
  symbol_lt : ∀ c s, d.symbol c = some s → s < 2 ^ d.width
  mask_mod : ∀ acc bits, bits < 8 → (d.mask acc bits).toNat % 2 ^ bits = acc.toNat % 2 ^ bits
  truncated_iff : ∀ n, d.truncated n = true ↔ ∀ m, (8 * m + d.width - 1) / d.width ≠ n

theorem loop_spec {d : Decoder} (hd : d.Sound) {data text : List UInt8}
    (hat : Bytes.At data i text) (hbits : bits < 8) (hsymbols : symbols d text = some ss)
    (h : Regrouped 8 done bits (acc.toNat % 2 ^ bits) total n) :
    ∃ os bits' r,
      (∀ out o, d.loop data text.length i acc bits out o = emit out o (os.map .ofNat)) ∧
      bits' < 8 ∧ Regrouped 8 (done ++ os) bits' r (total + d.width * ss.length)
        (n * (2 ^ d.width) ^ ss.length + value (2 ^ d.width) ss) := by
  induction text generalizing i acc bits ss done total n with
  | nil =>
    obtain rfl : [] = ss := Option.some.inj hsymbols
    refine ⟨[], bits, acc.toNat % 2 ^ bits, fun _ _ => rfl, hbits, ?_⟩
    simpa using h
  | cons c text ih =>
    obtain ⟨s, ss, hs, hss, rfl⟩ : ∃ s ss', d.symbol c = some s ∧ symbols d text = some ss' ∧
        s :: ss' = ss := by
      simp only [symbols, List.mapM_cons, bind, Option.bind_eq_some_iff, pure,
        Option.some.injEq] at hsymbols
      obtain ⟨s, hs, ss', hss, heq⟩ := hsymbols
      exact ⟨s, ss', hs, hss, heq⟩
    have hlt := hd.symbol_lt c s hs
    have hle := hd.width_le
    have htoNat : (BitVec.ofNat 32 s).toNat = s := by
      have hpow : 2 ^ d.width ≤ 2 ^ 8 := Nat.pow_le_pow_right (by decide) hle
      rw [BitVec.toNat_ofNat]
      exact Nat.mod_eq_of_lt (by omega)
    have hpush := h.push hlt
    have hacc := shiftIn_mod acc (htoNat.symm ▸ hlt) (show bits + d.width ≤ 32 by omega)
    rw [htoNat] at hacc
    rw [← hacc] at hpush
    have htotal : total + d.width + d.width * ss.length = total + d.width * (s :: ss).length := by
      rw [List.length_cons, Nat.mul_succ]
      omega
    rw [horner (2 ^ d.width) n s ss, ← htotal]
    generalize hnext : acc <<< d.width ||| BitVec.ofNat 32 s = acc' at hpush
    generalize hsum : bits + d.width = bits' at hpush
    have hstep : ∀ out o, d.loop data (c :: text).length i acc bits out o =
        if bits' ≥ 8 then
          store out o (.ofNat (field 8 acc' (bits' - 8))) >>= fun out =>
            d.loop data text.length (i + 1) (d.mask acc' (bits' - 8)) (bits' - 8) out (o + 1)
        else d.loop data text.length (i + 1) (d.mask acc' bits') bits' out o := by
      intro out o
      rw [List.length_cons, Decoder.loop, byteAt, hat.getElem?, orThrow, Option.elim_some, ok_bind,
        ← hnext, ← hsum]
      simp only [hs]
    by_cases hfull : bits' ≥ 8
    · have hpop := hpush.pop hfull
      have hmod : acc'.toNat % 2 ^ bits' % 2 ^ (bits' - 8) = acc'.toNat % 2 ^ (bits' - 8) :=
        Nat.mod_mod_of_dvd _ (Nat.pow_dvd_pow 2 (Nat.sub_le _ _))
      have hfield := field_pending acc' (show bits' - 8 + 8 ≤ 32 by omega)
      rw [Nat.sub_add_cancel hfull] at hfield
      rw [hmod, ← hfield, ← hd.mask_mod _ _ (by omega)] at hpop
      obtain ⟨os, last, r, hloop, hlast, hgrouped⟩ := ih hat.tail (by omega) hss hpop
      refine ⟨field 8 acc' (bits' - 8) :: os, last, r, fun out o => ?_, hlast, ?_⟩
      · rw [hstep, if_pos hfull, List.map_cons, emit]
        simp only [hloop]
      · rw [← List.append_cons] at hgrouped
        exact hgrouped
    · rw [← hd.mask_mod _ _ (by omega)] at hpush
      obtain ⟨os, last, r, hloop, hrest⟩ := ih hat.tail (by omega) hss hpush
      refine ⟨os, last, r, fun out o => ?_, hrest⟩
      rw [hstep, if_neg hfull, hloop]

/-- A symbol outside the alphabet is met, unless the bytes of the symbols ahead of it overrun the
result. -/
theorem loop_bad {d : Decoder} (hwidth : d.width ≤ 8) {data before : List UInt8}
    (hat : Bytes.At data i (before ++ c :: after)) (hbefore : ∀ x ∈ before, d.symbol x ≠ none)
    (hc : d.symbol c = none) (hbits : bits < 8) (ho : o ≤ out.length) :
    d.loop data (before ++ c :: after).length i acc bits out o =
      if o + (bits + d.width * before.length) / 8 ≤ out.length then
        .error (.raised d.invalidMessage (i + before.length))
      else .error .outOfBounds := by
  induction before generalizing i acc bits out o with
  | nil =>
    have hroom : o + (bits + d.width * ([] : List UInt8).length) / 8 ≤ out.length := by
      rw [List.length_nil, Nat.mul_zero, Nat.add_zero, Nat.div_eq_of_lt hbits]
      exact ho
    rw [if_pos hroom, List.nil_append, List.length_cons, Decoder.loop, byteAt, hat.getElem?,
      orThrow,
      Option.elim_some, ok_bind, hc]
    rfl
  | cons x before ih =>
    obtain ⟨hx, hbefore⟩ := List.forall_mem_cons.mp hbefore
    obtain ⟨s, hs⟩ := Option.ne_none_iff_exists'.mp hx
    rw [List.cons_append] at hat
    rw [List.cons_append, List.length_cons, Decoder.loop, byteAt, hat.getElem?, orThrow,
      Option.elim_some, ok_bind, hs, List.length_cons, Nat.mul_succ,
      show i + (before.length + 1) = i + 1 + before.length by omega]
    dsimp only
    split
    next hfull =>
      rw [store]
      by_cases hroom : o < out.length
      · have hlen : (out.set o (.ofNat (field 8 (acc <<< d.width ||| BitVec.ofNat 32 s)
            (bits + d.width - 8)))).length = out.length := List.length_set
        rw [if_pos hroom, ok_bind, ih hat.tail hbefore (by omega) (by omega), hlen]
        congr 2
        omega
      · rw [if_neg hroom, if_neg (by omega)]
        rfl
    next hfew =>
      rw [ih hat.tail hbefore (by omega) ho]
      congr 3
      omega

/-- What the calls read of an array: as many bytes as the 32-bit count says. -/
def readPart (data : List UInt8) : List UInt8 := data.take (count data.length)

/-- The text without trailing `=`. -/
def unpadded (text : List UInt8) : List UInt8 := text.rdropWhile (· == padding)

theorem count_le (n : Nat) : count n ≤ n := by
  unfold count i32 Int.bmod
  dsimp only
  split <;> omega

theorem count_eq {n : Nat} (h : n < 2147483648) : count n = n := by
  rw [count, i32_eq (by omega) (by omega)]
  rfl

theorem stripPadding_eq (h : n ≤ data.length) :
    stripPadding data n = .ok (unpadded (data.take n)).length := by
  induction n with
  | zero => rfl
  | succ n ih =>
    have hget : data[n]? = some data[n] := List.getElem?_eq_getElem h
    rw [stripPadding, byteAt, hget, orThrow, Option.elim_some, ok_bind, List.take_add_one, hget,
      Option.toList_some, unpadded, List.rdropWhile_concat]
    split
    next hpad =>
      rw [if_pos (beq_iff_eq.mpr hpad), ih (Nat.le_of_succ_le h)]
      rfl
    next hpad =>
      rw [if_neg (fun heq => hpad (beq_iff_eq.mp heq)), List.length_append, List.length_take,
        Nat.min_eq_left (Nat.le_of_succ_le h)]
      rfl

def decoded (data : List UInt8) : List UInt8 := unpadded (readPart data)

theorem at_decoded (data : List UInt8) : Bytes.At data 0 (decoded data) :=
  (List.rdropWhile_prefix _ _).trans (List.take_prefix _ _)

theorem decodeBytes_eq (d : Decoder) (data : List UInt8) :
    d.decodeBytes data data.length =
      if d.truncated (decoded data).length = true then
        .error (.raised d.truncatedMessage (decoded data).length)
      else
        allocate ((i32 ((decoded data).length * d.width : Nat)).tdiv 8) >>= fun out =>
          d.loop data (decoded data).length 0 0 0 out 0 := by
  rw [Decoder.decodeBytes, stripPadding_eq (count_le _), ok_bind]
  rfl

theorem length_symbols {d : Decoder} (h : symbols d text = some ss) : ss.length = text.length := by
  induction text generalizing ss with
  | nil =>
    obtain rfl : [] = ss := Option.some.inj h
    rfl
  | cons c text ih =>
    simp only [symbols, List.mapM_cons, bind, Option.bind_eq_some_iff, pure,
      Option.some.injEq] at h
    obtain ⟨s, -, ss, hss, rfl⟩ := h
    rw [List.length_cons, List.length_cons, ih hss]

theorem loop_new {d : Decoder} (hd : d.Sound) (hsymbols : symbols d (decoded data) = some ss) :
    ∃ os bits r, bits < 8 ∧
      Regrouped 8 os bits r (d.width * ss.length) (value (2 ^ d.width) ss) ∧
      ∀ size, d.loop data (decoded data).length 0 0 0 (List.replicate size 0) 0 =
        if d.width * (decoded data).length / 8 ≤ size then
          .ok (os.map .ofNat ++ List.replicate (size - d.width * (decoded data).length / 8) 0)
        else .error .outOfBounds := by
  have hstart : Regrouped 8 [] 0 ((0 : BitVec 32).toNat % 2 ^ 0) 0 0 := Regrouped.empty 8
  obtain ⟨os, bits, r, hloop, hbits, hgrouped⟩ :=
    loop_spec hd (at_decoded data) (by decide) hsymbols hstart
  rw [List.nil_append, Nat.zero_add, Nat.zero_mul, Nat.zero_add] at hgrouped
  refine ⟨os, bits, r, hbits, hgrouped, fun size => ?_⟩
  have hcount : (os.map UInt8.ofNat).length = d.width * (decoded data).length / 8 := by
    have hwidth := hgrouped.width
    rw [length_symbols hsymbols] at hwidth
    rw [List.length_map]
    omega
  rw [hloop, emit_new, hcount]

theorem decodeBytes_ok {d : Decoder} (hd : d.Sound)
    (hlen : d.truncated (decoded data).length = false)
    (hsymbols : symbols d (decoded data) = some ss)
    (hsize : d.width * (decoded data).length < 2147483648) :
    ∃ os bits r, d.decodeBytes data data.length = .ok (os.map .ofNat) ∧ bits < 8 ∧
      Regrouped 8 os bits r (d.width * ss.length) (value (2 ^ d.width) ss) := by
  obtain ⟨os, bits, r, hbits, hgrouped, hloop⟩ := loop_new hd hsymbols
  refine ⟨os, bits, r, ?_, hbits, hgrouped⟩
  have hdiv := (Int.ofNat_tdiv (d.width * (decoded data).length) 8).symm
  rw [decodeBytes_eq, hlen, if_neg Bool.false_ne_true, Nat.mul_comm _ d.width,
    i32_eq (by omega) (by omega)]
  change allocate (((d.width * (decoded data).length : Nat) : Int).tdiv (8 : Nat)) >>= _ = _
  rw [hdiv, allocate_natCast, ok_bind, hloop, if_pos (Nat.le_refl _), Nat.sub_self,
    List.replicate_zero, List.append_nil]

/-- The bytes of the symbols do not fit a result whose size has wrapped. -/
theorem decodeBytes_overflow {d : Decoder} (hd : d.Sound)
    (hlen : d.truncated (decoded data).length = false)
    (hsymbols : symbols d (decoded data) = some ss)
    (hsize : 2147483648 ≤ d.width * (decoded data).length) :
    ∃ e, d.decodeBytes data data.length = .error e ∧
      ∀ message offset, e ≠ .raised message offset := by
  rw [decodeBytes_eq, hlen, if_neg Bool.false_ne_true, allocate]
  split
  · exact ⟨_, rfl, nofun⟩
  · obtain ⟨os, bits, r, -, -, hloop⟩ := loop_new hd hsymbols
    obtain ⟨-, -, -, hwrap⟩ := exists_i32 ((decoded data).length * d.width : Nat)
    have hfits := Int.tdiv_le_tdiv (show (0 : Int) < 8 by decide) hwrap
    have hlimit : (2147483647 : Int).tdiv 8 = 268435455 := by decide
    rw [hlimit] at hfits
    rw [ok_bind, hloop, if_neg (by omega)]
    exact ⟨_, rfl, nofun⟩

/-! ## What is decoded -/

/-- A text without padding that encodes nothing: a symbol is outside the alphabet, or no number of
bytes has that many symbols. -/
def Bad (d : Decoder) (text : List UInt8) : Prop :=
  (∃ c ∈ text, d.symbol c = none) ∨ ∀ m, (8 * m + d.width - 1) / d.width ≠ text.length

theorem symbols_eq_none : symbols d text = none ↔ ∃ c ∈ text, d.symbol c = none := by
  induction text with
  | nil => exact iff_of_false (Option.some_ne_none _) (fun ⟨_, hc, _⟩ => absurd hc List.not_mem_nil)
  | cons c text ih =>
    rw [List.exists_mem_cons_iff, ← ih, symbols, symbols, List.mapM_cons]
    cases d.symbol c with
    | none => exact iff_of_true rfl (.inl rfl)
    | some s =>
      cases text.mapM d.symbol with
      | none => exact iff_of_true rfl (.inr rfl)
      | some ss => exact iff_of_false (Option.some_ne_none _) (by simp)

theorem symbols_map {d : Decoder} {char : Nat → UInt8} (h : ∀ s ∈ ss, d.symbol (char s) = some s) :
    symbols d (ss.map char) = some ss := by
  induction ss with
  | nil => rfl
  | cons s ss ih =>
    obtain ⟨hs, hss⟩ := List.forall_mem_cons.mp h
    have hrest := ih hss
    rw [symbols] at hrest
    rw [symbols, List.map_cons, List.mapM_cons, hs, hrest]
    rfl

/-- The size of the result that a text of `n` symbols is given. -/
def Decoder.outLen (d : Decoder) (n : Nat) : Int := (i32 (n * d.width : Nat)).tdiv 8

/-- What raises: no encoding has the length of the text, or a symbol is outside the alphabet and the
result has room for the bytes of the symbols ahead of the first such one. -/
def Refused (d : Decoder) (text : List UInt8) : Prop :=
  (∀ m, (8 * m + d.width - 1) / d.width ≠ text.length) ∨
    ∃ before c after, text = before ++ c :: after ∧ (∀ x ∈ before, d.symbol x ≠ none) ∧
      d.symbol c = none ∧ (d.width * before.length / 8 : Nat) ≤ d.outLen text.length

theorem exists_first_bad {d : Decoder} (h : symbols d text = none) :
    ∃ before c after, text = before ++ c :: after ∧ (∀ x ∈ before, d.symbol x ≠ none) ∧
      d.symbol c = none := by
  induction text with
  | nil => exact absurd h (Option.some_ne_none _)
  | cons c text ih =>
    cases hc : d.symbol c with
    | none => exact ⟨[], c, text, rfl, fun _ hx => absurd hx List.not_mem_nil, hc⟩
    | some s =>
      obtain ⟨c', hc', hnone⟩ := symbols_eq_none.mp h
      have hmem : c' ∈ text := (List.mem_cons.mp hc').resolve_left fun heq => by
        rw [heq, hc] at hnone
        cases hnone
      obtain ⟨before, x, after, rfl, hbefore, hx⟩ := ih (symbols_eq_none.mpr ⟨c', hmem, hnone⟩)
      exact ⟨c :: before, x, after, rfl, List.forall_mem_cons.mpr ⟨hc ▸ Option.some_ne_none s,
        hbefore⟩, hx⟩

/-- The call on a text with a symbol outside the alphabet, the first of which is `c`. -/
theorem decodeBytes_bad {d : Decoder} (hd : d.Sound)
    (hlen : d.truncated (decoded data).length = false)
    (htext : decoded data = before ++ c :: after) (hbefore : ∀ x ∈ before, d.symbol x ≠ none)
    (hc : d.symbol c = none) :
    d.decodeBytes data data.length =
      if d.outLen (decoded data).length < 0 then .error .negativeSize
      else if (d.width * before.length / 8 : Nat) ≤ d.outLen (decoded data).length then
        .error (.raised d.invalidMessage before.length)
      else .error .outOfBounds := by
  have hloop : ∀ out : List UInt8, d.loop data (decoded data).length 0 0 0 out 0 =
      if d.width * before.length / 8 ≤ out.length then
        .error (.raised d.invalidMessage before.length)
      else .error .outOfBounds := by
    intro out
    have hat : Bytes.At data 0 (before ++ c :: after) := htext ▸ at_decoded data
    rw [htext, loop_bad hd.width_le hat hbefore hc (by decide) (Nat.zero_le _), Nat.zero_add,
      Nat.zero_add, Nat.zero_add]
  rw [decodeBytes_eq, hlen, if_neg Bool.false_ne_true, allocate, Decoder.outLen]
  split
  · rfl
  next hpos =>
    rw [ok_bind, hloop, List.length_replicate]
    exact if_congr (by omega) rfl rfl

theorem decodeBytes_raised_iff {d : Decoder} (hd : d.Sound) :
    (∃ message offset, d.decodeBytes data data.length = .error (.raised message offset)) ↔
      Refused d (decoded data) := by
  by_cases hlen : d.truncated (decoded data).length = true
  · refine iff_of_true ⟨d.truncatedMessage, (decoded data).length, ?_⟩
      (.inl ((hd.truncated_iff _).mp hlen))
    rw [decodeBytes_eq, if_pos hlen]
  have hfull := Bool.not_eq_true _ ▸ hlen
  have hlen' : ¬∀ m, (8 * m + d.width - 1) / d.width ≠ (decoded data).length :=
    fun h => hlen ((hd.truncated_iff _).mpr h)
  constructor
  · rintro ⟨message, offset, hraised⟩
    cases hsymbols : symbols d (decoded data) with
    | some ss =>
      rcases Nat.lt_or_ge (d.width * (decoded data).length) 2147483648 with hsize | hsize
      · obtain ⟨_, _, _, hok, _⟩ := decodeBytes_ok hd hfull hsymbols hsize
        cases hraised.symm.trans hok
      · obtain ⟨e, he, hno⟩ := decodeBytes_overflow hd hfull hsymbols hsize
        cases hraised.symm.trans he
        exact absurd rfl (hno message offset)
    | none =>
      obtain ⟨before, c, after, htext, hbefore, hc⟩ := exists_first_bad hsymbols
      rw [decodeBytes_bad hd hfull htext hbefore hc] at hraised
      split at hraised
      · cases hraised
      split at hraised
      next hroom => exact .inr ⟨before, c, after, htext, hbefore, hc, hroom⟩
      · cases hraised
  · rintro (hno | ⟨before, c, after, htext, hbefore, hc, hroom⟩)
    · exact absurd hno hlen'
    · exact ⟨_, _, (decodeBytes_bad hd hfull htext hbefore hc).trans
        ((if_neg (by omega)).trans (if_pos hroom))⟩

/-- The symbols of an encoding: the number that the bytes are, padded with fewer bits than a symbol
has. -/
structure Spells (width : Nat) (ss : List Nat) (data : List UInt8) (k : Nat) : Prop where
  symbol_lt : ∀ s ∈ ss, s < 2 ^ width
  short : k < width
  length : width * ss.length = 8 * data.length + k
  number : value (2 ^ width) ss = value 256 (data.map UInt8.toNat) * 2 ^ k

/-- The length of the text for `n` bytes: the symbols that they need, rounded up to whole quanta
with padding. -/
def textLength (width quantum : Nat) (pad : Bool) (n : Nat) : Nat :=
  let chars := (8 * n + width - 1) / width
  if pad then (chars + quantum - 1) / quantum * quantum else chars

theorem Spells.append (h : Spells w ss data 0) (h' : Spells w tail rest k) :
    Spells w (ss ++ tail) (data ++ rest) k where
  symbol_lt := List.forall_mem_append.mpr ⟨h.symbol_lt, h'.symbol_lt⟩
  short := h'.short
  length := by
    rw [List.length_append, List.length_append, Nat.mul_add, Nat.mul_add, h.length, h'.length]
    omega
  number := by
    have hpow : (2 ^ w) ^ tail.length = 256 ^ rest.length * 2 ^ k := by
      rw [← Nat.pow_mul, h'.length, Nat.pow_add, Nat.pow_mul]
    rw [List.map_append, value_append, value_append, h.number, h'.number, hpow, List.length_map,
      Nat.pow_zero, Nat.mul_one, Nat.add_mul, Nat.mul_assoc]

theorem Spells.nil (hw : 0 < w) : Spells w [] [] 0 :=
  ⟨fun _ hs => absurd hs List.not_mem_nil, hw, rfl, rfl⟩

theorem unpadded_append (hplain : ∀ c ∈ text, c ≠ padding) (p : Nat) :
    unpadded (text ++ List.replicate p padding) = text := by
  induction p with
  | zero =>
    rw [List.replicate_zero, List.append_nil]
    refine List.rdropWhile_eq_self_iff.mpr fun hne hlast => ?_
    exact hplain _ (List.getLast_mem hne) (beq_iff_eq.mp hlast)
  | succ p ih =>
    rw [List.replicate_succ', ← List.append_assoc, unpadded,
      List.rdropWhile_concat_pos (· == padding) _ _ (beq_self_eq_true padding)]
    exact ih

theorem decodeBytes_iff {d : Decoder} (hd : d.Sound) {char : Nat → UInt8}
    (hchar : ∀ s < 2 ^ d.width, d.symbol (char s) = some s ∧ char s ≠ padding)
    (h : Spells d.width ss data k) (p : Nat) (htext : text = ss.map char ++
      List.replicate p padding)
    (hsize : text.length < 2147483648) :
    d.decodeBytes text text.length = .ok data ↔ data.length < 268435456 := by
  have hlength := h.length
  have hshort := h.short
  have hle := hd.width_le
  have hdecoded : decoded text = ss.map char := by
    rw [decoded, readPart, count_eq hsize, List.take_length, htext]
    refine unpadded_append (fun c hc => ?_) p
    obtain ⟨s, hs, rfl⟩ := List.mem_map.mp hc
    exact (hchar s (h.symbol_lt s hs)).2
  have hsymbols : symbols d (decoded text) = some ss := by
    rw [hdecoded]
    exact symbols_map fun s hs => (hchar s (h.symbol_lt s hs)).1
  have hcount : (decoded text).length = ss.length := by rw [hdecoded, List.length_map]
  have hlen : d.truncated (decoded text).length = false := by
    rw [← Bool.not_eq_true, hd.truncated_iff, hcount]
    intro hno
    have hcomm := Nat.mul_comm d.width ss.length
    refine hno data.length (Nat.div_eq_of_lt_le (by omega) ?_)
    rw [Nat.succ_mul ss.length]
    omega
  constructor
  · intro hok
    by_contra hbig
    have hwrap : 2147483648 ≤ d.width * (decoded text).length := by
      rw [hcount]
      omega
    obtain ⟨e, he, -⟩ := decodeBytes_overflow hd hlen hsymbols hwrap
    cases hok.symm.trans he
  · intro hsmall
    obtain ⟨os, bits, r, hok, hbits, hgrouped⟩ :=
      decodeBytes_ok hd hlen hsymbols (by rw [hcount]; omega)
    rw [hlength, h.number, ← List.length_map UInt8.toNat] at hgrouped
    have hos := hgrouped.unpad (by decide) (fun d hd => ?_) hbits (by omega)
    · have hback : ∀ c ∈ data, (UInt8.ofNat ∘ UInt8.toNat) c = id c := fun c _ => UInt8.ofNat_toNat
      rw [hok, hos, List.map_map, List.map_congr_left hback, List.map_id]
    · obtain ⟨c, -, rfl⟩ := List.mem_map.mp hd
      exact c.toNat_lt

end BaseText

end Cajeta.Codec
