import Cajeta.Codec.BaseTextDecoding

/-!
# Decoding undoes encoding

Both encoders spell the number that the bytes are, padded to whole symbols, and both decoders read
it back, as long as the sizes fit an `int32`.
-/

namespace Cajeta.Codec

open BaseText Cells Positional Except

namespace Base64

theorem charToSextet_lt (h : charToSextet c = some s) : s < 64 := by
  unfold charToSextet at h
  simp only [ge_iff_le, UInt8.le_iff_toNat_le, UInt8.reduceToNat] at h
  split at h
  · cases h
    omega
  split at h
  · cases h
    omega
  split at h
  · cases h
    omega
  split at h
  · cases h
    decide
  split at h
  · cases h
    decide
  · cases h

theorem decoder_sound : decoder.Sound where
  width_pos := by decide
  width_le := by decide
  symbol_lt c s h := charToSextet_lt h
  mask_mod _ _ _ := rfl
  truncated_iff n := by
    rw [decoder, decide_eq_true_eq]
    dsimp only
    constructor
    · intro hn m hm
      omega
    · intro hno
      have hm := hno (3 * (n / 4) + (n % 4 - 1))
      omega

theorem charToSextet_sextetToChar (urlSafe : Bool) :
    ∀ s < 64, charToSextet (sextetToChar s urlSafe) = some s ∧
      sextetToChar s urlSafe ≠ padding := by
  cases urlSafe <;> decide

/-! ### Groups of three bytes -/

theorem toNat_or (x : BitVec 32) {s : BitVec 32} (width a : Nat) (hx : x.toNat = 2 ^ width * a)
    (hs : s.toNat < 2 ^ width) : (x ||| s).toNat = x.toNat + s.toNat := by
  rw [BitVec.toNat_or, hx, Nat.two_pow_add_eq_or_of_lt hs]

theorem toNat_shifted (b : UInt8) (h : k ≤ 24) : (unsigned b <<< k).toNat = 2 ^ k * b.toNat := by
  have hb := b.toNat_lt
  have hmul : b.toNat * 2 ^ k < 2 ^ 8 * 2 ^ 24 :=
    Nat.mul_lt_mul_of_lt_of_le hb (Nat.pow_le_pow_right (by decide) h) (by decide)
  have hword : b.toNat * 2 ^ k < 2 ^ 32 := hmul
  rw [BitVec.toNat_shiftLeft, toNat_unsigned, Nat.shiftLeft_eq, Nat.mod_eq_of_lt hword,
    Nat.mul_comm]

theorem toNat_pair (b0 b1 : UInt8) :
    (unsigned b0 <<< 16 ||| unsigned b1 <<< 8).toNat = b0.toNat * 65536 + b1.toNat * 256 := by
  have h0 := toNat_shifted b0 (show 16 ≤ 24 by decide)
  have h1 := toNat_shifted b1 (show 8 ≤ 24 by decide)
  have hb := b1.toNat_lt
  rw [toNat_or _ 16 _ h0 (by omega), h0, h1]
  omega

theorem toNat_triple (b0 b1 b2 : UInt8) :
    (unsigned b0 <<< 16 ||| unsigned b1 <<< 8 ||| unsigned b2).toNat =
      b0.toNat * 65536 + b1.toNat * 256 + b2.toNat := by
  have hpair := toNat_pair b0 b1
  have hb := b2.toNat_lt
  have hlow := toNat_unsigned b2
  rw [toNat_or _ 8 (b0.toNat * 256 + b1.toNat) (by omega) (by omega), hpair, hlow]

/-- What the accumulator of a group is, from its bytes. -/
def group (b0 b1 b2 : UInt8) : BitVec 32 :=
  unsigned b0 <<< 16 ||| unsigned b1 <<< 8 ||| unsigned b2

/-- The four sextets of a group. -/
def sextets (v : BitVec 32) : List Nat := [field 6 v 18, field 6 v 12, field 6 v 6, field 6 v 0]

theorem field_lt (v : BitVec 32) (h : shift + width ≤ 32) : field width v shift < 2 ^ width := by
  rw [field_eq v h]
  exact Nat.mod_lt _ (Nat.two_pow_pos width)

theorem sextets_spell (b0 b1 b2 : UInt8) :
    Spells 6 (sextets (group b0 b1 b2)) [b0, b1, b2] 0 := by
  have hv := toNat_triple b0 b1 b2
  have hb0 := b0.toNat_lt
  have hb1 := b1.toNat_lt
  have hb2 := b2.toNat_lt
  refine ⟨?_, by decide, rfl, ?_⟩
  · simp only [sextets, List.forall_mem_cons, List.not_mem_nil, false_imp_iff, implies_true,
      and_true]
    exact ⟨field_lt _ (by decide), field_lt _ (by decide), field_lt _ (by decide),
      field_lt _ (by decide)⟩
  · simp only [sextets, group, value_cons, value_nil, List.length_cons, List.length_nil,
      List.map_cons, List.map_nil]
    rw [field_eq _ (by decide), field_eq _ (by decide), field_eq _ (by decide),
      field_eq _ (by decide), hv]
    omega

theorem wholeGroups_spec (urlSafe : Bool) {before : List UInt8} (hlen : before.length = 3 * g)
    (hat : Bytes.At data i (before ++ rest)) (hrest : rest.length < 3)
    (hn : n = i + (before ++ rest).length) (hfuel : g < fuel) :
    ∃ ss, Spells 6 ss before 0 ∧
      ∀ out o, wholeGroups data n urlSafe fuel i o out =
        emit out o (ss.map fun s => sextetToChar s urlSafe) >>= fun out =>
          .ok (i + 3 * g, o + 4 * g, out) := by
  induction g generalizing i before fuel with
  | zero =>
    obtain rfl : before = [] := List.eq_nil_of_length_eq_zero hlen
    obtain ⟨fuel, rfl⟩ := Nat.exists_eq_succ_of_ne_zero (Nat.ne_of_gt hfuel)
    refine ⟨[], .nil (by decide), fun out o => ?_⟩
    have hend : ¬i + 3 ≤ n := by
      rw [List.nil_append] at hn
      omega
    rw [wholeGroups, if_neg hend]
    rfl
  | succ g ih =>
    obtain ⟨fuel, rfl⟩ := Nat.exists_eq_succ_of_ne_zero (Nat.ne_of_gt (Nat.zero_lt_of_lt hfuel))
    obtain ⟨b0, b1, b2, before, rfl⟩ : ∃ b0 b1 b2 before', before = b0 :: b1 :: b2 :: before' := by
      match before, hlen with
      | b0 :: b1 :: b2 :: before, _ => exact ⟨b0, b1, b2, before, rfl⟩
    have hat1 := hat.tail
    have hat2 := hat1.tail
    have hlen' : before.length = 3 * g := by
      simp only [List.length_cons] at hlen
      omega
    have hn' : n = i + 3 + (before ++ rest).length := by
      simp only [List.cons_append, List.length_cons] at hn
      omega
    obtain ⟨ss, hspells, hloop⟩ := ih hlen' hat2.tail hn' (Nat.lt_of_succ_lt_succ hfuel)
    refine ⟨_, (sextets_spell b0 b1 b2).append hspells, fun out o => ?_⟩
    have hmore : i + 3 ≤ n := by omega
    have hi : i + 1 + 1 + 1 + 3 * g = i + 3 * (g + 1) := by omega
    have ho : o + 4 + 4 * g = o + 4 * (g + 1) := by omega
    rw [wholeGroups, if_pos hmore, byteAt, byteAt, byteAt, hat.getElem?, hat1.getElem?,
      hat2.getElem?, List.map_append, emit_append]
    simp only [orThrow, Option.elim_some, ok_bind, putSextet, hloop, sextets, group, List.map_cons,
      List.map_nil, emit, bind_assoc]
    rw [hi, ho]
    rfl

theorem pair_spell (b0 : UInt8) :
    Spells 6 [field 6 (unsigned b0 <<< 16) 18, field 6 (unsigned b0 <<< 16) 12] [b0] 4 := by
  have hv := toNat_shifted b0 (show 16 ≤ 24 by decide)
  have hb0 := b0.toNat_lt
  refine ⟨?_, by decide, rfl, ?_⟩
  · simp only [List.forall_mem_cons, List.not_mem_nil, false_imp_iff, implies_true, and_true]
    exact ⟨field_lt _ (by decide), field_lt _ (by decide)⟩
  · simp only [value_cons, value_nil, List.length_cons, List.length_nil, List.map_cons,
      List.map_nil]
    rw [field_eq _ (by decide), field_eq _ (by decide), hv]
    omega

theorem triple_spell (b0 b1 : UInt8) :
    Spells 6 [field 6 (unsigned b0 <<< 16 ||| unsigned b1 <<< 8) 18,
      field 6 (unsigned b0 <<< 16 ||| unsigned b1 <<< 8) 12,
      field 6 (unsigned b0 <<< 16 ||| unsigned b1 <<< 8) 6] [b0, b1] 2 := by
  have hv := toNat_pair b0 b1
  have hb0 := b0.toNat_lt
  have hb1 := b1.toNat_lt
  refine ⟨?_, by decide, rfl, ?_⟩
  · simp only [List.forall_mem_cons, List.not_mem_nil, false_imp_iff, implies_true, and_true]
    exact ⟨field_lt _ (by decide), field_lt _ (by decide), field_lt _ (by decide)⟩
  · simp only [value_cons, value_nil, List.length_cons, List.length_nil, List.map_cons,
      List.map_nil]
    rw [field_eq _ (by decide), field_eq _ (by decide), field_eq _ (by decide), hv]
    omega

theorem outLen_eq (pad : Bool) (hrem : n - n / 3 * 3 = rem) (hlt : rem < 3)
    (hfit : textLength 6 4 pad n < 2147483648) :
    (if rem = 1 then i32 (i32 ((n / 3 : Nat) * 4) + if pad then 4 else 2)
      else if rem = 2 then i32 (i32 ((n / 3 : Nat) * 4) + if pad then 4 else 3)
      else i32 ((n / 3 : Nat) * 4)) = (textLength 6 4 pad n : Nat) := by
  unfold textLength at hfit ⊢
  dsimp only at hfit ⊢
  cases pad with
  | false =>
    simp only [Bool.false_eq_true, if_false] at hfit ⊢
    have hgroups : i32 ((n / 3 : Nat) * 4) = (n / 3 : Nat) * 4 := i32_eq (by omega) (by omega)
    rw [hgroups]
    split
    · rw [i32_eq (by omega) (by omega)]
      omega
    · split
      · rw [i32_eq (by omega) (by omega)]
        omega
      · omega
  | true =>
    simp only [if_true] at hfit ⊢
    have hgroups : i32 ((n / 3 : Nat) * 4) = (n / 3 : Nat) * 4 := i32_eq (by omega) (by omega)
    rw [hgroups]
    split
    · rw [i32_eq (by omega) (by omega)]
      omega
    · split
      · rw [i32_eq (by omega) (by omega)]
        omega
      · omega

/-- The whole text, as it is emitted: the groups, the symbols of the rest and the padding. -/
theorem encodeInto_emit (data : List UInt8) (urlSafe pad : Bool) (hn : data.length < 2147483648)
    (hfit : textLength 6 4 pad data.length < 2147483648) :
    ∃ ss k p, Spells 6 ss data k ∧ ss.length + p = textLength 6 4 pad data.length ∧
      encodeInto data data.length urlSafe pad =
        emit (List.replicate (textLength 6 4 pad data.length) 0) 0
          (ss.map (sextetToChar · urlSafe) ++ List.replicate p padding) := by
  obtain ⟨before, rest, hdata, hbefore, hrest⟩ : ∃ before rest, data = before ++ rest ∧
      before.length = 3 * (data.length / 3) ∧ rest.length < 3 :=
    ⟨data.take (3 * (data.length / 3)), data.drop (3 * (data.length / 3)),
      (List.take_append_drop _ _).symm, by rw [List.length_take]; omega,
      by rw [List.length_drop]; omega⟩
  have hat : Bytes.At data 0 (before ++ rest) := ⟨[], by rw [← hdata, List.append_nil]; rfl⟩
  have hlen := congrArg List.length hdata
  rw [List.length_append] at hlen
  obtain ⟨ss, hspells, hloop⟩ := wholeGroups_spec urlSafe hbefore hat hrest
    (show data.length = 0 + (before ++ rest).length by rw [← hdata, Nat.zero_add])
    (show data.length / 3 < data.length + 1 by omega)
  have hss := hspells.length
  have hat' := hat.right
  have hrem : data.length - data.length / 3 * 3 = rest.length := by omega
  have hsize := outLen_eq pad hrem hrest hfit
  simp only [encodeInto, count_eq hn, hrem]
  rw [hsize, allocate_natCast, ok_bind, hloop]
  clear hloop hsize
  simp only [bind_assoc, ok_bind]
  have hi : 0 + 3 * (data.length / 3) = 0 + before.length := by omega
  have ho : 0 + 4 * (data.length / 3) = 0 + (ss.map (sextetToChar · urlSafe)).length := by
    rw [List.length_map]
    omega
  rw [hi, ho]
  match rest, hrest with
  | [], _ =>
    have hlen : data.length = before.length + 0 := hlen
    refine ⟨ss, 0, 0, ?_, ?_, ?_⟩
    · rwa [hdata, List.append_nil]
    · unfold textLength
      cases pad <;> simp <;> omega
    · rw [List.replicate_zero, List.append_nil]
      exact bind_pure _
  | [b0], _ =>
    have hlen : data.length = before.length + 1 := hlen
    have hb0 := hat'.getElem?
    refine ⟨_, _, if pad then 2 else 0, hdata ▸ hspells.append (pair_spell b0), ?_, ?_⟩
    · rw [List.length_append]
      unfold textLength
      cases pad <;> simp <;> omega
    · rw [List.map_append, List.append_assoc, emit_append]
      congr 1
      funext out
      rw [if_pos (show [b0].length = 1 from rfl), byteAt, hb0, orThrow, Option.elim_some, ok_bind]
      cases pad with
      | false => rfl
      | true =>
        simp only [if_true, putSextet, List.map_cons, List.map_nil, List.replicate,
          List.cons_append,
          List.nil_append, emit, bind_ok]
  | [b0, b1], _ =>
    have hlen : data.length = before.length + 2 := hlen
    have hb0 := hat'.getElem?
    have hb1 := hat'.tail.getElem?
    refine ⟨_, _, if pad then 1 else 0, hdata ▸ hspells.append (triple_spell b0 b1), ?_, ?_⟩
    · rw [List.length_append]
      unfold textLength
      cases pad <;> simp <;> omega
    · rw [List.map_append, List.append_assoc, emit_append]
      congr 1
      funext out
      rw [if_neg (show ¬[b0, b1].length = 1 from Nat.succ_ne_self 1),
        if_pos (show [b0, b1].length = 2 from rfl),
        byteAt, hb0, orThrow, Option.elim_some, ok_bind, byteAt, hb1, orThrow, Option.elim_some,
        ok_bind]
      cases pad with
      | false => rfl
      | true =>
        simp only [if_true, putSextet, List.map_cons, List.map_nil, List.replicate,
          List.cons_append,
          List.nil_append, emit, bind_ok]

theorem roundTrip_iff (data : List UInt8) (urlSafe pad : Bool)
    (hfit : textLength 6 4 pad data.length < 2147483648) :
    (∃ text, encodeInto data data.length urlSafe pad = .ok text ∧
      decodeBytes text text.length = .ok data) ↔ data.length < 268435456 := by
  have hn : data.length < 2147483648 := by
    unfold textLength at hfit
    dsimp only at hfit
    split at hfit <;> omega
  obtain ⟨ss, k, p, hspells, hlen, htext⟩ := encodeInto_emit data urlSafe pad hn hfit
  have htotal : (ss.map (sextetToChar · urlSafe) ++ List.replicate p padding).length =
      textLength 6 4 pad data.length := by
    rw [List.length_append, List.length_map, List.length_replicate, hlen]
  rw [emit_new, if_pos (Nat.le_of_eq htotal), htotal, Nat.sub_self, List.replicate_zero,
    List.append_nil] at htext
  have hiff := decodeBytes_iff decoder_sound (charToSextet_sextetToChar urlSafe) hspells p rfl
    (htotal ▸ hfit)
  constructor
  · rintro ⟨text, htext', hback⟩
    obtain rfl := Except.ok.inj (htext.symm.trans htext')
    exact hiff.mp hback
  · intro hsmall
    exact ⟨_, htext, hiff.mpr hsmall⟩

end Base64

namespace Base32

theorem charToQuintet_lt (h : charToQuintet c = some s) : s < 32 := by
  unfold charToQuintet at h
  simp only [ge_iff_le, UInt8.le_iff_toNat_le, UInt8.reduceToNat] at h
  split at h
  · cases h
    omega
  split at h
  · cases h
    omega
  split at h
  · cases h
    omega
  · cases h

theorem toNat_lowBits (acc : BitVec 32) (h : bits < 8) :
    (lowBits acc bits).toNat = acc.toNat % 2 ^ bits := by
  have hmask : ∀ b < 8, ((1 : BitVec 32) <<< b - 1).toNat = 2 ^ b - 1 := by decide
  rw [lowBits, BitVec.toNat_and, hmask bits h, Nat.and_two_pow_sub_one_eq_mod]

theorem decoder_sound : decoder.Sound where
  width_pos := by decide
  width_le := by decide
  symbol_lt c s h := charToQuintet_lt h
  mask_mod acc bits h := by
    rw [decoder, toNat_lowBits acc h, Nat.mod_mod]
  truncated_iff n := by
    rw [decoder]
    dsimp only
    rw [Bool.or_eq_true, Bool.or_eq_true, decide_eq_true_eq, decide_eq_true_eq, decide_eq_true_eq]
    constructor
    · intro hn m hm
      omega
    · intro hno
      have hm := hno (5 * (n / 8) + (n % 8 + 1) / 2)
      omega

theorem charToQuintet_quintetToChar :
    ∀ s < 32, charToQuintet (quintetToChar s) = some s ∧ quintetToChar s ≠ padding := by
  decide

/-! ### The bytes, five bits at a time -/

theorem drain_spec (h : Regrouped 5 done bits (acc.toNat % 2 ^ bits) total n) (hbits : bits ≤ 32)
    (hfuel : bits < fuel) :
    ∃ ss bits', bits' < 5 ∧ Regrouped 5 (done ++ ss) bits' (acc.toNat % 2 ^ bits') total n ∧
      ∀ out o, drain acc fuel bits out o =
        emit out o (ss.map quintetToChar) >>= fun out => .ok (bits', out, o + ss.length) := by
  induction fuel generalizing bits done with
  | zero => exact absurd hfuel (Nat.not_lt_zero _)
  | succ fuel ih =>
    by_cases hfull : bits ≥ 5
    · have hpop := h.pop hfull
      have hmod : acc.toNat % 2 ^ bits % 2 ^ (bits - 5) = acc.toNat % 2 ^ (bits - 5) :=
        Nat.mod_mod_of_dvd _ (Nat.pow_dvd_pow 2 (Nat.sub_le _ _))
      have hfield := field_pending acc (show bits - 5 + 5 ≤ 32 by omega)
      rw [Nat.sub_add_cancel hfull] at hfield
      rw [hmod, ← hfield] at hpop
      obtain ⟨ss, bits', hlast, hgrouped, hloop⟩ := ih hpop (by omega) (by omega)
      refine ⟨field 5 acc (bits - 5) :: ss, bits', hlast, ?_, fun out o => ?_⟩
      · rw [← List.append_cons] at hgrouped
        exact hgrouped
      · have ho : o + 1 + ss.length = o + (field 5 acc (bits - 5) :: ss).length := by
          rw [List.length_cons]
          omega
        rw [drain, if_pos hfull, List.map_cons, emit]
        simp only [hloop, bind_assoc, ho]
    · refine ⟨[], bits, by omega, by rwa [List.append_nil], fun out o => ?_⟩
      rw [drain, if_neg hfull]
      rfl

theorem encodeLoop_spec {data rest : List UInt8} (hat : Bytes.At data i rest) (hbits : bits < 5)
    (hacc : acc.toNat < 2 ^ bits) (h : Regrouped 5 done bits acc.toNat total n) :
    ∃ ss bits' acc', bits' < 5 ∧ acc'.toNat < 2 ^ bits' ∧
      Regrouped 5 (done ++ ss) bits' acc'.toNat (total + 8 * rest.length)
        (n * 256 ^ rest.length + value 256 (rest.map UInt8.toNat)) ∧
      ∀ out o, encodeLoop data rest.length i acc bits out o =
        emit out o (ss.map quintetToChar) >>= fun out => .ok (acc', bits', out, o + ss.length) := by
  induction rest generalizing i bits acc done total n with
  | nil =>
    refine ⟨[], bits, acc, hbits, hacc, ?_, fun out o => rfl⟩
    simpa using h
  | cons b rest ih =>
    have hb : (unsigned b).toNat < 2 ^ 8 := toNat_unsigned b ▸ b.toNat_lt
    have hpush := h.push hb
    have hshift := shiftIn_mod acc hb (show bits + 8 ≤ 32 by omega)
    rw [Nat.mod_eq_of_lt hacc] at hshift
    rw [← hshift, toNat_unsigned] at hpush
    obtain ⟨ss, bits', hbits', hdrained, hdrain⟩ := drain_spec hpush (by omega) (Nat.lt_succ_self _)
    have hlow := toNat_lowBits (acc <<< 8 ||| unsigned b) (show bits' < 8 by omega)
    rw [← hlow] at hdrained
    obtain ⟨ss', last, acc', hlast, hacc', hgrouped, hloop⟩ :=
      ih hat.tail hbits' (hlow ▸ Nat.mod_lt _ (Nat.two_pow_pos _)) hdrained
    refine ⟨ss ++ ss', last, acc', hlast, hacc', ?_, fun out o => ?_⟩
    · have htotal : total + 8 * (b :: rest).length = total + 8 + 8 * rest.length := by
        rw [List.length_cons]
        omega
      have hhorner := horner 256 n b.toNat (rest.map UInt8.toNat)
      rw [List.length_cons, List.length_map] at hhorner
      rw [htotal, ← List.append_assoc, List.map_cons, List.length_cons, hhorner]
      exact hgrouped
    · have ho : o + (ss.map quintetToChar).length + ss'.length = o + (ss ++ ss').length := by
        rw [List.length_map, List.length_append]
        omega
      rw [List.length_cons, encodeLoop, byteAt, hat.getElem?, orThrow, Option.elim_some, ok_bind,
        List.map_append, emit_append, ← ho]
      simp only [hdrain, bind_assoc, ok_bind, hloop, List.length_map]

theorem fillPadding_eq (count : Nat) (out : List UInt8) (o : Nat) :
    fillPadding count out o = emit out o (List.replicate count padding) := by
  induction count generalizing out o with
  | zero => rfl
  | succ count ih =>
    rw [fillPadding, List.replicate_succ, emit]
    simp only [ih]

/-- The size of the text that `encode` computes. -/
def outLen (n : Nat) (pad : Bool) : Int :=
  let chars := (i32 (i32 (n * 8) + 4)).tdiv 5
  if pad then i32 ((i32 (chars + 7)).tdiv 8 * 8) else chars

theorem outLen_small (h : n < 268435456) (pad : Bool) :
    outLen n pad = (textLength 5 8 pad n : Nat) := by
  have hbits : i32 ((n : Int) * 8) = n * 8 := i32_eq (by omega) (by omega)
  have hround : i32 ((n : Int) * 8 + 4) = n * 8 + 4 := i32_eq (by omega) (by omega)
  have hchars : ((n : Int) * 8 + 4).tdiv 5 = ((8 * n + 5 - 1) / 5 : Nat) := by
    rw [Int.tdiv_eq_ediv_of_nonneg (by omega)]
    omega
  rw [outLen, textLength, hbits, hround, hchars]
  cases pad with
  | false => rfl
  | true =>
    generalize hc : (8 * n + 5 - 1) / 5 = chars
    have hup : i32 ((chars : Int) + 7) = chars + 7 := i32_eq (by omega) (by omega)
    have hquanta : ((chars : Int) + 7).tdiv 8 = ((chars + 8 - 1) / 8 : Nat) := by
      rw [Int.tdiv_eq_ediv_of_nonneg (by omega)]
      omega
    simp only [if_true]
    rw [hup, hquanta, i32_eq (by omega) (by omega)]
    omega

theorem tdiv_bounds {lo x hi : Int} (d : Int) (hd : 0 < d) (hlo : lo ≤ x) (hhi : x ≤ hi) :
    lo.tdiv d ≤ x.tdiv d ∧ x.tdiv d ≤ hi.tdiv d :=
  ⟨Int.tdiv_le_tdiv hd hlo, Int.tdiv_le_tdiv hd hhi⟩

/-- Beyond 2^28 bytes the size has wrapped, and is too small for the symbols. -/
theorem outLen_big (h : 268435456 ≤ n) (hn : n < 2147483648) (pad : Bool) :
    outLen n pad < ((8 * n + 4) / 5 : Nat) := by
  obtain ⟨a, ha, -, -⟩ := exists_i32 (n * 8)
  obtain ⟨b, hb, hlo, hhi⟩ := exists_i32 (i32 (n * 8) + 4)
  have hchars : -429496729 ≤ (i32 (i32 (n * 8) + 4)).tdiv 5 ∧
      ((i32 (i32 (n * 8) + 4)).tdiv 5 ≤ 0 ∨
        536870912 ≤ n ∧ (i32 (i32 (n * 8) + 4)).tdiv 5 ≤ 429496729) := by
    refine ⟨(tdiv_bounds 5 (by decide) hlo hhi).1, ?_⟩
    rcases Int.le_total (i32 (i32 (n * 8) + 4)) 0 with hneg | hpos
    · exact .inl (tdiv_bounds 5 (by decide) hlo hneg).2
    · exact .inr ⟨by omega, (tdiv_bounds 5 (by decide) hlo hhi).2⟩
  rw [outLen]
  generalize (i32 (i32 (n * 8) + 4)).tdiv 5 = chars at hchars ⊢
  obtain ⟨hlow, hhigh⟩ := hchars
  cases pad with
  | false =>
    simp only [Bool.false_eq_true, if_false]
    omega
  | true =>
    have hup : i32 (chars + 7) = chars + 7 := i32_eq (by omega) (by omega)
    have hquanta : -53687091 ≤ (chars + 7).tdiv 8 ∧
        ((chars + 7).tdiv 8 ≤ 0 ∨ 536870912 ≤ n ∧ (chars + 7).tdiv 8 ≤ 53687092) := by
      rcases hhigh with hneg | ⟨hlarge, hpos⟩
      · obtain ⟨hmin, hmax⟩ := tdiv_bounds 8 (by decide) (show -429496729 ≤ chars + 7 by omega)
          (show chars + 7 ≤ 7 by omega)
        exact ⟨hmin, .inl hmax⟩
      · obtain ⟨hmin, hmax⟩ := tdiv_bounds 8 (by decide) (show -429496729 ≤ chars + 7 by omega)
          (show chars + 7 ≤ 429496736 by omega)
        exact ⟨hmin, .inr ⟨hlarge, hmax⟩⟩
    simp only [if_true]
    rw [hup]
    generalize (chars + 7).tdiv 8 = quanta at hquanta ⊢
    rw [i32_eq (by omega) (by omega)]
    omega

theorem field_last {acc : BitVec 32} (hacc : acc.toNat < 2 ^ bits) (hk : bits + k = 5) :
    field 5 (acc <<< (5 - bits)) 0 = acc.toNat * 2 ^ k := by
  have hshift : 5 - bits = k := by omega
  have hlt : acc.toNat * 2 ^ k < 2 ^ 5 := calc
    acc.toNat * 2 ^ k < 2 ^ bits * 2 ^ k := Nat.mul_lt_mul_of_pos_right hacc (Nat.two_pow_pos k)
    _ = 2 ^ 5 := by rw [← Nat.pow_add, hk]
  rw [hshift, field_eq _ (by decide), BitVec.toNat_shiftLeft, Nat.shiftLeft_eq, Nat.pow_zero,
    Nat.div_one, Nat.mod_eq_of_lt (show _ < 2 ^ 32 by omega), Nat.mod_eq_of_lt hlt]

/-- The whole text, as it is emitted: the quintets, the last of them padded, and the padding. -/
theorem encode_emit (data : List UInt8) (pad : Bool) (hn : data.length < 2147483648) :
    ∃ ss k, Spells 5 ss data k ∧ encode data data.length pad =
      allocate (outLen data.length pad) >>= fun out => emit out 0 (ss.map quintetToChar ++
        List.replicate ((outLen data.length pad).toNat - ss.length) padding) := by
  have hat : Bytes.At data 0 data := List.prefix_rfl
  obtain ⟨ss, bits, acc, hbits, hacc, hgrouped, hloop⟩ :=
    encodeLoop_spec hat (by decide) (show (0 : BitVec 32).toNat < 2 ^ 0 by decide)
      (Regrouped.empty 5)
  rw [List.nil_append, Nat.zero_add, Nat.zero_mul, Nat.zero_add] at hgrouped
  have hwidth := hgrouped.width
  have hencode : encode data data.length pad =
      allocate (outLen data.length pad) >>= fun out =>
        emit out 0 (ss.map quintetToChar) >>= fun out =>
          if bits > 0 then
            store out ss.length (quintetToChar (field 5 (acc <<< (5 - bits)) 0)) >>= fun out =>
              fillPadding ((outLen data.length pad).toNat - (ss.length + 1)) out (ss.length + 1)
          else fillPadding ((outLen data.length pad).toNat - ss.length) out ss.length := by
    rw [encode, count_eq hn, outLen]
    simp only [hloop, bind_assoc, ok_bind, Nat.zero_add]
  by_cases hpending : bits > 0
  · obtain ⟨k, hk⟩ : ∃ k, bits + k = 5 := ⟨5 - bits, by omega⟩
    have hpush := hgrouped.push (Nat.two_pow_pos k)
    rw [hk, Nat.add_zero, Nat.add_zero] at hpush
    have hlast := field_last hacc hk
    have hpop := hpush.pop (Nat.le_refl 5)
    rw [Nat.sub_self, Nat.pow_zero, Nat.div_one, Nat.mod_one, ← hlast] at hpop
    have hnumber := hpop.number
    rw [Nat.pow_zero, Nat.mul_one, Nat.add_zero] at hnumber
    refine ⟨_, k, ⟨hpop.digits, by omega, hpop.width, hnumber⟩, ?_⟩
    obtain rfl : 5 - bits = k := by omega
    rw [hencode]
    simp only [if_pos hpending, fillPadding_eq, List.map_append, emit_append, List.length_map,
      Nat.zero_add, List.length_append, List.map_cons, List.map_nil, emit, bind_assoc, ok_bind,
      List.length_cons, List.length_nil]
  · obtain rfl : bits = 0 := by omega
    have hnumber := hgrouped.number
    rw [Nat.lt_one_iff.mp hacc, Nat.pow_zero, Nat.mul_one, Nat.add_zero] at hnumber
    refine ⟨ss, 0, ⟨hgrouped.digits, by decide, by omega, ?_⟩, ?_⟩
    · rw [hnumber, Nat.pow_zero, Nat.mul_one]
    · rw [hencode]
      simp only [if_neg hpending, fillPadding_eq, emit_append, List.length_map, Nat.zero_add]

theorem roundTrip_iff (data : List UInt8) (pad : Bool)
    (hfit : textLength 5 8 pad data.length < 2147483648) :
    (∃ text, encode data data.length pad = .ok text ∧
      decodeBytes text text.length = .ok data) ↔ data.length < 268435456 := by
  have hn : data.length < 2147483648 := by
    unfold textLength at hfit
    dsimp only at hfit
    split at hfit <;> omega
  obtain ⟨ss, k, hspells, htext⟩ := encode_emit data pad hn
  have hcount := hspells.length
  have hshort := hspells.short
  constructor
  · rintro ⟨text, htext', -⟩
    by_contra hbig
    have hsize := outLen_big (Nat.le_of_not_lt hbig) hn pad
    rw [htext, allocate] at htext'
    split at htext'
    · cases htext'
    · rw [ok_bind, emit_new, if_neg] at htext'
      · cases htext'
      · rw [List.length_append, List.length_map]
        omega
  · intro hsmall
    have hsize := outLen_small hsmall pad
    have htotal : (ss.map quintetToChar ++ List.replicate
        (textLength 5 8 pad data.length - ss.length) padding).length =
          textLength 5 8 pad data.length := by
      have hle : ss.length ≤ textLength 5 8 pad data.length := by
        unfold textLength
        dsimp only
        split <;> omega
      rw [List.length_append, List.length_map, List.length_replicate]
      omega
    rw [hsize, allocate_natCast, ok_bind, Int.toNat_natCast, emit_new,
      if_pos (Nat.le_of_eq htotal), htotal, Nat.sub_self, List.replicate_zero,
      List.append_nil] at htext
    exact ⟨_, htext, (decodeBytes_iff decoder_sound charToQuintet_quintetToChar hspells _ rfl
      (htotal.trans_lt hfit)).mpr hsmall⟩

end Base32

theorem rejects_iff {d : Decoder} (hd : d.Sound) (data : List UInt8) :
    (Bad d (unpadded data) →
        ∃ message offset, d.decodeBytes data data.length = .error (.raised message offset)) ↔
      (Bad d (unpadded data) → Refused d (decoded data)) :=
  imp_congr_right fun _ => decodeBytes_raised_iff hd

/-- Both codecs give the bytes back exactly below 2^28 bytes, for texts below 2^31 characters; and
they raise on bad text exactly when the part that the 32-bit count covers has a length of no
encoding, or has a symbol outside the alphabet that is met before the result is overrun. -/
theorem codecs_exact (data : List UInt8) (urlSafe pad : Bool) :
    (textLength 6 4 pad data.length < 2147483648 →
      ((∃ text, Base64.encodeInto data data.length urlSafe pad = .ok text ∧
        Base64.decodeBytes text text.length = .ok data) ↔ data.length < 268435456)) ∧
    (textLength 5 8 pad data.length < 2147483648 →
      ((∃ text, Base32.encode data data.length pad = .ok text ∧
        Base32.decodeBytes text text.length = .ok data) ↔ data.length < 268435456)) ∧
    ((Bad Base64.decoder (unpadded data) →
        ∃ message offset, Base64.decodeBytes data data.length = .error (.raised message offset)) ↔
      (Bad Base64.decoder (unpadded data) → Refused Base64.decoder (decoded data))) ∧
    ((Bad Base32.decoder (unpadded data) →
        ∃ message offset, Base32.decodeBytes data data.length = .error (.raised message offset)) ↔
      (Bad Base32.decoder (unpadded data) → Refused Base32.decoder (decoded data))) :=
  ⟨Base64.roundTrip_iff data urlSafe pad, Base32.roundTrip_iff data pad,
    rejects_iff Base64.decoder_sound data, rejects_iff Base32.decoder_sound data⟩

/-- Four bytes, in the alphabet for URLs and without padding. -/
theorem codecs_exact_four :
    ∃ text, Base64.encodeInto [0, 255, 16, 7] 4 true false = .ok text ∧
      Base64.decodeBytes text text.length = .ok [0, 255, 16, 7] :=
  ((codecs_exact [0, 255, 16, 7] true false).1 (by decide)).mpr (by decide)

/-- Too many zeros: their text has 357913942 symbols, and six times that wraps. -/
theorem roundTrip_zeros :
    textLength 6 4 true 268435456 < 2147483648 ∧
      ¬∃ text, Base64.encodeInto (List.replicate 268435456 0) 268435456 false true = .ok text ∧
        Base64.decodeBytes text text.length = .ok (List.replicate 268435456 0) := by
  have hfit : textLength 6 4 true 268435456 < 2147483648 := by decide
  refine ⟨hfit, fun h => ?_⟩
  have hlen : (List.replicate 268435456 (0 : UInt8)).length = 268435456 := List.length_replicate
  have hiff := Base64.roundTrip_iff (List.replicate 268435456 0) false true
  rw [hlen] at hiff
  exact Nat.lt_irrefl _ ((hiff hfit).mp h)

end Cajeta.Codec
