import Cajeta.Codec.JsonScan
import Cajeta.Lib.Positional
import Mathlib.Data.FinEnum

/-!
# The integers among the numbers

The range check compares digits and the parser accumulates them. On an integer literal both decide
by its value; whatever else the tokenizer takes for a number, the parser refuses.
-/

namespace Cajeta.Codec.Json

open Bytes Wrapping Positional Except

def digit (c : UInt8) : Nat := c.toNat - 48

/-- The value of a non-empty string of digits. -/
def naturalValue (ds : List UInt8) : Option Nat :=
  if ds ≠ [] ∧ ∀ c ∈ ds, isDigit c = true then some (value 10 (ds.map digit)) else none

def integerValue : List UInt8 → Option Int
  | [] => none
  | c :: ds =>
    if c = minus then (naturalValue ds).map fun n : Nat => -(n : Int)
    else (naturalValue (c :: ds)).map fun n : Nat => (n : Int)

/-- The bytes of the current token. -/
def JsonReader.token (r : JsonReader) : List UInt8 :=
  slice r.input r.tokenStart (r.tokenEnd - r.tokenStart)

theorem isDigit_iff (c : UInt8) : isDigit c = true ↔ 48 ≤ c.toNat ∧ c.toNat ≤ 57 := by
  rw [isDigit, Bool.and_eq_true, decide_eq_true_eq, decide_eq_true_eq, UInt8.le_iff_toNat_le,
    UInt8.le_iff_toNat_le]
  rfl

theorem digit_lt (h : isDigit c = true) : digit c < 10 := by
  obtain ⟨hlo, hhi⟩ := (isDigit_iff c).mp h
  rw [digit]
  omega

theorem digits_lt {ds : List UInt8} (h : ∀ c ∈ ds, isDigit c = true) :
    ∀ d ∈ ds.map digit, d < 10 := by
  intro d hd
  obtain ⟨c, hc, rfl⟩ := List.mem_map.mp hd
  exact digit_lt (h c hc)

theorem byteAt_of_at {input rest : List UInt8} (h : At input p (c :: rest)) :
    byteAt input p = .ok c := by
  rw [byteAt, h.getElem?]
  rfl

theorem skipZeros_eq (h : At input i bs) :
    skipZeros bs.length input i = .ok (i + (bs.takeWhile (· == zero)).length) := by
  induction bs generalizing i with
  | nil => rfl
  | cons b bs ih =>
    rw [List.length_cons, skipZeros, byteAt_of_at h, ok_bind]
    split
    next hb =>
      have hzero : (b == zero) = true := beq_iff_eq.mpr hb
      rw [ih h.tail, List.takeWhile_cons_of_pos (p := (· == zero)) hzero,
        List.length_cons]
      congr 1
      omega
    next hb =>
      have hzero : ¬(b == zero) = true := fun h => hb (beq_iff_eq.mp h)
      rw [List.takeWhile_cons_of_neg (p := (· == zero)) hzero]
      rfl

/-! ## The range check -/

/-- The digits of the limit that nineteen digits are compared with. -/
def limitFrom (negative : Bool) : (k : Nat) → List Int → List Nat
  | _, [] => []
  | k, l :: lim => (if negative && k = 18 then 8 else l.toNat) :: limitFrom negative (k + 1) lim

theorem signed_digit (h : isDigit c = true) : signed c - 48 = digit c := by
  obtain ⟨hlo, hhi⟩ := (isDigit_iff c).mp h
  have hsigned : signed c = c.toNat :=
    BitVec.toInt_eq_toNat_of_lt (show 2 * c.toNat < 2 ^ 8 by omega)
  rw [hsigned, digit]
  omega

theorem withinLimit_eq (h : At input (i + k) bs) (hdigits : ∀ c ∈ bs, isDigit c = true)
    (hlen : bs.length = lim.length) (hlim : ∀ l ∈ lim, 0 ≤ l) :
    withinLimit input negative i k lim =
      .ok (lexLe (bs.map digit) (limitFrom negative k lim)) := by
  induction lim generalizing bs k with
  | nil =>
    obtain rfl : bs = [] := List.eq_nil_of_length_eq_zero hlen
    rfl
  | cons l lim ih =>
    obtain ⟨b, bs, rfl⟩ : ∃ b bs', bs = b :: bs' := List.exists_cons_of_length_eq_add_one hlen
    obtain ⟨hb, hdigits⟩ := List.forall_mem_cons.mp hdigits
    obtain ⟨hl, hrest⟩ := List.forall_mem_cons.mp hlim
    have hrest := ih (k := k + 1) h.tail hdigits (Nat.succ.inj hlen) hrest
    obtain ⟨n, rfl⟩ := Int.eq_ofNat_of_zero_le hl
    have hlimit : (if negative && k = 18 then 8 else (n : Int)) =
        ((if negative && k = 18 then 8 else n : Nat) : Int) := by split <;> rfl
    rw [withinLimit, byteAt_of_at h, ok_bind, signed_digit hb, hlimit, hrest, List.map_cons,
      limitFrom, lexLe, Int.toNat_natCast]
    generalize (if negative && k = 18 then 8 else n) = m
    simp only [Int.ofNat_lt, gt_iff_lt]
    split
    · rfl
    · split <;> rfl

theorem withinLimit_ok (h : At input (i + k) bs) (hlen : bs.length = lim.length) :
    ∃ b, withinLimit input negative i k lim = .ok b := by
  induction lim generalizing bs k with
  | nil => exact ⟨true, rfl⟩
  | cons l lim ih =>
    obtain ⟨b, bs, rfl⟩ : ∃ b bs', bs = b :: bs' := List.exists_cons_of_length_eq_add_one hlen
    obtain ⟨answer, hrest⟩ := ih (k := k + 1) h.tail (Nat.succ.inj hlen)
    rw [withinLimit, byteAt_of_at h, ok_bind, hrest]
    generalize (if negative && k = 18 then 8 else l) = limit
    rcases Int.lt_trichotomy (signed b - 48) limit with hlt | heq | hgt
    · exact ⟨true, if_pos hlt⟩
    · exact ⟨answer, (if_neg (by omega)).trans (if_neg (by omega))⟩
    · exact ⟨false, (if_neg (by omega)).trans (if_pos hgt)⟩

/-- The largest absolute value of an integer of that sign. -/
def limitOf (negative : Bool) : Nat :=
  if negative then 9223372036854775808 else 9223372036854775807

theorem value_limitFrom (negative : Bool) :
    value 10 (limitFrom negative 0 limitDigits) = limitOf negative := by
  cases negative <;> rfl

theorem limitFrom_lt (negative : Bool) : ∀ l ∈ limitFrom negative 0 limitDigits, l < 10 := by
  cases negative <;> decide

/-- A digit string without leading zeros is within the limit as the length and the digits say. -/
theorem value_le_limit_iff (negative : Bool) {ds : List UInt8}
    (hdigits : ∀ c ∈ ds, isDigit c = true)
    (hhead : ∀ c ∈ ds.head?, c ≠ zero) :
    value 10 (ds.map digit) ≤ limitOf negative ↔
      ds.length < 19 ∨ ds.length = 19 ∧
        lexLe (ds.map digit) (limitFrom negative 0 limitDigits) = true := by
  have hlt := value_lt (by decide) (digits_lt hdigits)
  have hlo : 9223372036854775807 ≤ limitOf negative := by unfold limitOf; split <;> decide
  have hhi : limitOf negative ≤ 9223372036854775808 := by unfold limitOf; split <;> decide
  rw [List.length_map] at hlt
  rcases Nat.lt_trichotomy ds.length 19 with hshort | heq | hlong
  · have hpow : 10 ^ ds.length ≤ 10 ^ 18 := Nat.pow_le_pow_right (by decide) (by omega)
    exact iff_of_true (by omega) (.inl hshort)
  · have hlen : (ds.map digit).length = (limitFrom negative 0 limitDigits).length := by
      rw [List.length_map, heq]
      cases negative <;> rfl
    rw [lexLe_eq (by decide) hlen (digits_lt hdigits) (limitFrom_lt negative), value_limitFrom,
      decide_eq_true_eq]
    exact ⟨fun h => .inr ⟨heq, h⟩, fun h => (h.resolve_left (by omega)).2⟩
  · refine iff_of_false (fun hle => ?_) (by omega)
    cases ds with
    | nil => exact absurd hlong (by decide)
    | cons d ds =>
      have hd : d ≠ zero := hhead d rfl
      have hpos : 1 ≤ digit d := by
        have hrange := (isDigit_iff d).mp (hdigits d List.mem_cons_self)
        have hne : d.toNat ≠ 48 := fun h => hd (UInt8.toNat_inj.mp h)
        rw [digit]
        omega
      have hge := le_value_cons 10 (digit d) (ds.map digit)
      have hpow : 10 ^ 19 ≤ 10 ^ (ds.map digit).length :=
        Nat.pow_le_pow_right (by decide) (by rw [List.length_map]; exact Nat.le_of_lt_succ hlong)
      have hmul := Nat.mul_le_mul hpos hpow
      rw [List.map_cons] at hle
      omega

theorem value_dropWhile (ds : List UInt8) :
    value 10 ((ds.dropWhile (· == zero)).map digit) = value 10 (ds.map digit) := by
  induction ds with
  | nil => rfl
  | cons d ds ih =>
    rw [List.dropWhile_cons]
    split
    next hd =>
      obtain rfl : d = zero := beq_iff_eq.mp hd
      have hzero : digit zero = 0 := rfl
      rw [ih, List.map_cons, value_cons, hzero, Nat.zero_mul, Nat.zero_add]
    next => rfl

/-- A token `c :: ds` is behind its sign when `body` stands at `i`. -/
structure Behind (r : JsonReader) (c : UInt8) (ds : List UInt8) (i : Nat) (body : List UInt8) :
    Prop where
  start : At r.input r.tokenStart (c :: ds)
  stop : r.tokenEnd = r.tokenStart + (ds.length + 1)
  first : i = if (c == minus) = true then r.tokenStart + 1 else r.tokenStart
  rest : body = if (c == minus) = true then ds else c :: ds

namespace Behind

theorem at_body (h : Behind r c ds i body) : At r.input i body := by
  obtain ⟨hat, -, rfl, rfl⟩ := h
  split
  · exact hat.tail
  · exact hat

theorem count (h : Behind r c ds i body) : r.tokenEnd - i = body.length := by
  obtain ⟨-, hstop, rfl, rfl⟩ := h
  split
  · omega
  · rw [List.length_cons]
    omega

theorem fits_eq (h : Behind r c ds i body) :
    ∃ j, At r.input j (body.dropWhile (· == zero)) ∧
      r.currentNumberFitsInt64 =
        if (body.dropWhile (· == zero)).length < 19 then .ok true
        else if (body.dropWhile (· == zero)).length > 19 then .ok false
        else withinLimit r.input (c == minus) j 0 limitDigits := by
  have hsplit := List.takeWhile_append_dropWhile (p := (· == zero)) (l := body)
  have hat := h.at_body
  have hcount := h.count
  have hskip := skipZeros_eq hat
  rw [← hsplit] at hat
  have hlen := congrArg List.length hsplit
  rw [List.length_append] at hlen
  refine ⟨_, hat.right, ?_⟩
  have hsome : r.tokenStart < r.tokenEnd := by
    have hstop := h.stop
    omega
  rw [JsonReader.currentNumberFitsInt64, if_pos hsome, byteAt_of_at h.start, ok_bind]
  change skipZeros
    (r.tokenEnd - if (c == minus) = true then r.tokenStart + 1 else r.tokenStart) r.input
    (if (c == minus) = true then r.tokenStart + 1 else r.tokenStart) >>= _ = _
  rw [← h.first, hcount, hskip, ok_bind]
  have hdigits : r.tokenEnd - (i + (body.takeWhile (· == zero)).length) =
      (body.dropWhile (· == zero)).length := by omega
  rw [hdigits]
  rfl

theorem fits_literal (h : Behind r c ds i body) (hdigits : ∀ b ∈ body, isDigit b = true) :
    r.currentNumberFitsInt64 =
      .ok (decide (value 10 (body.map digit) ≤ limitOf (c == minus))) := by
  obtain ⟨j, hat, hfits⟩ := h.fits_eq
  have hdigits : ∀ b ∈ body.dropWhile (· == zero), isDigit b = true :=
    fun b hb => hdigits b ((List.dropWhile_sublist _).subset hb)
  have hhead : ∀ b ∈ (body.dropWhile (· == zero)).head?, b ≠ zero := by
    intro b hb hzero
    have hnot := List.head?_dropWhile_not (· == zero) body
    rw [Option.mem_def.mp hb, hzero] at hnot
    exact Bool.false_ne_true (hnot.symm.trans rfl)
  have hiff := value_le_limit_iff (c == minus) hdigits hhead
  rw [hfits, ← value_dropWhile]
  generalize body.dropWhile (· == zero) = ds at hat hdigits hiff ⊢
  split
  next hlt => rw [decide_eq_true (hiff.mpr (.inl hlt))]
  next hge =>
    split
    next hgt => rw [decide_eq_false (fun hle => by have := hiff.mp hle; omega)]
    next hle =>
      have hlen : ds.length = limitDigits.length := show ds.length = 19 by omega
      rw [withinLimit_eq (k := 0) hat hdigits hlen (by decide)]
      congr 1
      rw [Bool.eq_iff_iff, decide_eq_true_eq, hiff]
      exact ⟨fun hlex => .inr ⟨hlen, hlex⟩, fun hor => (hor.resolve_left hge).2⟩

theorem fits_total (h : Behind r c ds i body) : ∃ b, r.currentNumberFitsInt64 = .ok b := by
  obtain ⟨j, hat, hfits⟩ := h.fits_eq
  rw [hfits]
  split
  · exact ⟨true, rfl⟩
  · split
    · exact ⟨false, rfl⟩
    · exact withinLimit_ok (k := 0) hat (show _ = 19 by omega)

end Behind

/-! ## The digit chain -/

theorem toNat_digit (h : isDigit b = true) : (b.toUInt64 - 48).toNat = digit b := by
  obtain ⟨hlo, -⟩ := (isDigit_iff b).mp h
  have hle : (48 : UInt64) ≤ b.toUInt64 := by
    rw [UInt64.le_iff_toNat_le, UInt8.toNat_toUInt64]
    exact hlo
  rw [UInt64.toNat_sub_of_le _ _ hle, UInt8.toNat_toUInt64]
  rfl

theorem beyond_iff (acc limit d : UInt64) (hd : d.toNat < 10) :
    (decide (acc > limit / 10) || decide (acc =
      limit / 10) && decide (d > limit - limit / 10 * 10)) =
      true ↔ limit.toNat < acc.toNat * 10 + d.toNat := by
  have hdiv : (limit / 10).toNat = limit.toNat / 10 := UInt64.toNat_div limit 10
  have hlt := limit.toNat_lt
  have hmul : (limit / 10 * 10).toNat = limit.toNat / 10 * 10 := by
    rw [UInt64.toNat_mul, hdiv]
    exact Nat.mod_eq_of_lt (show limit.toNat / 10 * 10 < 2 ^ 64 by omega)
  have hmod : (limit - limit / 10 * 10).toNat = limit.toNat - limit.toNat / 10 * 10 := by
    rw [UInt64.toNat_sub_of_le, hmul]
    rw [UInt64.le_iff_toNat_le, hmul]
    omega
  rw [Bool.or_eq_true, Bool.and_eq_true, decide_eq_true_eq, decide_eq_true_eq, decide_eq_true_eq,
    gt_iff_lt, gt_iff_lt, UInt64.lt_iff_toNat_lt, UInt64.lt_iff_toNat_lt, ← UInt64.toNat_inj, hdiv,
    hmod]
  omega

/-- The chain returns the number when it is one within the limit, and raises otherwise. -/
theorem accumulate_spec {r : JsonReader} {bs : List UInt8} (limit acc : UInt64)
    (h : At r.input i bs) (hacc : acc.toNat ≤ limit.toNat) :
    if (∀ b ∈ bs, isDigit b = true) ∧
        acc.toNat * 10 ^ bs.length + value 10 (bs.map digit) ≤ limit.toNat then
      ∃ n, r.accumulate limit bs.length i acc = .ok n ∧
        n.toNat = acc.toNat * 10 ^ bs.length + value 10 (bs.map digit)
    else ∃ message offset, r.accumulate limit bs.length i acc = r.raise message offset := by
  induction bs generalizing i acc with
  | nil =>
    have hvalue : acc.toNat * 10 ^ 0 + value 10 [] = acc.toNat := by simp
    rw [if_pos ⟨fun b hb => absurd hb List.not_mem_nil, hvalue.symm ▸ hacc⟩]
    exact ⟨acc, rfl, hvalue.symm⟩
  | cons b bs ih =>
    rw [List.length_cons, JsonReader.accumulate, byteAt_of_at h, ok_bind]
    dsimp only
    by_cases hb : isDigit b = true
    · have hrange := (isDigit_iff b).mp hb
      have hguard : ¬(decide (b < 48) || decide (b > 57)) = true := by
        rw [Bool.or_eq_true, decide_eq_true_eq, decide_eq_true_eq, gt_iff_lt,
          UInt8.lt_iff_toNat_lt, UInt8.lt_iff_toNat_lt]
        change ¬(b.toNat < 48 ∨ 57 < b.toNat)
        omega
      have hdigit := toNat_digit hb
      have hbeyond := beyond_iff acc limit (b.toUInt64 - 48) (hdigit ▸ digit_lt hb)
      have hhorner := horner 10 acc.toNat (digit b) (bs.map digit)
      rw [List.length_cons, List.length_map] at hhorner
      rw [hdigit] at hbeyond
      rw [if_neg hguard, List.map_cons, hhorner]
      rcases Nat.lt_or_ge limit.toNat (acc.toNat * 10 + digit b) with hover | hin
      · have hpow : 1 ≤ 10 ^ bs.length := Nat.one_le_pow _ _ (by decide)
        have hmul := Nat.mul_le_mul_left (acc.toNat * 10 + digit b) hpow
        rw [if_pos (hbeyond.mpr hover), if_neg (fun hall => by omega)]
        exact ⟨_, _, rfl⟩
      · have hlt := limit.toNat_lt
        have hstep : (acc * 10 + (b.toUInt64 - 48)).toNat = acc.toNat * 10 + digit b := by
          rw [UInt64.toNat_add, UInt64.toNat_mul, hdigit]
          change (acc.toNat * 10 % 2 ^ 64 + digit b) % 2 ^ 64 = _
          omega
        have hrest := ih _ h.tail (hstep.symm ▸ hin)
        rw [hstep] at hrest
        rw [if_neg (fun hover => Nat.not_lt.mpr hin (hbeyond.mp hover))]
        simpa only [List.forall_mem_cons, hb, true_and] using hrest
    · have hguard : (decide (b < 48) || decide (b > 57)) = true := by
        rw [isDigit_iff] at hb
        rw [Bool.or_eq_true, decide_eq_true_eq, decide_eq_true_eq, gt_iff_lt,
          UInt8.lt_iff_toNat_lt, UInt8.lt_iff_toNat_lt]
        change b.toNat < 48 ∨ 57 < b.toNat
        omega
      rw [if_neg (fun hall => hb (hall.1 b List.mem_cons_self)), if_pos hguard]
      exact ⟨_, _, rfl⟩

theorem int64_of_limit {n : UInt64} (h : n.toNat ≤ limitOf negative) :
    (if negative = true then
        if n = 9223372036854775808 then (pure (i64 (i64 (-9223372036854775807) - 1)) : Scan Int)
        else pure (i64 (-i64 n.toNat))
      else pure (i64 n.toNat)) = .ok (if negative = true then -(n.toNat : Int) else n.toNat) := by
  cases negative with
  | false =>
    have hfits : Fits64 n.toNat := by
      change n.toNat ≤ 9223372036854775807 at h
      unfold Fits64
      omega
    exact congrArg Except.ok (i64_eq hfits)
  | true =>
    change n.toNat ≤ 9223372036854775808 at h
    rw [if_pos rfl, if_pos rfl]
    split
    next hmin =>
      rw [hmin]
      rfl
    next hother =>
      have hne : n.toNat ≠ 9223372036854775808 := fun heq => hother (UInt64.toNat_inj.mp heq)
      have hfits : Fits64 n.toNat := by unfold Fits64; omega
      have hneg : Fits64 (-n.toNat) := by unfold Fits64; omega
      rw [i64_eq hfits]
      exact congrArg Except.ok (i64_eq hneg)

namespace Behind

theorem asInt64 (h : Behind r c ds i body) :
    if body ≠ [] ∧ (∀ b ∈ body, isDigit b = true) ∧
        value 10 (body.map digit) ≤ limitOf (c == minus) then
      r.currentNumberAsInt64 = .ok (if (c == minus) = true then -(value 10 (body.map digit) : Int)
        else value 10 (body.map digit))
    else ∃ message offset, r.currentNumberAsInt64 = r.raise message offset := by
  have hsome : ¬r.tokenStart ≥ r.tokenEnd := by
    have hstop := h.stop
    omega
  have hcount := h.count
  have hlimit : (if (c == minus) = true then (9223372036854775808 : UInt64)
      else 9223372036854775807).toNat = limitOf (c == minus) := by
    cases c == minus <;> rfl
  have hchain := accumulate_spec (if (c == minus) = true then (9223372036854775808 : UInt64)
    else 9223372036854775807) 0 h.at_body (Nat.zero_le _)
  rw [hlimit, UInt64.toNat_zero, Nat.zero_mul, Nat.zero_add] at hchain
  rw [JsonReader.currentNumberAsInt64, if_neg hsome, byteAt_of_at h.start, ok_bind]
  dsimp only
  rw [← h.first, hcount]
  by_cases hbare : (c == minus) = true ∧ i ≥ r.tokenEnd
  · have hnil : body = [] := List.eq_nil_of_length_eq_zero (by omega)
    rw [if_pos hbare, if_neg (fun hall => hall.1 hnil)]
    exact ⟨_, _, rfl⟩
  rw [if_neg hbare]
  have hne : body ≠ [] := by
    intro hnil
    have hminus : (c == minus) = true := by
      by_contra hminus
      have hrest := h.rest
      rw [if_neg hminus, hnil] at hrest
      exact List.cons_ne_nil _ _ hrest.symm
    rw [hnil] at hcount
    exact hbare ⟨hminus, Nat.le_of_sub_eq_zero hcount⟩
  split
  next hall =>
    rw [if_pos hall.2] at hchain
    obtain ⟨n, hn, hvalue⟩ := hchain
    rw [hn, ok_bind, ← hvalue]
    exact int64_of_limit (hvalue ▸ hall.2.2)
  next hall =>
    rw [if_neg (fun hgood => hall ⟨hne, hgood⟩)] at hchain
    obtain ⟨message, offset, herr⟩ := hchain
    rw [herr]
    exact ⟨message, offset, rfl⟩

theorem integerValue_eq (h : Behind r c ds i body) :
    integerValue (c :: ds) =
      (naturalValue body).map fun n : Nat =>
        if (c == minus) = true then -(n : Int) else (n : Int) := by
  rw [integerValue, h.rest]
  by_cases hc : c = minus
  · have hbeq : (c == minus) = true := beq_iff_eq.mpr hc
    simp only [if_pos hc, if_pos hbeq]
  · have hbeq : ¬(c == minus) = true := fun heq => hc (beq_iff_eq.mp heq)
    simp only [if_neg hc, if_neg hbeq]

end Behind

/-- `next` finds the start of a number here, and goes on to scan it. -/
def JsonReader.AtNumber (r : JsonReader) : Prop :=
  ∃ c, r.input[r.pos]? = some c ∧ (c = minus ∨ isDigit c = true)

theorem exists_behind {r : JsonReader} (h : r.AtNumber) :
    ∃ r' c ds i body, r.scanNumberSpan = .ok r' ∧ r'.token = c :: ds ∧ Behind r' c ds i body := by
  obtain ⟨c, hc, -⟩ := h
  have hin := (List.getElem?_eq_some_iff.mp hc).1
  obtain ⟨d, -, hdrop⟩ := drop_eq_cons hin
  have hpre : At r.input r.pos (d :: (r.input.drop (r.pos + 1)).takeWhile numberByte) := by
    rw [At, hdrop]
    exact List.cons_prefix_cons.mpr ⟨rfl, List.takeWhile_prefix _⟩
  have hend : numberEnd r.input (r.pos + 1) =
      r.pos + (((r.input.drop (r.pos + 1)).takeWhile numberByte).length + 1) := by
    rw [numberEnd]
    omega
  refine ⟨_, d, _, _, _, scanNumberSpan_eq r, ?_, ⟨hpre, hend, rfl, rfl⟩⟩
  have hslice := hpre.slice
  rw [List.length_cons] at hslice
  rw [JsonReader.token, hend, Nat.add_sub_cancel_left, hslice]

theorem fits64_iff (negative : Bool) (n : Nat) :
    Fits64 (if negative = true then -(n : Int) else n) ↔ n ≤ limitOf negative := by
  unfold Fits64 limitOf
  cases negative with
  | false =>
    simp only [Bool.false_eq_true, if_false]
    omega
  | true =>
    simp only [if_true]
    omega

/-- For every number token: whether it fits is whether its value does when it is an integer literal,
and it is returned then; what does not fit, or is no integer literal, is refused. -/
theorem int64_numbers (r : JsonReader) (hstart : r.AtNumber) :
    ∃ r' fits, r.scanNumberSpan = .ok r' ∧ r'.currentNumberFitsInt64 = .ok fits ∧
      (∀ v, integerValue r'.token = some v →
        (fits = true ↔ -9223372036854775808 ≤ v ∧ v ≤ 9223372036854775807) ∧
        (fits = true → r'.currentNumberAsInt64 = .ok v)) ∧
      (fits = false ∨ integerValue r'.token = none → ∃ message offset,
        r'.currentNumberAsInt64 = .error (.parse message offset r')) := by
  obtain ⟨r', c, ds, i, body, hscan, htoken, h⟩ := exists_behind hstart
  obtain ⟨fits, hfits⟩ := h.fits_total
  have hread := h.asInt64
  have hvalue := h.integerValue_eq
  refine ⟨r', fits, hscan, hfits, ?_⟩
  rw [htoken, hvalue, naturalValue]
  by_cases hliteral : body ≠ [] ∧ ∀ b ∈ body, isDigit b = true
  · obtain rfl : decide (value 10 (body.map digit) ≤ limitOf (c == minus)) = fits :=
      Except.ok.inj ((h.fits_literal hliteral.2).symm.trans hfits)
    rw [if_pos hliteral, Option.map_some]
    constructor
    · intro v hv
      obtain rfl := Option.some.inj hv
      rw [decide_eq_true_eq]
      refine ⟨(fits64_iff _ _).symm, fun hle => ?_⟩
      rw [if_pos ⟨hliteral.1, hliteral.2, hle⟩] at hread
      exact hread
    · rintro (hbig | hnone)
      · rw [if_neg fun hall => of_decide_eq_false hbig hall.2.2] at hread
        exact hread
      · exact absurd hnone (Option.some_ne_none _)
  · rw [if_neg hliteral, Option.map_none]
    refine ⟨fun v hv => absurd hv (Option.some_ne_none v).symm, fun _ => ?_⟩
    rw [if_neg fun hall => hliteral ⟨hall.1, hall.2.1⟩] at hread
    exact hread

/-- The least number there is. -/
theorem int64_numbers_least :
    ∃ r' fits, (JsonReader.mk [45, 57, 50, 50, 51, 51, 55, 50, 48, 51, 54, 56, 53, 52, 55, 55, 53,
        56, 48, 56, 44] 0 0 0).scanNumberSpan = .ok r' ∧
      r'.currentNumberFitsInt64 = .ok fits ∧
      (∀ v, integerValue r'.token = some v →
        (fits = true ↔ -9223372036854775808 ≤ v ∧ v ≤ 9223372036854775807) ∧
        (fits = true → r'.currentNumberAsInt64 = .ok v)) ∧
      (fits = false ∨ integerValue r'.token = none → ∃ message offset,
        r'.currentNumberAsInt64 = .error (.parse message offset r')) :=
  int64_numbers _ ⟨minus, rfl, .inl rfl⟩

/-- The check alone does not tell an integer from a fraction. -/
theorem fits_fraction :
    ¬∀ r : JsonReader, r.AtNumber → ∀ r', r.scanNumberSpan = .ok r' →
      (r'.currentNumberFitsInt64 = .ok true ↔ ∃ v, integerValue r'.token = some v ∧
        -9223372036854775808 ≤ v ∧ v ≤ 9223372036854775807) := by
  intro h
  have hfits := (h ⟨[49, 46, 53], 0, 0, 0⟩ ⟨49, rfl, .inr rfl⟩ ⟨[49, 46, 53], 3, 0, 3⟩ rfl).mp rfl
  obtain ⟨v, hv, -⟩ := hfits
  have hnone : integerValue (JsonReader.token ⟨[49, 46, 53], 3, 0, 3⟩) = none := by decide
  rw [hnone] at hv
  exact Option.some_ne_none v hv.symm

end Cajeta.Codec.Json
