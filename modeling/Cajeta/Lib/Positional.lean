import Mathlib.Data.Nat.Digits.Defs

/-!
# Numbers written from the highest digit on

What a list of digits is worth when the first of them is the highest, the bound that the number of
digits gives, and the comparison digit by digit.
-/

namespace Positional

/-- The number with the digits `ds` in base `b`, the highest first. -/
def value (b : Nat) (ds : List Nat) : Nat := Nat.ofDigits b ds.reverse

@[simp] theorem value_nil (b : Nat) : value b [] = 0 := rfl

theorem value_append (b : Nat) (xs ys : List Nat) :
    value b (xs ++ ys) = value b xs * b ^ ys.length + value b ys := by
  rw [value, List.reverse_append, Nat.ofDigits_append, List.length_reverse, Nat.add_comm,
    Nat.mul_comm]
  rfl

theorem value_cons (b d : Nat) (ds : List Nat) :
    value b (d :: ds) = d * b ^ ds.length + value b ds := by
  have hone : value b [d] = d := Nat.ofDigits_singleton
  rw [← List.singleton_append, value_append, hone]

theorem horner (b acc d : Nat) (ds : List Nat) :
    acc * b ^ (d :: ds).length + value b (d :: ds) =
      (acc * b + d) * b ^ ds.length + value b ds := by
  rw [value_cons, List.length_cons, Nat.pow_succ, Nat.add_mul, Nat.mul_comm (b ^ ds.length) b,
    Nat.mul_assoc, Nat.add_assoc]

theorem value_lt (hb : 1 < b) (h : ∀ d ∈ ds, d < b) : value b ds < b ^ ds.length := by
  have hlt := Nat.ofDigits_lt_base_pow_length hb fun d hd => h d (List.mem_reverse.mp hd)
  rw [List.length_reverse] at hlt
  exact hlt

theorem le_value_cons (b d : Nat) (ds : List Nat) : d * b ^ ds.length ≤ value b (d :: ds) := by
  rw [value_cons]
  exact Nat.le_add_right _ _

theorem value_injective (hb : 1 < b) (hlen : ds.length = ls.length) (hds : ∀ d ∈ ds, d < b)
    (hls : ∀ l ∈ ls, l < b) (h : value b ds = value b ls) : ds = ls :=
  List.reverse_inj.mp <| Nat.ofDigits_inj_of_len_eq hb (by simpa using hlen)
    (fun d hd => hds d (List.mem_reverse.mp hd)) (fun l hl => hls l (List.mem_reverse.mp hl)) h

/-- The comparison from the highest digit on, of numbers with as many digits. -/
def lexLe : List Nat → List Nat → Bool
  | d :: ds, l :: ls => if d < l then true else if l < d then false else lexLe ds ls
  | _, _ => true

theorem lexLe_eq (hb : 1 < b) (hlen : ds.length = ls.length) (hds : ∀ d ∈ ds, d < b)
    (hls : ∀ l ∈ ls, l < b) : lexLe ds ls = decide (value b ds ≤ value b ls) := by
  induction ds generalizing ls with
  | nil => exact (decide_eq_true (Nat.zero_le _)).symm
  | cons d ds ih =>
    cases ls with
    | nil => exact absurd hlen (Nat.succ_ne_zero _)
    | cons l ls =>
      obtain ⟨-, hds⟩ := List.forall_mem_cons.mp hds
      obtain ⟨-, hls⟩ := List.forall_mem_cons.mp hls
      have hlen : ds.length = ls.length := Nat.succ.inj hlen
      have hdlt := value_lt hb hds
      have hllt := value_lt hb hls
      rw [lexLe, value_cons, value_cons, hlen, ih hlen hds hls]
      rw [hlen] at hdlt
      generalize b ^ ls.length = size at hdlt hllt ⊢
      split
      next hlt =>
        have hmul := Nat.mul_le_mul_right size (Nat.succ_le_of_lt hlt)
        rw [Nat.succ_mul] at hmul
        exact (decide_eq_true (by omega)).symm
      next hge =>
        split
        next hlt =>
          have hmul := Nat.mul_le_mul_right size (Nat.succ_le_of_lt hlt)
          rw [Nat.succ_mul] at hmul
          exact (decide_eq_false (by omega)).symm
        next hle =>
          obtain rfl : d = l := by omega
          exact decide_eq_decide.mpr (Nat.add_le_add_iff_left).symm

/-- The number `n` of `total` bits, as groups of `v` bits from the highest on and then the number
`r` in the `bits` bits that are left. -/
structure Regrouped (v : Nat) (os : List Nat) (bits r total n : Nat) : Prop where
  digits : ∀ d ∈ os, d < 2 ^ v
  rest : r < 2 ^ bits
  width : v * os.length + bits = total
  number : value (2 ^ v) os * 2 ^ bits + r = n

namespace Regrouped

theorem empty (v : Nat) : Regrouped v [] 0 0 0 0 :=
  ⟨fun _ h => absurd h List.not_mem_nil, Nat.one_pos, rfl, rfl⟩

theorem push (h : Regrouped v os bits r total n) (hs : s < 2 ^ w) :
    Regrouped v os (bits + w) (r * 2 ^ w + s) (total + w) (n * 2 ^ w + s) where
  digits := h.digits
  rest := by
    have hmul := Nat.mul_le_mul_right (2 ^ w) (Nat.succ_le_of_lt h.rest)
    rw [Nat.succ_mul] at hmul
    rw [Nat.pow_add]
    omega
  width := by rw [← h.width, Nat.add_assoc]
  number := by rw [← h.number, Nat.add_mul, Nat.pow_add, Nat.mul_assoc, Nat.add_assoc]

theorem pop (h : Regrouped v os bits r total n) (hv : v ≤ bits) :
    Regrouped v (os ++ [r / 2 ^ (bits - v)]) (bits - v) (r % 2 ^ (bits - v)) total n := by
  have hsplit : 2 ^ bits = 2 ^ (bits - v) * 2 ^ v := by rw [← Nat.pow_add, Nat.sub_add_cancel hv]
  have hgroup : r / 2 ^ (bits - v) < 2 ^ v := Nat.div_lt_of_lt_mul (hsplit ▸ h.rest)
  refine ⟨fun d hd => ?_, Nat.mod_lt _ (Nat.two_pow_pos _), ?_, ?_⟩
  · rcases List.mem_append.mp hd with hd | hd
    · exact h.digits d hd
    · exact List.mem_singleton.mp hd ▸ hgroup
  · have hwidth := h.width
    rw [List.length_append, List.length_singleton, Nat.mul_succ]
    omega
  · have hone : value (2 ^ v) [r / 2 ^ (bits - v)] = r / 2 ^ (bits - v) := Nat.ofDigits_singleton
    have hdiv := Nat.div_add_mod r (2 ^ (bits - v))
    rw [value_append, hone, List.length_singleton, Nat.pow_one, Nat.add_mul, Nat.mul_assoc,
      Nat.mul_comm (2 ^ v), ← hsplit, Nat.add_assoc, Nat.mul_comm (r / _), hdiv]
    exact h.number

theorem unpad (h : Regrouped v os bits r (v * ds.length + k) (value (2 ^ v) ds * 2 ^ k))
    (hv : 0 < v) (hds : ∀ d ∈ ds, d < 2 ^ v) (hbits : bits < v) (hk : k < v) : os = ds := by
  have hwidth := h.width
  have hlen : os.length = ds.length := by
    rcases Nat.lt_trichotomy os.length ds.length with hlt | heq | hgt
    · have hmul := Nat.mul_le_mul_left v (Nat.succ_le_of_lt hlt)
      rw [Nat.mul_succ] at hmul
      omega
    · exact heq
    · have hmul := Nat.mul_le_mul_left v (Nat.succ_le_of_lt hgt)
      rw [Nat.mul_succ] at hmul
      omega
  obtain rfl : bits = k := by
    rw [hlen] at hwidth
    omega
  have hnumber : value (2 ^ v) os = value (2 ^ v) ds := by
    have hdiv := congrArg (· / 2 ^ bits) h.number
    rw [Nat.mul_div_cancel _ (Nat.two_pow_pos bits), Nat.mul_comm,
      Nat.mul_add_div (Nat.two_pow_pos bits), Nat.div_eq_of_lt h.rest] at hdiv
    exact hdiv
  exact value_injective (Nat.one_lt_two_pow (Nat.ne_of_gt hv)) hlen h.digits hds hnumber

end Regrouped

end Positional
