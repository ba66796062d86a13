import Mathlib.Data.Fintype.EquivFin
import Mathlib.Data.ZMod.Basic
import Mathlib.Tactic.Ring
import Mathlib.Data.Nat.Find
import Mathlib.Data.List.Basic

/-!
# Triangular probing

A probe that starts at `h` and whose stride grows by `w` at each step is at `h + w * triangle t`
after `t` steps. When the table has `w * 2 ^ k` slots, the `2 ^ k` windows of `w` slots that start
at these positions cover the table.
-/

namespace Probe

/-- `0, 1, 3, 6, …`, the sum of the numbers up to `t`. -/
def triangle : Nat → Nat
  | 0 => 0
  | t + 1 => triangle t + (t + 1)

theorem two_mul_triangle (t : Nat) : 2 * triangle t = t * (t + 1) := by
  induction t with
  | zero => rfl
  | succ t ih => rw [triangle, Nat.mul_add, ih]; ring

/-- Where the probe stands after `t` steps. -/
def pos (cap w h t : Nat) : Nat := (h + w * triangle t) % cap

theorem pos_zero : pos cap w h 0 = h % cap := rfl

theorem pos_succ : pos cap w h (t + 1) = (pos cap w h t + w * (t + 1)) % cap := by
  rw [pos, pos, Nat.mod_add_mod, triangle, Nat.mul_add, Nat.add_assoc]

theorem pos_lt (hcap : 0 < cap) : pos cap w h t < cap := Nat.mod_lt _ hcap

/-- Triangular numbers below `2 ^ k` are different modulo `2 ^ k`: of `b - a` and `a + b + 1` one is
odd, so `2 ^ (k + 1)` would divide the other, which is smaller. -/
theorem triangle_injective {a b : Nat} (ha : a < 2 ^ k) (hb : b < 2 ^ k)
    (h : triangle a % 2 ^ k = triangle b % 2 ^ k) : a = b := by
  wlog hle : a ≤ b generalizing a b
  · exact (this hb ha h.symm (by omega)).symm
  by_contra hne
  have hlt : a < b := by omega
  obtain ⟨d, rfl⟩ := Nat.exists_eq_add_of_lt hlt
  have hmono : triangle a ≤ triangle (a + d + 1) := by
    have h₁ := two_mul_triangle a
    have h₂ := two_mul_triangle (a + d + 1)
    have : a * (a + 1) ≤ (a + d + 1) * (a + d + 1 + 1) := Nat.mul_le_mul (by omega) (by omega)
    omega
  have hdvd : 2 ^ k ∣ triangle (a + d + 1) - triangle a :=
    (Nat.modEq_iff_dvd' hmono).mp h
  have hprod : 2 * (triangle (a + d + 1) - triangle a) = (d + 1) * (2 * a + d + 2) := by
    rw [Nat.mul_sub, two_mul_triangle, two_mul_triangle]
    apply Nat.sub_eq_of_eq_add
    ring
  have hdvd' : 2 ^ (k + 1) ∣ (d + 1) * (2 * a + d + 2) := by
    rw [← hprod, pow_succ, Nat.mul_comm (2 ^ k)]
    exact Nat.mul_dvd_mul_left 2 hdvd
  have hpow : 2 ^ (k + 1) = 2 * 2 ^ k := by rw [pow_succ, Nat.mul_comm]
  rcases Nat.even_or_odd d with ⟨e, he⟩ | ⟨e, he⟩
  · have hodd : Nat.Coprime (2 ^ (k + 1)) (d + 1) :=
      Nat.Coprime.pow_left _ (Nat.coprime_two_left.mpr ⟨e, by omega⟩)
    have := Nat.le_of_dvd (by omega) (hodd.dvd_of_dvd_mul_left hdvd')
    omega
  · have hodd : Nat.Coprime (2 ^ (k + 1)) (2 * a + d + 2) :=
      Nat.Coprime.pow_left _ (Nat.coprime_two_left.mpr ⟨a + e + 1, by omega⟩)
    have := Nat.le_of_dvd (by omega) (hodd.dvd_of_dvd_mul_right hdvd')
    omega

theorem exists_triangle (k q : Nat) : ∃ t < 2 ^ k, triangle t % 2 ^ k = q % 2 ^ k := by
  have hpos : 0 < 2 ^ k := Nat.two_pow_pos k
  let f : Fin (2 ^ k) → Fin (2 ^ k) := fun t => ⟨triangle t % 2 ^ k, Nat.mod_lt _ hpos⟩
  have hf : Function.Injective f := fun a b h =>
    Fin.ext (triangle_injective a.2 b.2 (congrArg Fin.val h))
  obtain ⟨t, ht⟩ := Finite.surjective_of_injective hf ⟨q % 2 ^ k, Nat.mod_lt _ hpos⟩
  exact ⟨t, t.2, congrArg Fin.val ht⟩

theorem exists_window {w k h i : Nat} (hw : 0 < w) (hi : i < w * 2 ^ k) :
    ∃ t < 2 ^ k, ∃ j < w, (pos (w * 2 ^ k) w h t + j) % (w * 2 ^ k) = i := by
  have hcap : 0 < w * 2 ^ k := Nat.mul_pos hw (Nat.two_pow_pos k)
  -- `d` is how far the slot lies ahead of the start of the probe.
  obtain ⟨d, hd⟩ : ∃ d, (h + d) % (w * 2 ^ k) = i := by
    refine ⟨w * 2 ^ k * (h + 1) + i - h, ?_⟩
    have hge : h ≤ w * 2 ^ k * (h + 1) + i :=
      (Nat.le_succ h).trans ((Nat.le_mul_of_pos_left _ hcap).trans (Nat.le_add_right _ _))
    rw [Nat.add_sub_cancel' hge, Nat.mul_add_mod, Nat.mod_eq_of_lt hi]
  obtain ⟨t, ht, htri⟩ := exists_triangle k (d / w)
  refine ⟨t, ht, d % w, Nat.mod_lt _ hw, ?_⟩
  have hmul : w * triangle t ≡ w * (d / w) [MOD w * 2 ^ k] := Nat.ModEq.mul_left' w htri
  have : h + w * triangle t + d % w ≡ h + w * (d / w) + d % w [MOD w * 2 ^ k] :=
    (hmul.add_left h).add_right _
  rw [pos, Nat.mod_add_mod, this, Nat.add_assoc, Nat.div_add_mod, hd]

end Probe

/-!
## Linear probing

A table of `m` slots, each empty or taken by an entry. An entry without a key only keeps its slot
taken. The probe for a key starts at the home of the key and goes from slot to slot, around the
table, until it meets an empty slot or an entry with the key. A table serves a lookup function when
its entries with keys are the ones the function returns and each lies on the probe for its own key,
behind other taken slots.
-/

namespace LinearProbe

variable {E K : Type} {m h d : Nat} {key : E → Option K} {home : K → Nat} {t : Nat → Option E}

/-- The slot after `d` steps from `h`. -/
def pos (m h d : Nat) : Nat := (h + d) % m

theorem pos_lt (hm : 0 < m) : pos m h d < m := Nat.mod_lt _ hm

theorem pos_succ : pos m h (d + 1) = (pos m h d + 1) % m := by
  rw [pos, pos, Nat.mod_add_mod, Nat.add_assoc]

theorem exists_pos (h : Nat) (hi : i < m) : ∃ d < m, pos m h d = i := by
  have hm : 0 < m := Nat.lt_of_le_of_lt (Nat.zero_le i) hi
  have hr := Nat.mod_lt h hm
  refine ⟨(i + (m - h % m)) % m, Nat.mod_lt _ hm, ?_⟩
  rw [pos, Nat.add_mod_mod, ← Nat.mod_add_mod]
  have : h % m + (i + (m - h % m)) = i + m := by omega
  rw [this, Nat.add_mod_right, Nat.mod_eq_of_lt hi]

/-- The first `d` slots from the home of `k` are taken, and by no entry with that key. -/
def Passed (m : Nat) (key : E → Option K) (home : K → Nat) (t : Nat → Option E) (k : K)
    (d : Nat) : Prop :=
  ∀ i < d, ∃ e, t (pos m (home k) i) = some e ∧ key e ≠ some k

theorem passed_zero : Passed m key home t k 0 := fun _ hi => absurd hi (Nat.not_lt_zero _)

theorem Passed.succ (hd : Passed m key home t k d) (ht : t (pos m (home k) d) = some e)
    (he : key e ≠ some k) : Passed m key home t k (d + 1) := by
  intro i hi
  rcases Nat.lt_succ_iff_lt_or_eq.mp hi with hlt | rfl
  · exact hd i hlt
  · exact ⟨e, ht, he⟩

theorem Passed.lt (hd : Passed m key home t k d) (hempty : ∃ i < m, t i = none) : d < m := by
  obtain ⟨i, hi, hnone⟩ := hempty
  obtain ⟨n, hn, rfl⟩ := exists_pos (home k) hi
  by_contra hge
  obtain ⟨e, he, -⟩ := hd n (by omega)
  rw [hnone] at he
  cases he

/-- The entry lies on the probe for the key, behind others. -/
def Placed (m : Nat) (key : E → Option K) (home : K → Nat) (t : Nat → Option E) (k : K)
    (e : E) : Prop :=
  ∃ d, t (pos m (home k) d) = some e ∧ Passed m key home t k d

/-- The table holds the entries that `find` returns, each once. -/
structure Serves (m : Nat) (key : E → Option K) (home : K → Nat) (t : Nat → Option E)
    (find : K → Option E) : Prop where
  sound : ∀ i < m, ∀ e k, t i = some e → key e = some k → find k = some e
  complete : ∀ k e, find k = some e → key e = some k ∧ Placed m key home t k e
  unique : ∀ i < m, ∀ j < m, ∀ e e' k, t i = some e → t j = some e' → key e = some k →
    key e' = some k → i = j

namespace Serves
variable {find : K → Option E}

theorem empty (m : Nat) (key : E → Option K) (home : K → Nat) :
    Serves m key home (fun _ => none) fun _ => none where
  sound _ _ _ _ h := absurd h.symm (Option.some_ne_none _)
  complete _ _ h := absurd h.symm (Option.some_ne_none _)
  unique _ _ _ _ _ _ _ h := absurd h.symm (Option.some_ne_none _)

theorem find_eq_none (ht : Serves m key home t find) (hd : Passed m key home t k d)
    (hnone : t (pos m (home k) d) = none) : find k = none := by
  cases hfind : find k with
  | none => rfl
  | some e =>
    obtain ⟨hkey, d', he, hd'⟩ := ht.complete k e hfind
    rcases Nat.lt_trichotomy d' d with hlt | rfl | hgt
    · obtain ⟨e', he', hne⟩ := hd d' hlt
      rw [he] at he'
      cases he'
      exact absurd hkey hne
    · rw [hnone] at he
      cases he
    · obtain ⟨e', he', -⟩ := hd' d hgt
      rw [hnone] at he'
      cases he'

theorem find_eq_some (ht : Serves m key home t find) (hm : 0 < m)
    (he : t (pos m (home k) d) = some e) (hkey : key e = some k) : find k = some e :=
  ht.sound _ (pos_lt hm) e k he hkey

/-- An entry of a new key is stored in the empty slot at the end of its probe. -/
theorem insert [DecidableEq K] (ht : Serves m key home t find) (hkey : key e = some k)
    (hd : Passed m key home t k d) (hnone : t (pos m (home k) d) = none) :
    Serves m key home (Function.update t (pos m (home k) d) (some e))
      (Function.update find k (some e)) := by
  have hfree := ht.find_eq_none hd hnone
  -- What was taken before is where it was, since only an empty slot changes.
  have hkeep : ∀ {i e'}, t i = some e' →
      Function.update t (pos m (home k) d) (some e) i = some e' := by
    intro i e' hi
    rw [Function.update_of_ne, hi]
    rintro rfl
    rw [hnone] at hi
    cases hi
  have hpassed : ∀ {k' d'}, Passed m key home t k' d' →
      Passed m key home (Function.update t (pos m (home k) d) (some e)) k' d' := by
    intro k' d' h i hi
    obtain ⟨e', he', hne⟩ := h i hi
    exact ⟨e', hkeep he', hne⟩
  have hother : ∀ i < m, ∀ e', t i = some e' → key e' ≠ some k := by
    intro i hi e' he' hkey'
    have := ht.sound i hi e' k he' hkey'
    rw [hfree] at this
    cases this
  refine ⟨fun i hi e' k' he' hkey' => ?_, fun k' e' hfind => ?_,
    fun i hi j hj e₁ e₂ k' h₁ h₂ hk₁ hk₂ => ?_⟩
  · rcases eq_or_ne i (pos m (home k) d) with rfl | hne
    · rw [Function.update_self] at he'
      cases he'
      rw [hkey] at hkey'
      cases hkey'
      rw [Function.update_self]
    · rw [Function.update_of_ne hne] at he'
      rw [Function.update_of_ne, ht.sound i hi e' k' he' hkey']
      rintro rfl
      exact hother i hi e' he' hkey'
  · rcases eq_or_ne k' k with rfl | hne
    · rw [Function.update_self] at hfind
      cases hfind
      exact ⟨hkey, d, Function.update_self .., hpassed hd⟩
    · rw [Function.update_of_ne hne] at hfind
      obtain ⟨hkey', d', he', hd'⟩ := ht.complete k' e' hfind
      exact ⟨hkey', d', hkeep he', hpassed hd'⟩
  · rcases eq_or_ne i (pos m (home k) d) with hi' | hi'
    · rcases eq_or_ne j (pos m (home k) d) with hj' | hj'
      · exact hi'.trans hj'.symm
      · rw [hi', Function.update_self] at h₁
        cases h₁
        rw [hkey] at hk₁
        cases hk₁
        rw [Function.update_of_ne hj'] at h₂
        exact absurd hk₂ (hother j hj e₂ h₂)
    · rw [Function.update_of_ne hi'] at h₁
      rcases eq_or_ne j (pos m (home k) d) with hj' | hj'
      · rw [hj', Function.update_self] at h₂
        cases h₂
        rw [hkey] at hk₂
        cases hk₂
        exact absurd hk₁ (hother i hi e₁ h₁)
      · rw [Function.update_of_ne hj'] at h₂
        exact ht.unique i hi j hj e₁ e₂ k' h₁ h₂ hk₁ hk₂

theorem remove [DecidableEq K] (ht : Serves m key home t find) (hi : i < m) (he : t i = some e)
    (hkey : key e = some k) (hdead : key dead = none) :
    Serves m key home (Function.update t i (some dead)) (Function.update find k none) := by
  have hpassed : ∀ {k' d'}, Passed m key home t k' d' →
      Passed m key home (Function.update t i (some dead)) k' d' := by
    intro k' d' h j hj
    obtain ⟨e', he', hne⟩ := h j hj
    rcases eq_or_ne (pos m (home k') j) i with hji | hji
    · refine ⟨dead, by rw [hji, Function.update_self], ?_⟩
      rw [hdead]
      exact (Option.some_ne_none k').symm
    · exact ⟨e', by rw [Function.update_of_ne hji, he'], hne⟩
  refine ⟨fun j hj e' k' he' hkey' => ?_, fun k' e' hfind => ?_,
    fun j hj l hl e₁ e₂ k' h₁ h₂ hk₁ hk₂ => ?_⟩
  · rcases eq_or_ne j i with rfl | hne
    · rw [Function.update_self] at he'
      cases he'
      rw [hdead] at hkey'
      cases hkey'
    · rw [Function.update_of_ne hne] at he'
      rw [Function.update_of_ne, ht.sound j hj e' k' he' hkey']
      rintro rfl
      exact hne (ht.unique j hj i hi e' e k' he' he hkey' hkey)
  · rcases eq_or_ne k' k with rfl | hne
    · rw [Function.update_self] at hfind
      cases hfind
    · rw [Function.update_of_ne hne] at hfind
      obtain ⟨hkey', d', he', hd'⟩ := ht.complete k' e' hfind
      refine ⟨hkey', d', ?_, hpassed hd'⟩
      rw [Function.update_of_ne, he']
      intro hpos
      rw [hpos, he] at he'
      cases he'
      rw [hkey] at hkey'
      cases hkey'
      exact hne rfl
  · have hlive : ∀ l e', Function.update t i (some dead) l = some e' → key e' = some k' →
        t l = some e' := by
      intro l e' hl' hk'
      rcases eq_or_ne l i with rfl | hne
      · rw [Function.update_self] at hl'
        cases hl'
        rw [hdead] at hk'
        cases hk'
      · rwa [Function.update_of_ne hne] at hl'
    exact ht.unique j hj l hl e₁ e₂ k' (hlive j e₁ h₁ hk₁) (hlive l e₂ h₂ hk₂) hk₁ hk₂

end Serves

def slot (t : List (Option E)) (i : Nat) : Option E := t[i]?.join

theorem slot_set {t : List (Option E)} (hi : i < t.length) :
    slot (t.set i x) = Function.update (slot t) i x := by
  funext j
  rcases eq_or_ne j i with rfl | hne
  · rw [Function.update_self, slot, List.getElem?_set_self hi]
    rfl
  · rw [Function.update_of_ne hne, slot, List.getElem?_set_ne hne.symm]
    rfl

/-- The number of entries in a table. -/
def load (t : List (Option E)) : Nat := t.countP Option.isSome

theorem load_set_le (t : List (Option E)) (i : Nat) (x : Option E) :
    load (t.set i x) ≤ load t + 1 := by
  induction t generalizing i with
  | nil => exact Nat.le_succ _
  | cons y t ih =>
    cases i with
    | zero =>
      simp only [List.set_cons_zero, load, List.countP_cons]
      split <;> split <;> omega
    | succ i =>
      have := ih i
      simp only [List.set_cons_succ, load, List.countP_cons] at this ⊢
      omega

theorem exists_empty {t : List (Option E)} (h : load t < t.length) :
    ∃ i < t.length, slot t i = none := by
  by_contra hne
  apply Nat.ne_of_lt h
  apply List.countP_eq_length.mpr
  intro x hx
  obtain ⟨i, hi, rfl⟩ := List.getElem_of_mem hx
  cases hslot : t[i] with
  | none =>
    refine absurd ⟨i, hi, ?_⟩ hne
    rw [slot, List.getElem?_eq_getElem hi, hslot]
    rfl
  | some e => rfl

end LinearProbe
