import Cajeta.Codec.JsonObject
import Mathlib.Data.Nat.Log

/-!
# Lookups through the index

The index serves the function that takes a key to the first member with it. It is rebuilt when a
member was added after it was built, so every lookup finds what a scan finds. The number of slots
is computed in 32 bits, which limits the members an index can be built for.
-/

namespace Cajeta.Codec.Json

open Cells LinearProbe

variable {V : Type} {members : List (Member V)}

/-! ## Keys -/

theorem bytesAgree_iff {k key : List UInt8} (h : k.length = key.length) :
    bytesAgree k key = true ↔ k = key := by
  induction k generalizing key with
  | nil =>
    cases List.eq_nil_of_length_eq_zero h.symm
    exact iff_of_true rfl rfl
  | cons x k ih =>
    cases key with
    | nil => cases h
    | cons y key =>
      rw [bytesAgree]
      split
      · next hne => exact iff_of_false Bool.false_ne_true fun heq => hne (List.cons.inj heq).1
      · next heq =>
        rw [ih (Nat.succ.inj h), not_not.mp heq]
        exact ⟨fun h => h ▸ rfl, fun h => (List.cons.inj h).2⟩

theorem keyEquals_iff {k key : List UInt8} : keyEquals k key = true ↔ k = key := by
  rw [keyEquals]
  split
  · next hne => exact iff_of_false Bool.false_ne_true fun heq => hne (heq ▸ rfl)
  · next heq => exact bytesAgree_iff (not_not.mp heq)

theorem scan_eq (key : List UInt8) (members : List (Member V)) :
    JsonObject.scan key members = firstMatch members key := by
  induction members with
  | nil => rfl
  | cons m members ih =>
    rw [JsonObject.scan, firstMatch, List.find?_cons]
    by_cases h : m.key = key
    · rw [if_pos (keyEquals_iff.mpr h), decide_eq_true h]
      rfl
    · rw [if_neg (mt keyEquals_iff.mp h), decide_eq_false h, ih]
      rfl

def keyAt (members : List (Member V)) (e : Nat) : Option (List UInt8) :=
  some (members[e]?.elim [] (·.key))

theorem keyAt_eq (h : members[e]? = some m) : keyAt members e = some m.key := by rw [keyAt, h]; rfl

/-- The number of the first of the first `n` members that has the key. -/
def firstIndex (members : List (Member V)) (n : Nat) (key : List UInt8) : Option Nat :=
  (members.take n).findIdx? (·.key = key)

theorem firstIndex_zero (members : List (Member V)) : firstIndex members 0 = fun _ => none := rfl

theorem firstIndex_lt (h : firstIndex members n key = some e) : e < n ∧ e < members.length := by
  obtain ⟨hlt, -⟩ := List.findIdx?_eq_some_iff_getElem.mp h
  rw [List.length_take] at hlt
  omega

theorem firstIndex_succ (hm : members[n]? = some m) (key : List UInt8) :
    firstIndex members (n + 1) key =
      (firstIndex members n key).or (if m.key = key then some n else none) := by
  obtain ⟨hn, -⟩ := List.getElem?_eq_some_iff.mp hm
  rw [firstIndex, List.take_add_one, hm, List.findIdx?_append, firstIndex]
  congr 1
  rw [List.length_take_of_le (Nat.le_of_lt hn)]
  by_cases h : m.key = key
  · rw [if_pos h]
    simp [h]
  · rw [if_neg h]
    simp [h]

theorem firstIndex_succ_new (hm : members[n]? = some m) (h : firstIndex members n m.key = none) :
    firstIndex members (n + 1) = Function.update (firstIndex members n) m.key (some n) := by
  funext key
  rw [firstIndex_succ hm]
  rcases eq_or_ne key m.key with rfl | hne
  · rw [Function.update_self, h, if_pos rfl]
    rfl
  · rw [Function.update_of_ne hne, if_neg hne.symm, Option.or_none]

theorem firstIndex_succ_old (hm : members[n]? = some m) (h : firstIndex members n m.key = some e) :
    firstIndex members (n + 1) = firstIndex members n := by
  funext key
  rw [firstIndex_succ hm]
  rcases eq_or_ne key m.key with rfl | hne
  · rw [h]
    rfl
  · rw [if_neg hne.symm, Option.or_none]

theorem firstMatch_of_none (h : firstIndex members members.length key = none) :
    firstMatch members key = none := by
  rw [firstIndex, List.take_length, List.findIdx?_eq_none_iff] at h
  rw [firstMatch, List.find?_eq_none.mpr fun x hx => by rw [h x hx]; exact Bool.false_ne_true]
  rfl

theorem firstMatch_of_some (h : firstIndex members members.length key = some e)
    (hm : members[e]? = some m) : firstMatch members key = some m.value := by
  rw [firstIndex, List.take_length, List.findIdx?_eq_some_iff_getElem] at h
  obtain ⟨hlt, hkey, hbefore⟩ := h
  rw [List.getElem?_eq_getElem hlt] at hm
  cases hm
  have hfind : members.find? (·.key = key) = some members[e] := by
    refine List.find?_eq_some_iff_getElem.mpr ⟨hkey, e, hlt, rfl, fun j hj => ?_⟩
    exact (Bool.not_eq_true' _).mpr (Bool.eq_false_iff.mpr (hbefore j hj))
  rw [firstMatch, hfind]
  rfl

def home (key : List UInt8) : Nat := (hashKey key).toNat

theorem and_mask (x k : Nat) : x &&& (2 ^ k - 1) = x % 2 ^ k := Nat.and_two_pow_sub_one_eq_mod x k

theorem first_slot (key : List UInt8) (k : Nat) :
    (hashKey key).toNat &&& (2 ^ k - 1) = pos (2 ^ k) (home key) 0 := and_mask _ k

theorem next_slot : (pos (2 ^ k) h d + 1) &&& (2 ^ k - 1) = pos (2 ^ k) h (d + 1) := by
  rw [and_mask, pos_succ]

theorem getElem?_eq_slot {t : List (Option Nat)} (hi : i < t.length) :
    t[i]? = some (slot t i) := by
  rw [slot, List.getElem?_eq_getElem hi]
  rfl

/-! ## Building the index -/

theorem slot_replicate (n : Nat) :
    slot (List.replicate n (none : Option Nat)) = fun _ => none := by
  funext i
  rw [slot, List.getElem?_replicate]
  split
  · rfl
  · rfl

/-- The table serves the first of `n` members with a key. -/
structure Indexes (members : List (Member V)) (n k : Nat) (t : List (Option Nat)) : Prop where
  length : t.length = 2 ^ k
  load : load t ≤ n
  serves : Serves (2 ^ k) (keyAt members) home (slot t) (firstIndex members n)

namespace Indexes
variable {t : List (Option Nat)}

theorem slot_some (ht : Indexes members n k t) (h : slot t (pos (2 ^ k) i d) = some e) :
    ∃ m, members[e]? = some m ∧ keyAt members e = some m.key := by
  have hfind := ht.serves.sound _ (pos_lt (Nat.two_pow_pos k)) e _ h rfl
  obtain ⟨-, hlt⟩ := firstIndex_lt hfind
  have hm := List.getElem?_eq_getElem hlt
  exact ⟨_, hm, keyAt_eq hm⟩

theorem exists_empty (ht : Indexes members n k t) (hn : n < 2 ^ k) :
    ∃ i < 2 ^ k, slot t i = none := by
  obtain ⟨i, hi, hnone⟩ := LinearProbe.exists_empty (t := t) (by
    have := ht.load
    rw [ht.length]
    omega)
  exact ⟨i, ht.length ▸ hi, hnone⟩

end Indexes

namespace JsonObject

theorem place_spec {t : List (Option Nat)} (fuel : Nat) (ht : Indexes members n k t)
    (hn : n < 2 ^ k)
    (hm : members[n]? = some m) (hd : Passed (2 ^ k) (keyAt members) home (slot t) m.key d)
    (hfuel : 2 ^ k < fuel + d) :
    ∃ t', place members (2 ^ k - 1) n m.key fuel (pos (2 ^ k) (home m.key) d) t = .ok t' ∧
      Indexes members (n + 1) k t' := by
  induction fuel generalizing d with
  | zero =>
    have := hd.lt (ht.exists_empty hn)
    omega
  | succ fuel ih =>
    have hpos : pos (2 ^ k) (home m.key) d < t.length := by
      rw [ht.length]
      exact pos_lt (Nat.two_pow_pos k)
    rw [place, getElem?_eq_slot hpos]
    cases hslot : slot t (pos (2 ^ k) (home m.key) d) with
    | none =>
      refine ⟨_, rfl, (List.length_set).trans ht.length, ?_, ?_⟩
      · exact (load_set_le t _ _).trans (Nat.succ_le_succ ht.load)
      · have hnew := ht.serves.find_eq_none hd hslot
        rw [slot_set hpos, firstIndex_succ_new hm hnew]
        exact ht.serves.insert (keyAt_eq hm) hd hslot
    | some e =>
      obtain ⟨m', hm', hkey⟩ := ht.slot_some hslot
      simp only [Except.orThrow, Option.elim, Except.ok_bind, hm']
      split
      · next heq =>
        have hfound := ht.serves.find_eq_some (Nat.two_pow_pos k) hslot
          (hkey.trans (congrArg some (keyEquals_iff.mp heq)))
        refine ⟨t, rfl, ht.length, Nat.le_succ_of_le ht.load, ?_⟩
        rw [firstIndex_succ_old hm hfound]
        exact ht.serves
      · next hne =>
        rw [next_slot]
        refine ih (hd.succ hslot ?_) (by omega)
        rw [hkey]
        exact fun heq => hne (keyEquals_iff.mpr (Option.some.inj heq))

theorem placeAll_spec {t : List (Option Nat)} (ht : Indexes members n k t)
    (hsplit : members = done ++ rest) (hn : done.length = n) (hroom : members.length < 2 ^ k) :
    ∃ t', placeAll members (2 ^ k - 1) rest n t = .ok t' ∧
      Indexes members members.length k t' := by
  induction rest generalizing n t done with
  | nil =>
    rw [hsplit, List.append_nil, hn]
    rw [hsplit, List.append_nil] at ht
    exact ⟨t, rfl, ht⟩
  | cons m rest ih =>
    have hm : members[n]? = some m := by
      rw [hsplit, ← hn, List.getElem?_append_right (Nat.le_refl _), Nat.sub_self]
      rfl
    obtain ⟨hlt, -⟩ := List.getElem?_eq_some_iff.mp hm
    obtain ⟨t', hplace, ht'⟩ := place_spec (t.length + 1) ht (hlt.trans hroom) hm
      passed_zero (by rw [ht.length]; omega)
    obtain ⟨t'', hrest, ht''⟩ := ih ht'
      (show members = (done ++ [m]) ++ rest by rw [hsplit, ← List.append_cons])
      (by rw [List.length_append, hn]; rfl)
    refine ⟨t'', ?_, ht''⟩
    rw [placeAll, first_slot, hplace]
    exact hrest

theorem slotCapacity_spec (fuel : Nat) (hn : n ≤ 536870912) (hj : j ≤ 26) (hfuel : 26 < fuel + j) :
    ∃ k ≤ 30, slotCapacity fuel n (2 ^ (j + 4) : Nat) = .ok (2 ^ k : Nat) ∧ 2 * n ≤ 2 ^ k := by
  induction fuel generalizing j with
  | zero => omega
  | succ fuel ih =>
    have hpow : 2 ^ (j + 4) ≤ 2 ^ 30 := Nat.pow_le_pow_right (by decide) (by omega)
    have hsize : i32 (n * 2) = n * 2 := i32_eq (by omega) (by omega)
    rw [slotCapacity, hsize]
    split
    · next hlt =>
      have hlt26 : j < 26 := by
        by_contra hge
        obtain rfl : j = 26 := by omega
        omega
      have hpow' : 2 ^ (j + 1 + 4) = 2 ^ (j + 4) * 2 := by rw [← pow_succ]
      have hdouble : i32 ((2 ^ (j + 4) : Nat) * 2) = (2 ^ (j + 1 + 4) : Nat) := by
        have : 2 ^ (j + 1 + 4) ≤ 2 ^ 30 := Nat.pow_le_pow_right (by decide) (by omega)
        rw [i32_eq] <;> omega
      rw [hdouble]
      exact ih (by omega) (by omega)
    · next hge => exact ⟨j + 4, by omega, rfl, by omega⟩

theorem slotCapacity_stuck (hlo : 536870912 < n) (hhi : n < 1073741824) (fuel : Nat) :
    slotCapacity fuel n 16 = .error .outOfFuel := by
  have hsize : i32 (n * 2) = n * 2 := i32_eq (by omega) (by omega)
  suffices h : ∀ fuel j : Nat, ∀ capS : Int, (capS = 0 ∨ capS = -2147483648 ∨
      capS = (2 ^ (j + 4) : Nat) ∧ j ≤ 26) → slotCapacity fuel n capS = .error .outOfFuel from
    h fuel 0 16 (.inr (.inr ⟨rfl, by decide⟩))
  intro fuel
  induction fuel with
  | zero => exact fun _ _ _ => rfl
  | succ fuel ih =>
    intro j capS h
    rw [slotCapacity, hsize]
    rcases h with rfl | rfl | ⟨rfl, hj⟩
    · rw [if_pos (by omega)]
      exact ih 0 _ (.inl (by decide))
    · rw [if_pos (by omega)]
      exact ih 0 _ (.inl (by decide))
    · have hpow : 2 ^ (j + 4) ≤ 2 ^ 30 := Nat.pow_le_pow_right (by decide) (by omega)
      rw [if_pos (by omega)]
      rcases Nat.lt_or_eq_of_le hj with hlt | rfl
      · refine ih (j + 1) _ (.inr (.inr ⟨?_, by omega⟩))
        have : 2 ^ (j + 1 + 4) ≤ 2 ^ 30 := Nat.pow_le_pow_right (by decide) (by omega)
        have hpow' : 2 ^ (j + 1 + 4) = 2 ^ (j + 4) * 2 := by rw [← pow_succ]
        rw [i32_eq] <;> omega
      · exact ih 0 _ (.inr (.inl (by decide)))

/-! ## Calls -/

/-- `cap` is a power of two, so that it can be doubled to 2^30. An index that was built for all the
members is one they are found by. -/
structure Inv (o : JsonObject V) : Prop where
  capacity : ∃ k ≤ 27, o.cap = (2 ^ (k + 3) : Nat)
  fits : o.members.length ≤ o.cap
  counted : o.slotCount ≤ o.members.length
  indexed : ∀ t, o.slots = some t → o.slotCount = o.members.length →
    ∃ k, o.slotMask = 2 ^ k - 1 ∧ o.members.length < 2 ^ k ∧
      Indexes o.members o.members.length k t

theorem inv_new : Inv (new : JsonObject V) where
  capacity := ⟨0, by decide, rfl⟩
  fits := Int.natCast_nonneg 8
  counted := Nat.le_refl _
  indexed _ h := by cases h

theorem grow_spec {o : JsonObject V} (ho : Inv o) (hn : o.members.length < 1073741824)
    (hfull : o.cap ≤ o.members.length) :
    ∃ o', o.grow = .ok o' ∧ Inv o' ∧ o'.members = o.members ∧ o.members.length < o'.cap := by
  obtain ⟨k, hk, hcap⟩ := ho.capacity
  have hlt : k < 27 := by
    by_contra hge
    obtain rfl : k = 27 := by omega
    omega
  have hpow : 2 ^ (k + 1 + 3) ≤ 2 ^ 30 := Nat.pow_le_pow_right (by decide) (by omega)
  have hsucc : 2 ^ (k + 1 + 3) = 2 ^ (k + 3) * 2 := by rw [← pow_succ]
  have hdouble : i32 (o.cap * 2) = (2 ^ (k + 1 + 3) : Nat) := by rw [hcap, i32_eq] <;> omega
  have hpos := Nat.two_pow_pos (k + 3)
  have hfits := ho.fits
  have hroom : (o.members.length : Int) < i32 (o.cap * 2) := by omega
  refine ⟨{ o with cap := i32 (o.cap * 2) }, ?_, ?_, rfl, hroom⟩
  · rw [grow, if_neg (by omega)]
  · exact ⟨⟨k + 1, hlt, hdouble⟩, Int.le_of_lt hroom, ho.counted, ho.indexed⟩

theorem Inv.append {o : JsonObject V} (ho : Inv o) (hroom : o.members.length < o.cap)
    (m : Member V) : Inv { o with members := o.members ++ [m] } := by
  have hlength : (o.members ++ [m]).length = o.members.length + 1 := List.length_append
  have hcounted := ho.counted
  refine ⟨ho.capacity, ?_, ?_, fun t _ hsame => ?_⟩
  · simp only [hlength]
    omega
  · simp only [hlength]
    omega
  · simp only [hlength] at hsame
    omega

theorem put_spec {o : JsonObject V} (ho : Inv o) (hn : o.members.length < 1073741824)
    (key : List UInt8) (v : V) :
    ∃ o', o.put key v = .ok o' ∧ Inv o' ∧ o'.members = o.members ++ [⟨key, v⟩] := by
  obtain ⟨o', hgrown, ho', hmembers, hroom⟩ : ∃ o',
      (if o.sizeCount ≥ o.cap then o.grow else pure o) = .ok o' ∧ Inv o' ∧
        o'.members = o.members ∧ o.members.length < o'.cap := by
    split
    · next hfull => exact grow_spec ho hn hfull
    · next hroom => exact ⟨o, rfl, ho, rfl, Int.not_le.mp hroom⟩
  rw [← hmembers] at hroom
  refine ⟨_, ?_, ho'.append hroom ⟨key, v⟩, by rw [hmembers]⟩
  rw [put, hgrown, Except.ok_bind, Except.require, sizeCount, if_pos hroom]
  rfl

theorem buildIndex_spec {o : JsonObject V} (ho : Inv o) (hn : o.members.length ≤ 536870912) :
    ∃ o', o.buildIndex = .ok o' ∧ Inv o' ∧ o'.members = o.members ∧ o'.slots ≠ none ∧
      o'.slotCount = o.members.length := by
  obtain ⟨k, hk, hsize, hle⟩ := slotCapacity_spec 64 hn (Nat.zero_le 26) (by decide)
  have hpos := Nat.two_pow_pos k
  have hroom : o.members.length < 2 ^ k := by omega
  have hempty : Indexes o.members 0 k (List.replicate (2 ^ k) none) := by
    refine ⟨List.length_replicate, ?_, ?_⟩
    · rw [load, List.countP_replicate]
      rfl
    · rw [slot_replicate, firstIndex_zero]
      exact Serves.empty _ _ _
  obtain ⟨t, hplace, ht⟩ :=
    placeAll_spec hempty (show o.members = [] ++ o.members from rfl) rfl hroom
  have hmask : ((2 ^ k : Nat) - 1 : Int).toNat = 2 ^ k - 1 := by omega
  refine ⟨{ o with slots := some t, slotMask := 2 ^ k - 1, slotCount := o.sizeCount }, ?_,
    ⟨ho.capacity, ho.fits, Nat.le_refl _, fun t' h _ => ?_⟩, rfl, Option.some_ne_none t, rfl⟩
  · rw [buildIndex, sizeCount, show (16 : Int) = (2 ^ (0 + 4) : Nat) from rfl, hsize]
    simp only [Except.ok_bind, allocate]
    rw [if_neg (by omega), Int.toNat_natCast, hmask]
    simp only [Except.ok_bind, hplace]
    rfl
  · cases h
    exact ⟨k, rfl, hroom, ht⟩

theorem probe_spec {o : JsonObject V} {t : List (Option Nat)} (fuel : Nat)
    (key : List UInt8) (ht : Indexes o.members o.members.length k t)
      (hmask : o.slotMask = 2 ^ k - 1)
    (hroom : o.members.length < 2 ^ k)
    (hd : Passed (2 ^ k) (keyAt o.members) home (slot t) key d) (hfuel : 2 ^ k < fuel + d) :
    o.probe t key fuel (pos (2 ^ k) (home key) d) = .ok (firstMatch o.members key) := by
  induction fuel generalizing d with
  | zero =>
    have := hd.lt (ht.exists_empty hroom)
    omega
  | succ fuel ih =>
    have hpos : pos (2 ^ k) (home key) d < t.length := by
      rw [ht.length]
      exact pos_lt (Nat.two_pow_pos k)
    rw [probe, getElem?_eq_slot hpos]
    cases hslot : slot t (pos (2 ^ k) (home key) d) with
    | none =>
      rw [firstMatch_of_none (ht.serves.find_eq_none hd hslot)]
      rfl
    | some e =>
      obtain ⟨m, hm, hkey⟩ := ht.slot_some hslot
      simp only [Except.orThrow, Option.elim, Except.ok_bind, hm]
      split
      · next heq =>
        have hfound := ht.serves.find_eq_some (Nat.two_pow_pos k) hslot
          (hkey.trans (congrArg some (keyEquals_iff.mp heq)))
        rw [firstMatch_of_some hfound hm]
        rfl
      · next hne =>
        rw [hmask, next_slot]
        refine ih (hd.succ hslot ?_) (by omega)
        rw [hkey]
        exact fun heq => hne (keyEquals_iff.mpr (Option.some.inj heq))

theorem get_spec {o : JsonObject V} (ho : Inv o) (hn : o.members.length ≤ 536870912)
    (key : List UInt8) :
    ∃ o', o.get key = .ok (o', firstMatch o.members key) ∧ Inv o' ∧ o'.members = o.members := by
  rw [get]
  split
  · obtain ⟨o', hbuilt, ho', hmembers, hslots, hcount⟩ : ∃ o',
        (if o.slots = none ∨ o.slotCount ≠ o.sizeCount then o.buildIndex else pure o) = .ok o' ∧
          Inv o' ∧ o'.members = o.members ∧ o'.slots ≠ none ∧
          o'.slotCount = o.members.length := by
      split
      · exact buildIndex_spec ho hn
      · next hfresh =>
        obtain ⟨hslots, hcount⟩ := not_or.mp hfresh
        exact ⟨o, rfl, ho, rfl, hslots, not_not.mp hcount⟩
    obtain ⟨t, hsome⟩ := Option.ne_none_iff_exists'.mp hslots
    obtain ⟨k, hmask, hroom, ht⟩ := ho'.indexed t hsome (hmembers ▸ hcount)
    have hprobe := probe_spec (t.length + 1) key ht hmask hroom passed_zero
      (by rw [ht.length]; omega)
    rw [← first_slot, ← hmask, hmembers] at hprobe
    refine ⟨o', ?_, ho', hmembers⟩
    rw [hbuilt]
    simp only [Except.ok_bind, hsome, Except.orThrow, Option.elim, hprobe]
    rfl
  · exact ⟨o, by rw [scan_eq]; rfl, ho, rfl⟩

/-! ## Runs -/

/-- With `n` members there, every put of the calls finds room for another and every get can build
an index. -/
def Admits : (n : Nat) → List (Call V) → Prop
  | _, [] => True
  | n, .put _ _ :: calls => n < 1073741824 ∧ Admits (n + 1) calls
  | n, .get _ :: calls => n ≤ 536870912 ∧ Admits n calls

theorem run_eq {o : JsonObject V} (ho : Inv o) (calls : List (Call V))
    (h : Admits o.members.length calls) : o.run calls = .ok (scanned o.members calls) := by
  induction calls generalizing o with
  | nil => rfl
  | cons call calls ih =>
    cases call with
    | put key v =>
      obtain ⟨o', hput, ho', hmembers⟩ := put_spec ho h.1 key v
      rw [run, hput, Except.ok_bind, scanned, ← hmembers]
      apply ih ho'
      rw [hmembers, List.length_append]
      exact h.2
    | get key =>
      obtain ⟨o', hget, ho', hmembers⟩ := get_spec ho h.1 key
      rw [run, hget, Except.ok_bind, scanned, ← hmembers]
      simp only [ih ho' (by rw [hmembers]; exact h.2)]
      rfl

/-- Every get of a run returns what a first-match scan of the members put before it returns. -/
theorem lookups_first_match (calls : List (Call V)) (h : Admits 0 calls) :
    new.run calls = .ok (scanned [] calls) := run_eq inv_new calls h

/-- Enough members for an index, one key put twice, and puts between the gets, after which the
index is built again. -/
def indexedCalls : List (Call Nat) :=
  (List.range 16).map (fun i => .put [UInt8.ofNat i, 7] i) ++
    [.put [3, 7] 99, .get [3, 7], .put [20] 5, .put [15, 7] 98, .get [20], .get [15, 7], .get [30]]

theorem lookups_first_match_two :
    new.run indexedCalls = .ok [some 3, some 5, some 15, none] :=
  lookups_first_match indexedCalls (by simp [indexedCalls, List.range, List.range.loop, Admits])

theorem slots_of_put {o o' : JsonObject V} (h : o.put key v = .ok o') (hslots : o.slots = none) :
    o'.slots = none := by
  obtain ⟨o₁, hgrown, h⟩ := Except.bind_eq_ok.mp h
  obtain ⟨-, -, h⟩ := Except.bind_eq_ok.mp h
  cases h
  split at hgrown
  · rw [grow] at hgrown
    split at hgrown
    · cases hgrown
    · cases hgrown
      exact hslots
  · cases hgrown
    exact hslots

theorem run_replicate_put {o : JsonObject V} (ho : Inv o) (hslots : o.slots = none)
    (hn : o.members.length + n ≤ 1073741824) (key : List UInt8) (v : V) (calls : List (Call V)) :
    ∃ o', o.run (List.replicate n (.put key v) ++ calls) = o'.run calls ∧ Inv o' ∧
      o'.slots = none ∧ o'.members.length = o.members.length + n := by
  induction n generalizing o with
  | zero => exact ⟨o, rfl, ho, hslots, rfl⟩
  | succ n ih =>
    obtain ⟨o₁, hput, ho₁, hmembers⟩ := put_spec ho (by omega) key v
    have hlength : o₁.members.length = o.members.length + 1 := by
      rw [hmembers, List.length_append]
      rfl
    obtain ⟨o', hrun, ho', hslots', hlength'⟩ := ih ho₁ (slots_of_put hput hslots) (by omega)
    refine ⟨o', ?_, ho', hslots', by omega⟩
    rw [List.replicate_succ, List.cons_append, run, hput]
    exact hrun

theorem get_stuck {o : JsonObject V} (hslots : o.slots = none) (hlo : 536870912 < o.members.length)
    (hhi : o.members.length < 1073741824) (key : List UInt8) :
    o.get key = .error .outOfFuel := by
  have hbuild : o.buildIndex = .error .outOfFuel := by
    rw [buildIndex, sizeCount, slotCapacity_stuck hlo hhi]
    rfl
  have hmany : o.sizeCount ≥ 16 := by
    rw [sizeCount]
    omega
  rw [get, if_pos hmany, if_pos (.inl hslots), hbuild]
  rfl

/-- After 2^29 + 1 puts a get searches for a number of slots for ever. -/
theorem lookup_hangs :
    (new.run (.replicate 536870913 (.put [] 0) ++ [.get []]) : Outcome (List (Option Nat))) =
        .error .outOfFuel ∧
      (∀ fuel, slotCapacity fuel 536870913 16 = .error .outOfFuel) ∧
      ¬ ∀ calls : List (Call Nat), new.run calls = .ok (scanned [] calls) := by
  have hrun : (new.run (.replicate 536870913 (.put [] 0) ++ [.get []]) :
      Outcome (List (Option Nat))) = .error .outOfFuel := by
    obtain ⟨o, hrun, -, hslots, hlength⟩ := run_replicate_put (n := 536870913) inv_new rfl
      (by decide) [] 0 [.get []]
    have hnew : (new : JsonObject Nat).members.length = 0 := rfl
    rw [hnew] at hlength
    rw [hrun, run, get_stuck hslots (by omega) (by omega)]
    rfl
  refine ⟨hrun, slotCapacity_stuck (by decide) (by decide), fun hall => ?_⟩
  rw [hall] at hrun
  cases hrun

end JsonObject

end Cajeta.Codec.Json
