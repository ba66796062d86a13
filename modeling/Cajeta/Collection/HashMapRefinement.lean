import Mathlib.Tactic.NormNum
import Cajeta.Lib.FinMap
import Cajeta.Collection.HashMapProbe

/-!
# `HashMap` refines a finite map

One specification lemma for each operation, in terms of what the table binds, and from them the
simulation: whatever sequence of calls is made, the answers are those of a finite map and the
invariant holds of the table that is left.
-/

namespace Cajeta.Collection.HashMap
variable {K V : Type} [Inhabited K] [Inhabited V] {m : HashMap K V}

section

@[simp] theorem cap_fresh : (fresh c : HashMap K V).cap = c := rfl

theorem ctrlAt_fresh (hi : i < c + 16) : (fresh c : HashMap K V).ctrlAt i = emptyCtrl := by
  simp [fresh, ctrlAt, hi]

theorem tally_fresh (hp : p emptyCtrl = false) : (fresh c : HashMap K V).tally p = 0 := by
  refine Finset.card_eq_zero.mpr (Finset.filter_eq_empty_iff.mpr fun i hi => ?_)
  have hi : i < c := Finset.mem_range.mp hi
  rw [ctrlAt_fresh (by omega), hp]
  exact Bool.false_ne_true

theorem not_isFull_fresh (hi : i < (fresh c : HashMap K V).cap) :
    ¬ isFull ((fresh c : HashMap K V).ctrlAt i) = true := by
  rw [cap_fresh] at hi
  rw [ctrlAt_fresh (Nat.lt_add_right 16 hi)]
  exact Bool.false_ne_true

variable [BEq K]

theorem not_binds_fresh : ¬ Binds (fresh c : HashMap K V) key v :=
  fun ⟨_, hi, _⟩ => not_isFull_fresh hi.lt hi.full

theorem binds_usedSlots (n : Nat) :
    Binds { m with usedSlots := n } key v ↔ Binds m key v :=
  ⟨fun ⟨i, ⟨hlt, hfull, hbeq⟩, hv⟩ => ⟨i, ⟨hlt, hfull, hbeq⟩, hv⟩,
    fun ⟨i, ⟨hlt, hfull, hbeq⟩, hv⟩ => ⟨i, ⟨hlt, hfull, hbeq⟩, hv⟩⟩

variable [Hashable K]

theorem WF.usedSlots (hm : WF m) (n : Nat) : WF { m with usedSlots := n } :=
  ⟨⟨hm.cap_pow, hm.slots_size, hm.ctrl_size, hm.mirror⟩, hm.byte, hm.unique, hm.chain, hm.size⟩

theorem inv_fresh (hc : c = 16 * 2 ^ k) : Inv (fresh c : HashMap K V) where
  cap_pow := ⟨k, hc⟩
  slots_size := Array.size_replicate
  ctrl_size := Array.size_replicate
  mirror i hi := by
    have : 16 ≤ c := hc ▸ Nat.le_mul_of_pos_right 16 (Nat.two_pow_pos k)
    rw [cap_fresh, ctrlAt_fresh (by omega), ctrlAt_fresh (by omega)]
  byte i hi := .inl (ctrlAt_fresh (Nat.lt_add_right 16 hi))
  unique i hi j hj hf := absurd hf (not_isFull_fresh hi)
  chain i hi hf := absurd hf (not_isFull_fresh hi)
  size := (tally_fresh rfl).symm
  used := (tally_fresh (p := (· != emptyCtrl)) rfl).symm
  load := Nat.zero_le _

end

theorem roundCapacity_pow (h : roundCapacity n fuel (16 * 2 ^ k) = some c) :
    ∃ k, c = 16 * 2 ^ k := by
  induction fuel generalizing k with
  | zero => cases h
  | succ fuel ih =>
    simp only [roundCapacity] at h
    split at h
    · exact ih (k := k + 1) (by rw [pow_succ, ← Nat.mul_assoc]; exact h)
    · cases h; exact ⟨k, rfl⟩

theorem new_eq_some (h : (new n : Option (HashMap K V)) = some m) :
    ∃ k, m = fresh (16 * 2 ^ k) := by
  obtain ⟨c, hc, rfl⟩ := Option.map_eq_some_iff.mp h
  obtain ⟨k, rfl⟩ := roundCapacity_pow (k := 0) hc
  exact ⟨k, rfl⟩

variable [BEq K] [Hashable K] [EquivBEq K] [LawfulHashable K]

/-! ## Growth -/

theorem reinsert_spec (hm : WF m) (hE : ∃ i < m.cap, m.ctrlAt i = emptyCtrl) (e : MapEntry K V)
    (ha : Absent m e.key) :
    ∃ t, m.reinsert e = some t ∧ WF t ∧ t.cap = m.cap ∧ t.sizeCount = m.sizeCount + 1 ∧
      t.tally (· != emptyCtrl) = m.tally (· != emptyCtrl) + 1 ∧
      ∀ k v, Binds t k v ↔ if e.key == k then v = e.val else Binds m k v := by
  obtain ⟨i, hplace, hv, hempty⟩ := placeLoop_spec hm.toShaped hE
    (noEmptyBefore_zero (h := hash e.key)) (Nat.le_add_right m.cap 0)
  refine ⟨m.occupy i e.key e.val (h2Of (hash e.key)), ?_, hm.occupy hv ha, rfl, rfl, ?_,
    binds_occupy hm hv ha⟩
  · simp only [reinsert, hm.start]
    rw [hplace]
    rfl
  · rw [tally_used_occupy hm.toShaped hv, if_pos hempty]

/-- What the table under construction holds once the slots before `n` were visited. -/
structure Rebuilt (m t : HashMap K V) (n : Nat) : Prop extends WF t where
  cap : t.cap = m.cap * 2
  sizeCount_le : t.sizeCount ≤ n
  sizeCount : t.sizeCount = ((Finset.range n).filter fun i => isFull (m.ctrlAt i) = true).card
  used : t.tally (· != emptyCtrl) = t.sizeCount
  binds : ∀ k v, Binds t k v ↔ ∃ i < n, Holds m k i ∧ (m.slot i).val = v

theorem rebuild_spec (hm : WF m) (hn : n ≤ m.cap) :
    ∃ t, (List.range n).foldlM
        (fun t s => if isFull (m.ctrlAt s) then t.reinsert (m.slot s) else some t)
        (fresh (m.cap * 2)) = some t ∧ Rebuilt m t n := by
  induction n with
  | zero =>
    obtain ⟨k, hk⟩ := hm.cap_pow
    have hinv : Inv (fresh (m.cap * 2) : HashMap K V) := by
      exact inv_fresh (k := k + 1) (by rw [hk, Nat.mul_assoc, ← pow_succ])
    refine ⟨_, rfl, hinv.toWF, rfl, Nat.le_refl 0, rfl, tally_fresh (p := (· != emptyCtrl)) rfl,
      fun k v => ?_⟩
    simp [not_binds_fresh]
  | succ n ih =>
    obtain ⟨t, hfold, ht⟩ := ih (by omega)
    have hrange : Finset.range (n + 1) = insert n (Finset.range n) := Finset.range_add_one
    simp only [List.range_succ, List.foldlM_append, hfold, List.foldlM_cons, List.foldlM_nil]
    by_cases hfull : isFull (m.ctrlAt n) = true
    · have hE : ∃ i < t.cap, t.ctrlAt i = emptyCtrl := by
        obtain ⟨i, hi, hp⟩ := exists_of_tally_lt (m := t) (p := (· != emptyCtrl)) (by
          rw [ht.used, ht.cap]
          have := ht.sizeCount_le
          have := hm.cap_pos
          omega)
        exact ⟨i, hi, by simpa using hp⟩
      have ha : Absent t (m.slot n).key := by
        intro j hj hf
        by_contra hkey
        obtain ⟨i, hi, hholds, _⟩ :=
          (ht.binds _ _).mp ⟨j, ⟨hj, hf, by simpa using hkey⟩, rfl⟩
        have := hm.unique i hholds.lt n (by omega) hholds.full hfull hholds.beq
        omega
      obtain ⟨t', hreinsert, hwf, hcap, hsize, hused, hbinds⟩ :=
        reinsert_spec ht.toWF hE (m.slot n) ha
      refine ⟨t', ?_, hwf, hcap.trans ht.cap, ?_, ?_, ?_, fun k v => ?_⟩
      · simp only [hfull, if_true, Option.bind_eq_bind, Option.bind_some, hreinsert,
          Option.pure_def]
      · have := ht.sizeCount_le
        omega
      · rw [hsize, ht.sizeCount, hrange, Finset.filter_insert, if_pos hfull,
          Finset.card_insert_of_notMem (by simp)]
      · rw [hused, hsize, ht.used]
      · rw [hbinds, ht.binds]
        constructor
        · split
          · next hk =>
            rintro rfl
            exact ⟨n, by omega, ⟨by omega, hfull, hk⟩, rfl⟩
          · rintro ⟨i, hi, h⟩
            exact ⟨i, by omega, h⟩
        · rintro ⟨i, hi, hholds, rfl⟩
          split
          · next hk =>
            have := hm.unique i hholds.lt n (by omega) hholds.full hfull
              (BEq.trans hholds.beq (BEq.symm hk))
            rw [this]
          · next hk =>
            have : i ≠ n := by
              rintro rfl
              exact hk hholds.beq
            exact ⟨i, by omega, hholds, rfl⟩
    · refine ⟨t, ?_, ht.toWF, ht.cap, ?_, ?_, ht.used, fun k v => ?_⟩
      · simp [hfull]
      · have := ht.sizeCount_le
        omega
      · rw [ht.sizeCount, hrange, Finset.filter_insert, if_neg hfull]
      · rw [ht.binds]
        constructor
        · rintro ⟨i, hi, h⟩
          exact ⟨i, by omega, h⟩
        · rintro ⟨i, hi, hholds, h⟩
          have : i ≠ n := by
            rintro rfl
            exact hfull hholds.full
          exact ⟨i, by omega, hholds, h⟩

theorem resize_spec (hm : WF m) :
    ∃ t, m.resize = some t ∧ Inv t ∧ t.sizeCount = m.sizeCount ∧
      ∀ k v, Binds t k v ↔ Binds m k v := by
  obtain ⟨t, hfold, ht⟩ := rebuild_spec hm (Nat.le_refl m.cap)
  refine ⟨{ t with usedSlots := t.sizeCount }, ?_, ⟨ht.toWF.usedSlots _, ht.used.symm, ?_⟩,
    ht.sizeCount.trans hm.size.symm, fun k v => ?_⟩
  · simp only [resize, hfold, Option.bind_eq_bind, Option.bind_some, Option.pure_def]
  · have := ht.sizeCount_le
    have := ht.cap
    change t.sizeCount * 4 ≤ t.cap * 3
    omega
  · refine (binds_usedSlots t.sizeCount).trans ((ht.binds k v).trans ⟨?_, ?_⟩)
    · rintro ⟨i, _, h⟩
      exact ⟨i, h⟩
    · rintro ⟨i, hholds, h⟩
      exact ⟨i, hholds.lt, hholds, h⟩

theorem put_spec (hm : Inv m) (key : K) (value : V) :
    ∃ m', m.put key value = some m' ∧ Inv m' ∧
      (∀ k v, Binds m' k v ↔ if key == k then v = value else Binds m k v) ∧
      ((Absent m key ∧ m'.sizeCount = m.sizeCount + 1) ∨
        ((∃ i, Holds m key i) ∧ m'.sizeCount = m.sizeCount)) := by
  simp only [put, hm.start]
  rcases putLoop_spec hm.toWF hm.exists_EMPTY noEmptyBefore_zero
    (noMatchBefore_zero : m.NoMatchBefore key 0) (Nat.le_add_right m.cap 0)
    (fun i (h : none = some i) => nomatch h) with
    ⟨i, hloop, hi⟩ | ⟨i, hloop, hv, ha⟩ <;> rw [Nat.mul_zero] at hloop
  · refine ⟨m.replace i value, ?_, hm.replace hi.lt, binds_replace hm.toWF hi, .inr ⟨⟨i, hi⟩, rfl⟩⟩
    rw [hloop]
    rfl
  have hwf := hm.toWF.occupy (v := value) hv ha
  have hbinds (k v) : Binds (m.occupy i key value (h2Of (hash key))) k v ↔
      if key == k then v = value else Binds m k v := binds_occupy hm.toWF hv ha k v
  have hused : (m.occupy i key value (h2Of (hash key))).tally (· != emptyCtrl) =
      if m.ctrlAt i = emptyCtrl then m.tally (· != emptyCtrl) + 1 else m.tally (· != emptyCtrl) :=
    tally_used_occupy hm.toShaped hv
  simp only [hloop, Option.bind_eq_bind, Option.bind_some, Option.pure_def]
  split
  · next hempty =>
    rw [if_pos hempty, ← hm.used] at hused
    split
    · -- The table doubles as soon as more than three quarters of it are used.
      obtain ⟨t, hresize, hinv, hsize, htbinds⟩ := resize_spec (hwf.usedSlots (m.usedSlots + 1))
      exact ⟨t, hresize, hinv, fun k v => (htbinds k v).trans
        ((binds_usedSlots _).trans (hbinds k v)), .inl ⟨ha, hsize⟩⟩
    · next hload =>
      exact ⟨_, rfl, ⟨hwf.usedSlots _, hused.symm, Nat.le_of_not_lt hload⟩,
        fun k v => (binds_usedSlots _).trans (hbinds k v), .inl ⟨ha, rfl⟩⟩
  · next hfree =>
    rw [if_neg hfree, ← hm.used] at hused
    exact ⟨_, rfl, ⟨hwf, hused.symm, hm.load⟩, hbinds, .inl ⟨ha, rfl⟩⟩

theorem remove_spec (hm : Inv m) (key : K) :
    (∃ i, m.remove key = some ((m.slot i).val, m.bury i) ∧ Holds m key i ∧ Inv (m.bury i) ∧
      m.sizeCount = (m.bury i).sizeCount + 1) ∨
    (m.remove key = some (default, m) ∧ Absent m key) := by
  rcases findSlot_spec hm key with ⟨i, hfind, hi⟩ | ⟨hfind, ha⟩
  · refine .inl ⟨i, by simp [remove, hfind], hi, hm.bury hi.lt hi.full, ?_⟩
    have hpos : 0 < m.tally isFull :=
      Finset.card_pos.mpr ⟨i, Finset.mem_filter.mpr ⟨Finset.mem_range.mpr hi.lt, hi.full⟩⟩
    have := hm.size
    change m.sizeCount = m.sizeCount - 1 + 1
    omega
  · exact .inr ⟨by simp [remove, hfind], ha⟩

end Cajeta.Collection.HashMap

namespace Cajeta.Collection
variable {K V : Type} [BEq K] [Inhabited K] [Inhabited V]

/-! ## Refinement -/

namespace HashMap
variable {m : HashMap K V} {f : FinMap K V}

structure Refines (m : HashMap K V) (f : FinMap K V) : Prop where
  binds : ∀ k v, Binds m k v ↔ f.lookup k = some v
  size : m.sizeCount = f.size

theorem Refines.lookup_of_holds (h : Refines m f) (hi : Holds m key i) :
    f.lookup key = some (m.slot i).val := (h.binds _ _).mp hi.binds

theorem Refines.lookup_of_absent (h : Refines m f) (ha : Absent m key) : f.lookup key = none := by
  refine Option.eq_none_iff_forall_ne_some.mpr fun v hv => ?_
  exact ha.not_binds ((h.binds key v).mpr hv)

theorem refines_fresh : Refines (fresh c : HashMap K V) FinMap.empty :=
  ⟨fun k v => by simp [not_binds_fresh], rfl⟩

end HashMap

section
variable [EquivBEq K]

def mapCall (f : FinMap K V) : Op K V → Ret V × FinMap K V
  | .put key value => (.unit, f.insert key value)
  | .remove key => (.value ((f.lookup key).getD default), f.erase key)
  | .get key => (.value ((f.lookup key).getD default), f)
  | .containsKey key => (.bool (f.contains key), f)
  | .count => (.int f.size, f)

def mapCalls (f : FinMap K V) : List (Op K V) → List (Ret V) × FinMap K V
  | [] => ([], f)
  | op :: ops =>
    let (ret, f) := mapCall f op
    let (rets, f) := mapCalls f ops
    (ret :: rets, f)

end

namespace HashMap
variable {m : HashMap K V} {f : FinMap K V} [EquivBEq K] [Hashable K] [LawfulHashable K]

/-- The step of the simulation: one call ends, with the answer of the finite map. -/
theorem call_refines (hm : Inv m) (h : Refines m f) (op : Op K V) :
    ∃ m', m.call op = some ((mapCall f op).1, m') ∧ Inv m' ∧ Refines m' (mapCall f op).2 := by
  cases op with
  | put key value =>
    obtain ⟨m', hput, hinv, hbinds, hsize⟩ := put_spec hm key value
    refine ⟨m', by simp [call, hput, mapCall], hinv, fun k v => ?_, ?_⟩
    · rw [hbinds, mapCall, FinMap.lookup_insert, h.binds]
      split <;> simp [eq_comm]
    · rw [mapCall, FinMap.size_insert, FinMap.contains, ← h.size]
      rcases hsize with ⟨ha, hsize⟩ | ⟨⟨i, hi⟩, hsize⟩
      · simp [h.lookup_of_absent ha, hsize]
      · simp [h.lookup_of_holds hi, hsize]
  | remove key =>
    rcases remove_spec hm key with ⟨i, hremove, hi, hinv, hsize⟩ | ⟨hremove, ha⟩
    · have hlookup := h.lookup_of_holds hi
      refine ⟨m.bury i, by simp [call, hremove, mapCall, hlookup], hinv, fun k v => ?_, ?_⟩
      · rw [binds_bury hm.toWF hi, mapCall, FinMap.lookup_erase, h.binds]
        cases hk : key == k <;> simp
      · rw [mapCall, FinMap.size_erase, FinMap.contains, hlookup, ← h.size, hsize]
        rfl
    · have hlookup := h.lookup_of_absent ha
      refine ⟨m, by simp [call, hremove, mapCall, hlookup], hm, fun k v => ?_, ?_⟩
      · rw [mapCall, FinMap.lookup_erase, h.binds]
        split
        · next hk => simp [← f.lookup_congr hk, hlookup]
        · rfl
      · rw [mapCall, FinMap.size_erase, FinMap.contains, hlookup]
        exact h.size
  | get key =>
    refine ⟨m, ?_, hm, h⟩
    rcases findSlot_spec hm key with ⟨i, hfind, hi⟩ | ⟨hfind, ha⟩
    · simp [call, get, hfind, mapCall, h.lookup_of_holds hi]
    · simp [call, get, hfind, mapCall, h.lookup_of_absent ha]
  | containsKey key =>
    refine ⟨m, ?_, hm, h⟩
    rcases findSlot_spec hm key with ⟨i, hfind, hi⟩ | ⟨hfind, ha⟩
    · simp [call, containsKey, hfind, mapCall, FinMap.contains, h.lookup_of_holds hi]
    · simp [call, containsKey, hfind, mapCall, FinMap.contains, h.lookup_of_absent ha]
  | count => exact ⟨m, by simp [call, count, mapCall, h.size], hm, h⟩

theorem get_refines (hm : Inv m) (h : Refines m f) (key : K) :
    m.get key = some ((f.lookup key).getD default) := by
  obtain ⟨m', hcall, -⟩ := call_refines hm h (.get key)
  cases hg : m.get key with
  | none => simp [call, hg] at hcall
  | some v =>
    simp only [call, hg, mapCall, Option.map_some, Option.some.injEq, Prod.mk.injEq,
      Ret.value.injEq] at hcall
    rw [hcall.1]

theorem put_refines (hm : Inv m) (h : Refines m f) (key : K) (value : V) :
    ∃ m', m.put key value = some m' ∧ Inv m' ∧ Refines m' (f.insert key value) := by
  obtain ⟨m', hcall, hinv, href⟩ := call_refines hm h (.put key value)
  simp only [call, Option.map_eq_some_iff, Prod.mk.injEq] at hcall
  obtain ⟨m'', hput, -, rfl⟩ := hcall
  exact ⟨m'', hput, hinv, href⟩

theorem remove_refines (hm : Inv m) (h : Refines m f) (key : K) :
    ∃ v m', m.remove key = some (v, m') ∧ Inv m' ∧ Refines m' (f.erase key) := by
  obtain ⟨m', hcall, hinv, href⟩ := call_refines hm h (.remove key)
  simp only [call, Option.map_eq_some_iff, Prod.mk.injEq, Prod.exists] at hcall
  obtain ⟨v, m'', hremove, -, rfl⟩ := hcall
  exact ⟨v, m'', hremove, hinv, href⟩

theorem calls_refines (hm : Inv m) (h : Refines m f) (ops : List (Op K V)) :
    ∃ m', m.calls ops = some ((mapCalls f ops).1, m') ∧ Inv m' ∧
      Refines m' (mapCalls f ops).2 := by
  induction ops generalizing m f with
  | nil => exact ⟨m, rfl, hm, h⟩
  | cons op ops ih =>
    obtain ⟨m₁, hcall, hinv₁, h₁⟩ := call_refines hm h op
    obtain ⟨m₂, hcalls, hinv₂, h₂⟩ := ih hinv₁ h₁
    exact ⟨m₂, by simp [calls, hcall, hcalls, mapCalls], hinv₂, h₂⟩

/-- Every sequence of calls on a new map ends, answers as a finite map does, and leaves a table in
which no key occupies two slots, the tail mirrors the head, every live key is reached before an
`EMPTY`, and an `EMPTY` remains. -/
theorem hashMap_refines (hnew : (new initialCapacity : Option (HashMap K V)) = some m)
    (ops : List (Op K V)) :
    ∃ m', m.calls ops = some ((mapCalls FinMap.empty ops).1, m') ∧
      (∀ i j key, Holds m' key i → Holds m' key j → i = j) ∧
      (∀ i < 16, m'.ctrlAt (m'.cap + i) = m'.ctrlAt i) ∧
      (∀ i < m'.cap, isFull (m'.ctrlAt i) = true → m'.OnChain (hash (m'.slot i).key) i) ∧
      ∃ i < m'.cap, m'.ctrlAt i = emptyCtrl := by
  obtain ⟨k, rfl⟩ := new_eq_some hnew
  obtain ⟨m', hcalls, hinv, _⟩ := calls_refines (inv_fresh rfl) refines_fresh ops
  exact ⟨m', hcalls, fun _ _ _ hi hj => hi.unique hinv.toWF hj, hinv.mirror, hinv.chain,
    hinv.exists_EMPTY⟩

end HashMap

theorem HashMap.hashMap_refines_sample : ∃ m : HashMap Nat Nat,
    (fresh 16 : HashMap Nat Nat).calls [.put 7 1, .put 23 2, .remove 7, .get 23, .get 7, .count] =
      some ([.unit, .unit, .value 1, .value 2, .value 0, .int 1], m) ∧
    ∃ i < m.cap, m.ctrlAt i = emptyCtrl := by
  obtain ⟨m, hcalls, _, _, _, hE⟩ := hashMap_refines
    (rfl : (new 3 : Option (HashMap Nat Nat)) = some (fresh 16))
      [.put 7 1, .put 23 2, .remove 7, .get 23, .get 7, .count]
  exact ⟨m, hcalls, hE⟩

end Cajeta.Collection
