import Cajeta.Memory.ElementTitles

/-!
# Guarantees of the titles of array elements

Each layout of the bits does the same with the objects that the slots hold. So the slots and the
ledger of the titles agree in every run, and the teardown drops what is left.
-/

namespace Cajeta.Memory
open TitledSlots

@[simp] theorem Release.map_drops (how : Release) (o : Option Nat) :
    (how.drops o).map ElementDrop.obj = o.toList := by
  cases o <;> rfl

theorem update_none {holds : Nat → Option Nat} (h : holds i = none) :
    Function.update holds i none = holds := by
  rw [← h, Function.update_eq_self]

namespace TailArray

@[simp] theorem count_setBit (t : TailArray) : (t.setBit i v).count = t.count := rfl

@[simp] theorem count_setSlot (t : TailArray) : (t.setSlot i o).count = t.count := rfl

@[simp] theorem slot_setBit (t : TailArray) : (t.setBit i v).slot j = t.slot j := rfl

@[simp] theorem bit_setSlot (t : TailArray) : (t.setSlot i o).bit j = t.bit j := rfl

theorem bit_setBit {t : TailArray} (hi : i < t.count) :
    (t.setBit i v).bit j = if j = i then v else t.bit j :=
  Bitmap.get_put (Bitmap.byte_lt t.bits_length hi)

theorem slot_setSlot {t : TailArray} (hi : i < t.count) :
    (t.setSlot i o).slot j = if j = i then o else t.slot j := by
  have hlength : i < t.slots.length := by
    rw [t.slots_length]
    exact hi
  simp only [slot, setSlot, List.getElem?_set, hlength, if_true]
  by_cases hji : j = i
  · rw [if_pos hji, if_pos hji.symm]
    rfl
  · rw [if_neg hji, if_neg (Ne.symm hji)]

/-- The object that a slot owns. -/
def holds (t : TailArray) (i : Nat) : Option Nat := if t.bit i then t.slot i else none

theorem holds_update {t : TailArray} (hi : i < t.count) :
    ((t.setBit i v).setSlot i o).holds =
      Function.update t.holds i (if v then o else none) := by
  funext j
  rw [Function.update_apply, holds, bit_setSlot, bit_setBit hi, slot_setSlot (by exact hi)]
  by_cases hji : j = i
  · simp only [hji, if_true]
  · simp only [hji, if_false, slot_setBit, holds]

theorem holds_setBit_false {t : TailArray} (hi : i < t.count) :
    (t.setBit i false).holds = Function.update t.holds i none := by
  funext j
  rw [Function.update_apply, holds, bit_setBit hi]
  by_cases hji : j = i
  · simp [hji]
  · simp [hji, holds]

theorem holds_storeWith {t : TailArray} (how : Release) (obj : Option Nat) (owned : BitVec 64)
    (hi : i < t.count) :
    (t.storeWith how i obj owned).1.holds =
      Function.update t.holds i
        (if owned.getLsbD 0 then obj else if t.holds i = obj then obj else none) := by
  unfold storeWith
  rw [if_neg (Nat.not_le.mpr hi)]
  dsimp only
  rw [holds_update hi]
  congr 1
  cases howned : owned.getLsbD 0 with
  | true => simp
  | false =>
    unfold holds
    by_cases hsame : t.slot i = obj
    · cases hobj : obj with
      | none => simp
      | some x => simp [hsame, hobj]
    · by_cases hbit : t.bit i = true <;> simp [hsame, hbit]

theorem dropped_storeWith {t : TailArray} (hi : i < t.count) :
    (t.storeWith how i obj owned).2.map ElementDrop.obj =
      if t.holds i = obj then [] else (t.holds i).toList := by
  unfold storeWith holds
  rw [if_neg (Nat.not_le.mpr hi)]
  dsimp only
  by_cases hbit : t.bit i = true
  · by_cases hsame : t.slot i = obj <;> simp [hbit, hsame]
  · simp [hbit]

theorem dropOneWith_spec {t : TailArray} (hi : i < t.count) :
    (t.dropOneWith how i).1.holds = Function.update t.holds i none ∧
      (t.dropOneWith how i).2.map ElementDrop.obj = (t.holds i).toList := by
  unfold dropOneWith
  rw [if_neg (Nat.not_le.mpr hi)]
  cases hbit : t.bit i with
  | true =>
    refine ⟨holds_update hi, ?_⟩
    simp [holds, hbit]
  | false =>
    have hnone : t.holds i = none := by simp [holds, hbit]
    refine ⟨?_, by simp [hnone]⟩
    rw [update_none hnone]
    rfl

theorem dropWalkFrom_spec {t : TailArray} (hrem : i + rem ≤ t.count) :
    (t.dropWalkFrom how i rem).2.map ElementDrop.obj = (List.range' i rem).filterMap t.holds := by
  induction rem generalizing t i with
  | zero => rfl
  | succ rem ih =>
    rw [dropWalkFrom, List.range'_succ, List.filterMap_cons]
    cases hbit : t.bit i with
    | true =>
      have hi : i < t.count := by omega
      have hrest := ih (t := (t.setBit i false).setSlot i none) (i := i + 1)
        (by rw [count_setSlot, count_setBit]; omega)
      have hsame : (List.range' (i + 1) rem).filterMap
          ((t.setBit i false).setSlot i none).holds =
            (List.range' (i + 1) rem).filterMap t.holds := by
        refine List.filterMap_congr fun j hj => ?_
        rw [holds_update hi, Function.update_of_ne]
        have hle := (List.mem_range'_1.mp hj).1
        omega
      simp only [if_true, List.map_append, Release.map_drops]
      rw [hrest, hsame]
      have hslot : t.holds i = t.slot i := by simp [holds, hbit]
      rw [hslot]
      cases t.slot i <;> rfl
    | false =>
      have hnone : t.holds i = none := by simp [holds, hbit]
      rw [hnone]
      exact ih (by omega)

end TailArray

namespace OwnedBits

theorem cap_put {b : OwnedBits n} : (b.put i v).cap = b.cap := rfl

theorem get_put {b : OwnedBits n} (hi : i < b.cap) :
    Bitmap.get (b.put i v).bytes j = if j = i then v else Bitmap.get b.bytes j :=
  Bitmap.get_put (Bitmap.byte_lt b.length_eq hi)

theorem get_create {n m : Nat} {h : n ≤ m} :
    Bitmap.get (OwnedBits.create n m h).bytes j = false :=
  Bitmap.get_replicate

end OwnedBits

namespace SidecarArray

theorem slotIndex_slotAddress {s : SidecarArray} : s.slotIndex (s.slotAddress i) = i := by
  rw [slotIndex, slotAddress, Nat.add_sub_cancel_left, Nat.mul_div_cancel _ s.stride_pos]

@[simp] theorem bitGet_setSlot (s : SidecarArray) : (s.setSlot i o).bitGet j = s.bitGet j := rfl

theorem slot_setSlot {s : SidecarArray} (hi : i < s.count) :
    (s.setSlot i o).slot j = if j = i then o else s.slot j := by
  have hlength : i < s.slots.length := by
    rw [s.slots_length]
    exact hi
  simp only [slot, setSlot, List.getElem?_set, hlength, if_true]
  by_cases hji : j = i
  · rw [if_pos hji, if_pos hji.symm]
    rfl
  · rw [if_neg hji, if_neg (Ne.symm hji)]

@[simp] theorem count_bitPut {s : SidecarArray} : (s.bitPut calloc i v).count = s.count := by
  unfold bitPut
  split
  · split <;> rfl
  · split <;> rfl

@[simp] theorem slot_bitPut {s : SidecarArray} : (s.bitPut calloc i v).slot = s.slot := by
  unfold bitPut
  split
  · split <;> rfl
  · split <;> rfl

theorem bitGet_bitPut {s : SidecarArray} (hi : i < s.count) :
    (s.bitPut calloc i v).bitGet j =
      if j = i then v && (s.ownedBits.isSome || calloc) else s.bitGet j := by
  unfold bitPut
  cases hbits : s.ownedBits with
  | some b =>
    have hcap : i < b.cap := Nat.lt_of_lt_of_le hi b.le_cap
    dsimp only
    rw [if_pos hcap]
    simp only [bitGet, hbits, Option.any_some, OwnedBits.get_put hcap, OwnedBits.cap_put,
      Option.isSome_some, Bool.true_or, Bool.and_true]
    by_cases hji : j = i
    · simp [hji, hcap]
    · simp only [hji, if_false]
      rfl
  | none =>
    dsimp only
    split
    · rename_i hv
      rw [Bool.and_eq_true] at hv
      have hcap : i < (OwnedBits.create (countMasked s.word)
          (max (countMasked s.word) (i + 1)) (Nat.le_max_left ..)).cap :=
        Nat.lt_of_lt_of_le (Nat.lt_succ_self i) (Nat.le_max_right ..)
      simp only [bitGet, hbits, Option.any_some, OwnedBits.get_put hcap, OwnedBits.cap_put,
        OwnedBits.get_create, Option.any_none, Option.isSome_none, Bool.false_or]
      by_cases hji : j = i
      · simp only [hji, if_true, hv.1, hv.2, Bool.and_true, decide_eq_true_eq]
        exact hcap
      · simp [hji]
    · rename_i hv
      simp only [bitGet, hbits, Option.any_none, Option.isSome_none, Bool.false_or]
      split
      · simpa using hv
      · rfl

/-- The object that a slot owns. -/
def holds (s : SidecarArray) (i : Nat) : Option Nat := if s.bitGet i then s.slot i else none

theorem holds_update {s : SidecarArray} (hi : i < s.count) :
    ((s.bitPut calloc i v).setSlot i o).holds =
      Function.update s.holds i (if v && (s.ownedBits.isSome || calloc) then o else none) := by
  funext j
  rw [Function.update_apply, holds, bitGet_setSlot, bitGet_bitPut hi,
    slot_setSlot (by rw [count_bitPut]; exact hi), slot_bitPut]
  by_cases hji : j = i
  · simp only [hji, if_true]
  · simp only [hji, if_false, holds]

theorem ownedBits_of_holds {s : SidecarArray} (h : s.holds i = some x) : s.ownedBits.isSome := by
  unfold holds bitGet at h
  cases hbits : s.ownedBits with
  | none =>
    rw [hbits] at h
    cases h
  | some b => rfl

theorem elemSetOwned_spec {s : SidecarArray} (calloc : Bool) (hi : i < s.count) :
    (s.elemSetOwned calloc i obj).1.holds =
        Function.update s.holds i (if s.ownedBits.isSome || calloc then obj else none) ∧
      (s.elemSetOwned calloc i obj).2.map ElementDrop.obj =
        if s.holds i = obj then [] else (s.holds i).toList := by
  unfold elemSetOwned
  dsimp only
  rw [slotIndex_slotAddress, holds_update hi]
  refine ⟨by rw [Bool.true_and], ?_⟩
  unfold holds
  by_cases hbit : s.bitGet i = true
  · by_cases hsame : s.slot i = obj <;> simp [hbit, hsame]
  · simp [hbit]

theorem elemSetAlias_spec {s : SidecarArray} (calloc : Bool) (hi : i < s.count) :
    (s.elemSetAlias calloc i obj).1.holds =
        Function.update s.holds i (if s.holds i = obj then obj else none) ∧
      (s.elemSetAlias calloc i obj).2.map ElementDrop.obj =
        if s.holds i = obj then [] else (s.holds i).toList := by
  unfold elemSetAlias
  dsimp only
  rw [slotIndex_slotAddress, holds_update hi]
  refine ⟨?_, ?_⟩
  · congr 1
    by_cases hsame : s.slot i = obj
    · cases hobj : obj with
      | none => simp
      | some x =>
        cases hbit : s.bitGet i with
        | false => simp [holds, hbit]
        | true =>
          have hholds : s.holds i = some x := by simp [holds, hbit, hsame, hobj]
          simp [hholds, ownedBits_of_holds hholds, hsame, hobj]
    · by_cases hbit : s.bitGet i = true
      · simp [hsame, holds, hbit]
      · simp [hsame, holds, hbit]
  · unfold holds
    by_cases hbit : s.bitGet i = true
    · by_cases hsame : s.slot i = obj <;> simp [hbit, hsame]
    · simp [hbit]

theorem holds_bitPut_false {s : SidecarArray} (hi : i < s.count) :
    (s.bitPut calloc i false).holds = Function.update s.holds i none := by
  funext j
  rw [Function.update_apply, holds, bitGet_bitPut hi, slot_bitPut]
  by_cases hji : j = i
  · simp [hji]
  · simp only [hji, if_false, holds]

theorem elemTake_spec {s : SidecarArray} (hi : i < s.count) :
    (s.elemTake i).1.holds = Function.update s.holds i none ∧ (s.elemTake i).2 = s.holds i := by
  unfold elemTake
  dsimp only
  rw [slotIndex_slotAddress]
  cases hbit : s.bitGet i with
  | false =>
    have hnone : s.holds i = none := by simp [holds, hbit]
    exact ⟨(update_none hnone).symm, hnone.symm⟩
  | true =>
    cases hslot : s.slot i with
    | none =>
      have hnone : s.holds i = none := by simp [holds, hslot]
      exact ⟨(update_none hnone).symm, hnone.symm⟩
    | some x => exact ⟨holds_bitPut_false hi, by simp [holds, hbit, hslot]⟩

theorem ownedDrop_spec {s : SidecarArray} :
    (s.ownedDrop true).2.map ElementDrop.obj = (List.range s.count).filterMap s.holds := by
  unfold ownedDrop
  cases hbits : s.ownedBits with
  | none =>
    have hnone : ∀ i, s.holds i = none := fun i => by simp [holds, bitGet, hbits]
    simp [hnone]
  | some b =>
    have hmin : min s.count b.cap = s.count := Nat.min_eq_left b.le_cap
    dsimp only
    rw [if_pos rfl, hmin, List.map_flatMap, List.filterMap_eq_flatMap_toList]
    refine List.flatMap_congr fun i hi => ?_
    have hcap : i < b.cap := Nat.lt_of_lt_of_le (List.mem_range.mp hi) b.le_cap
    unfold holds bitGet
    rw [hbits]
    simp only [Option.any_some, hcap, decide_true, Bool.true_and]
    split <;> simp

end SidecarArray

/-! ## Either kind of array -/

namespace ElementArray

theorem slot_lt {a : ElementArray} (h : a.slot i = some x) : i < a.count := by
  have hlt {slots : List (Option Nat)} (h : slots[i]?.join = some x) : i < slots.length := by
    by_contra hge
    rw [List.getElem?_eq_none (Nat.not_lt.mp hge)] at h
    cases h
  cases a with
  | sidecar s =>
    have hi := hlt h
    rwa [s.slots_length] at hi
  | tail t | arrelem k t =>
    have hi := hlt h
    rwa [t.slots_length] at hi

theorem slot_of_holds {a : ElementArray} (h : a.holds i = some x) :
    a.bit i = true ∧ a.slot i = some x := by
  unfold holds at h
  split at h
  · exact ⟨‹_›, h⟩
  · cases h

theorem holds_lt {a : ElementArray} (h : a.holds i = some x) : i < a.count :=
  slot_lt (slot_of_holds h).2

theorem records_of_holds {a : ElementArray} (h : a.holds i = some x) : a.records calloc = true := by
  cases a with
  | sidecar s => simp [records, SidecarArray.ownedBits_of_holds h]
  | tail t | arrelem k t => rfl

theorem ownedWord_lsb : (ownedWord owned).getLsbD 0 = owned := by
  cases owned <;> rfl

theorem holds_store {a : ElementArray} (obj : Option Nat) (owned calloc : Bool)
    (hi : i < a.count) :
    (a.store i obj owned calloc).1.holds =
      Function.update a.holds i
        (if owned then if a.records calloc then obj else none
        else if a.holds i = obj then obj else none) := by
  cases a with
  | sidecar s =>
    cases owned with
    | true => exact (SidecarArray.elemSetOwned_spec calloc hi).1
    | false => exact (SidecarArray.elemSetAlias_spec calloc hi).1
  | tail t =>
    have h := TailArray.holds_storeWith .virtualDrop obj (ownedWord owned) hi
    rw [ownedWord_lsb] at h
    exact h
  | arrelem k t =>
    have h := TailArray.holds_storeWith (TailArray.arrelemRelease k) obj (ownedWord owned) hi
    rw [ownedWord_lsb] at h
    exact h

theorem dropped_store {a : ElementArray} (obj : Option Nat) (owned calloc : Bool)
    (hi : i < a.count) :
    (a.store i obj owned calloc).2.map ElementDrop.obj =
      if a.holds i = obj then [] else (a.holds i).toList := by
  cases a with
  | sidecar s =>
    cases owned with
    | true => exact (SidecarArray.elemSetOwned_spec calloc hi).2
    | false => exact (SidecarArray.elemSetAlias_spec calloc hi).2
  | tail t => exact TailArray.dropped_storeWith hi
  | arrelem k t => exact TailArray.dropped_storeWith hi

theorem take_spec {a : ElementArray} (hi : i < a.count) :
    (a.take i).1.holds = Function.update a.holds i none ∧ (a.take i).2 = a.holds i := by
  have htail {t : TailArray} (hi : i < t.count) : (t.elemTakeFlag i).1.holds =
      Function.update t.holds i none ∧
        (if (t.elemTakeFlag i).2 then t.slot i else none) = t.holds i := by
    unfold TailArray.elemTakeFlag
    rw [if_neg (Nat.not_le.mpr hi)]
    exact ⟨TailArray.holds_setBit_false hi, rfl⟩
  cases a with
  | sidecar s => exact SidecarArray.elemTake_spec hi
  | tail t => exact htail hi
  | arrelem k t => exact htail hi

theorem dropOne_spec {a : ElementArray} (hi : i < a.count) (h : a.dropOne i = some result) :
    result.1.holds = Function.update a.holds i none ∧
      result.2.map ElementDrop.obj = (a.holds i).toList := by
  cases a with
  | sidecar s => cases h
  | tail t =>
    cases h
    exact TailArray.dropOneWith_spec hi
  | arrelem k t =>
    cases h
    exact TailArray.dropOneWith_spec hi

theorem dropped_teardown {a : ElementArray} :
    a.teardown.2.map ElementDrop.obj = (List.range a.count).filterMap a.holds := by
  have htail {how : Release} {t : TailArray} :
      (t.dropWalkFrom how 0 t.count).2.map ElementDrop.obj =
        (List.range t.count).filterMap t.holds := by
    rw [List.range_eq_range']
    exact TailArray.dropWalkFrom_spec (by omega)
  cases a with
  | sidecar s => exact SidecarArray.ownedDrop_spec
  | tail t => exact htail
  | arrelem k t => exact htail

theorem Fresh.holds_eq {a : ElementArray} (h : Fresh a) : a.holds = fun _ => none := by
  funext i
  unfold holds
  cases h with
  | sidecar => rfl
  | tail =>
    have hbit {word : BitVec 64} : (TailArray.create word).bit i = false := Bitmap.get_replicate
    simp [bit, hbit]
  | arrelem =>
    have hbit {word : BitVec 64} : (TailArray.create word).bit i = false := Bitmap.get_replicate
    simp [bit, hbit]

end ElementArray

/-! ## Runs -/

namespace ElementRun

theorem exact_displaced {s : ElementRun} (owned calloc : Bool)
    (h : Exact s.array.holds s.titles) (hi : i < s.array.count) (hne : s.array.holds i ≠ obj) :
    Exact (Function.update s.array.holds i none)
      (s.titles.dropAll ((s.array.store i obj owned calloc).2.map ElementDrop.obj)) := by
  rw [ElementArray.dropped_store obj owned calloc hi, if_neg hne]
  exact h.drop_slot i

theorem store_same {s : ElementRun} (owned calloc : Bool) (hi : i < s.array.count)
    (hsame : s.array.holds i = obj) (h : Exact s.array.holds s.titles) :
    (s.store i obj owned calloc).titles = s.titles ∧
      (s.store i obj owned calloc).array.holds = s.array.holds := by
  have hdropped := ElementArray.dropped_store obj owned calloc hi
  have hholds := ElementArray.holds_store obj owned calloc hi
  rw [if_pos hsame] at hdropped
  have htitles : (s.dropped (s.array.store i obj owned calloc).1
      (s.array.store i obj owned calloc).2).titles = s.titles := by
    rw [dropped, hdropped]
    rfl
  cases obj with
  | none =>
    have hnone : (s.array.store i none owned calloc).1.holds = s.array.holds := by
      rw [hholds, hsame]
      simp only [ite_self, update_none hsame]
    cases owned <;> exact ⟨htitles, hnone⟩
  | some x =>
    have hrecords : s.array.records calloc = true := ElementArray.records_of_holds hsame
    have hkept : (s.array.store i (some x) owned calloc).1.holds = s.array.holds := by
      rw [hholds, hsame, hrecords]
      simp only [if_true, ite_self]
      rw [← hsame, Function.update_eq_self]
    cases owned with
    | false => exact ⟨htitles, hkept⟩
    | true =>
      refine ⟨?_, hkept⟩
      have hplace := h.held.mp hsame
      simp only [store, if_true, received, hrecords, htitles]
      exact Ledger.move_self hplace

theorem exact_store {s : ElementRun} (h : Exact s.array.holds s.titles) (hi : i < s.array.count)
    (hguard : owned = true → ∀ x, obj = some x →
      s.titles.place x = .outside ∨ s.titles.place x = .held i) :
    Exact (s.store i obj owned calloc).array.holds (s.store i obj owned calloc).titles := by
  by_cases hsame : s.array.holds i = obj
  · obtain ⟨htitles, hholds⟩ := store_same owned calloc hi hsame h
    rw [htitles, hholds]
    exact h
  have hdisplaced := exact_displaced owned calloc h hi hsame
  have hholds := ElementArray.holds_store obj owned calloc hi
  have hdropped := ElementArray.dropped_store obj owned calloc hi
  rw [if_neg hsame] at hholds hdropped
  cases owned with
  | false =>
    simp only [Bool.false_eq_true, if_false] at hholds
    rw [← hholds] at hdisplaced
    exact hdisplaced
  | true =>
    simp only [if_true] at hholds
    cases obj with
    | none =>
      rw [ite_self] at hholds
      rw [← hholds] at hdisplaced
      exact hdisplaced
    | some x =>
      have hout : s.titles.place x = .outside :=
        (hguard rfl x rfl).resolve_right fun hheld => hsame (h.held.mpr hheld)
      have hfresh : x ∉ (s.array.holds i).toList := by
        rw [Option.mem_toList]
        exact hsame
      have hplace : (s.titles.dropAll
          ((s.array.store i (some x) true calloc).2.map ElementDrop.obj)).place x = .outside := by
        rw [hdropped, Ledger.place_dropAll, if_neg hfresh, hout]
      cases hrecords : s.array.records calloc with
      | true =>
        have hreceived := hdisplaced.receive (i := i) (by simp) hplace
        rw [Function.update_idem] at hreceived
        rw [hrecords, if_pos rfl] at hholds
        rw [← hholds] at hreceived
        simp only [store, if_true, received, hrecords]
        exact hreceived
      | false =>
        have hlost := hdisplaced.lose hplace
        rw [hrecords, if_neg (by simp)] at hholds
        rw [← hholds] at hlost
        simp only [store, if_true, received, hrecords]
        exact hlost

theorem exact_take {s : ElementRun} (h : Exact s.array.holds s.titles) (hi : i < s.array.count) :
    Exact (s.take i).array.holds (s.take i).titles := by
  obtain ⟨hholds, htaken⟩ := ElementArray.take_spec hi
  unfold take
  dsimp only
  rw [htaken]
  cases hslot : s.array.holds i with
  | none =>
    dsimp only
    rw [hholds, update_none hslot]
    exact h
  | some x =>
    dsimp only
    rw [hholds]
    exact h.take hslot

theorem exact_dropOne {s : ElementRun} (h : Exact s.array.holds s.titles)
    (hi : i < s.array.count) (hresult : s.array.dropOne i = some result) :
    Exact (s.dropped result.1 result.2).array.holds (s.dropped result.1 result.2).titles := by
  obtain ⟨hholds, hdropped⟩ := ElementArray.dropOne_spec hi hresult
  simp only [dropped]
  rw [hholds, hdropped]
  exact h.drop_slot i

theorem exact_step {s s' : ElementRun} (hstep : Step s a s')
    (h : Exact s.array.holds s.titles) : Exact s'.array.holds s'.titles := by
  cases hstep with
  | store i obj owned calloc hi hguard => exact exact_store h hi hguard
  | take i hi => exact exact_take h hi
  | dropOne i hi hresult => exact exact_dropOne h hi hresult

theorem exact_start {a : ElementArray} (h : a.Fresh) :
    Exact (start a).array.holds (start a).titles := by
  simp only [start]
  rw [h.holds_eq]
  exact .initial

theorem outside_step {s s' : ElementRun} (hstep : Step s a s')
    (h : Exact s.array.holds s.titles) (hx : s.titles.place x = .outside)
    (hhands : ¬ a.Hands x) : s'.titles.place x = .outside := by
  have hfree : ∀ i, x ∉ (s.array.holds i).toList := by
    intro i hmem
    rw [Option.mem_toList] at hmem
    rw [h.held.mp hmem] at hx
    cases hx
  cases hstep with
  | store i obj owned calloc hi _ =>
    have hdropped : (s.dropped (s.array.store i obj owned calloc).1
        (s.array.store i obj owned calloc).2).titles.place x = .outside := by
      rw [dropped, ElementArray.dropped_store obj owned calloc hi, Ledger.place_dropAll, if_neg, hx]
      split
      · exact List.not_mem_nil
      · exact hfree i
    cases owned with
    | false => exact hdropped
    | true =>
      cases obj with
      | none => exact hdropped
      | some y =>
        simp only [ElementRun.store, if_true, received]
        rw [Ledger.place_move, if_neg]
        · exact hdropped
        · rintro rfl
          exact hhands (.store ..)
  | take i hi =>
    unfold ElementRun.take
    dsimp only
    rw [(ElementArray.take_spec hi).2]
    cases hslot : s.array.holds i with
    | none => exact hx
    | some y =>
      dsimp only
      rw [Ledger.place_move]
      split
      · rfl
      · exact hx
  | dropOne i hi hresult =>
    rw [dropped, (ElementArray.dropOne_spec hi hresult).2, Ledger.place_dropAll,
      if_neg (hfree i), hx]

theorem recorded_step {s s' : ElementRun} (hstep : Step s a s') (hx : s.titles.place x ≠ .lost)
    (halloc : a.Allocates) : s'.titles.place x ≠ .lost := by
  have hdropAll (xs : List Nat) : (s.titles.dropAll xs).place x ≠ .lost := by
    rw [Ledger.place_dropAll]
    split
    · simp
    · exact hx
  cases hstep with
  | store i obj owned calloc hi _ =>
    cases owned with
    | false => exact hdropAll _
    | true =>
      cases obj with
      | none => exact hdropAll _
      | some y =>
        cases halloc
        have hrecords : s.array.records true = true := by
          cases s.array with
          | sidecar t => exact Bool.or_true _
          | tail t | arrelem k t => rfl
        simp only [ElementRun.store, if_true, received, hrecords, Ledger.place_move]
        split
        · simp
        · exact hdropAll _
  | take i hi =>
    unfold ElementRun.take
    dsimp only
    cases (s.array.take i).2 with
    | none => exact hx
    | some y =>
      dsimp only
      rw [Ledger.place_move]
      split
      · simp
      · exact hx
  | dropOne i hi hresult => exact hdropAll _

theorem teardown_place {s : ElementRun} (h : Exact s.array.holds s.titles) :
    (s.teardown.titles.place x = .dropped ∧ ∃ i, s.titles.place x = .held i) ∨
      (s.teardown.titles.place x = s.titles.place x ∧ ∀ i, s.titles.place x ≠ .held i) := by
  have hmem : x ∈ (List.range s.array.count).filterMap s.array.holds ↔
      ∃ i, s.titles.place x = .held i := by
    simp only [List.mem_filterMap, List.mem_range, ← h.held]
    constructor
    · rintro ⟨i, _, hi⟩
      exact ⟨i, hi⟩
    · rintro ⟨i, hi⟩
      exact ⟨i, ElementArray.holds_lt hi, hi⟩
  rw [teardown, dropped, ElementArray.dropped_teardown, Ledger.place_dropAll]
  by_cases hheld : ∃ i, s.titles.place x = .held i
  · rw [if_pos (hmem.mpr hheld)]
    exact .inl ⟨rfl, hheld⟩
  · rw [if_neg (mt hmem.mp hheld)]
    exact .inr ⟨rfl, not_exists.mp hheld⟩

theorem teardown_drops {s : ElementRun} (h : Exact s.array.holds s.titles) :
    s.teardown.titles.drops x = if s.teardown.titles.place x = .dropped then 1 else 0 := by
  have hall := h.dropAll (List.range s.array.count) List.nodup_range
  rw [← ElementArray.dropped_teardown] at hall
  exact hall.drops x

theorem exact_run {s s' : ElementRun} (h : Steps Step s actions s')
    (hs : Exact s.array.holds s.titles) : Exact s'.array.holds s'.titles :=
  h.preserves (P := fun s => Exact s.array.holds s.titles) (fun _ _ _ hstep => exact_step hstep) hs

theorem outside_run {s s' : ElementRun} (h : Steps Step s actions s')
    (hs : Exact s.array.holds s.titles) (hx : s.titles.place x = .outside)
    (hhands : ∀ a ∈ actions, ¬ a.Hands x) : s'.titles.place x = .outside := by
  induction h with
  | nil => exact hx
  | cons hstep _ ih =>
    obtain ⟨hfirst, hrest⟩ := List.forall_mem_cons.mp hhands
    exact ih (exact_step hstep hs) (outside_step hstep hs hx hfirst) hrest

theorem recorded_run {s s' : ElementRun} (h : Steps Step s actions s')
    (hx : s.titles.place x ≠ .lost) (halloc : ∀ a ∈ actions, a.Allocates) :
    s'.titles.place x ≠ .lost := by
  induction h with
  | nil => exact hx
  | cons hstep _ ih =>
    obtain ⟨hfirst, hrest⟩ := List.forall_mem_cons.mp halloc
    exact ih (recorded_step hstep hx hfirst) hrest

structure Kept (actions : List ElementAction) (s : ElementRun) : Prop where
  drops : ∀ x, s.titles.drops x = if s.titles.place x = .dropped then 1 else 0
  bit : ∀ {i x}, s.array.slot i = some x → (s.array.bit i = true ↔ s.titles.place x = .held i)
  self : ∀ {i x} (owned calloc : Bool), s.titles.place x = .held i →
    (s.store i (some x) owned calloc).titles = s.titles
  received : ∀ {x}, s.titles.place x = .dropped ∨ (∃ i, s.titles.place x = .held i) →
    s.teardown.titles.drops x = 1
  gone : ∀ {x}, s.titles.place x = .outside ∨ s.titles.place x = .lost →
    s.teardown.titles.drops x = 0
  borrowed : ∀ {x}, (∀ a ∈ actions, ¬ a.Hands x) → s.titles.place x = .outside
  recorded : (∀ a ∈ actions, a.Allocates) → ∀ x, s.titles.place x ≠ .lost

/-- Every title that the array received and recorded is dropped once, unless it is taken out. -/
theorem titles_kept (hfresh : a.Fresh) (h : Steps Step (start a) actions s) : Kept actions s := by
  have hexact := exact_run h (exact_start hfresh)
  refine ⟨hexact.drops, ?_, ?_, ?_, ?_, ?_, ?_⟩
  · intro i x hslot
    rw [← hexact.held, ElementArray.holds, hslot]
    simp
  · intro i x owned calloc hplace
    have hholds := hexact.held.mpr hplace
    exact (store_same owned calloc (ElementArray.holds_lt hholds) hholds hexact).1
  · intro x hplace
    have hdropped : s.teardown.titles.place x = .dropped := by
      rcases teardown_place hexact with ⟨hdropped, _⟩ | ⟨hsame, hnone⟩
      · exact hdropped
      · rw [hsame]
        exact hplace.resolve_right fun ⟨i, hi⟩ => hnone i hi
    rw [teardown_drops hexact, if_pos hdropped]
  · intro x hplace
    rw [teardown_drops hexact, if_neg]
    rcases teardown_place hexact with ⟨_, i, hheld⟩ | ⟨hsame, _⟩
    · rcases hplace with hplace | hplace <;> (rw [hplace] at hheld; cases hheld)
    · rw [hsame]
      rcases hplace with hplace | hplace <;> simp [hplace]
  · intro x hhands
    exact outside_run h (exact_start hfresh) rfl hhands
  · intro halloc x
    exact recorded_run h (by simp [start, Ledger.initial]) halloc

/-- Two slots with a tail bitmap: object 7 is stored with its title, and lent to the other slot. -/
def lent : ElementRun :=
  ((start (.tail (.create 2))).store 0 (some 7) true true).store 1 (some 7) false true

theorem steps_lent :
    Steps Step (start (.tail (.create 2)))
      [.store 0 (some 7) true true, .store 1 (some 7) false true] lent := by
  refine .cons (.store 0 (some 7) true true (by decide) ?_)
    (.cons (.store 1 (some 7) false true (by decide) ?_) .nil)
  · exact fun _ _ _ => .inl rfl
  · exact fun h => (by cases h)

theorem titles_kept_lent :
    (ElementArray.tail (.create 2)).Fresh ∧
      Kept [.store 0 (some 7) true true, .store 1 (some 7) false true] lent :=
  ⟨.tail, titles_kept .tail steps_lent⟩

/-- The array holds the title of the lent object, but not through the slot it is lent to. -/
theorem lent_bit_clear :
    ¬ ∀ (a : ElementArray) (actions : List ElementAction) (s : ElementRun), a.Fresh →
      Steps Step (start a) actions s → ∀ i x, s.array.slot i = some x →
        (s.array.bit i = true ↔ ∃ j, s.titles.place x = .held j) := by
  intro hall
  have hbit := (hall _ _ lent .tail steps_lent 1 7 (by decide)).mpr ⟨0, by decide⟩
  revert hbit
  decide

end ElementRun

end Cajeta.Memory
