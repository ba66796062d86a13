import Cajeta.Collection.HashMap

/-!
# What the probe loops find

Each loop visits the groups of one probe in order and goes past a group only if it holds no
`EMPTY`. A table with an `EMPTY` therefore ends every loop within its fuel, and what the loop saw
decides about the whole table, since every key lies on its own probe before the first `EMPTY`.
-/

namespace Cajeta.Collection.HashMap
variable {K V : Type} {m : HashMap K V}

/-- No group before `t` on the probe for `h` holds an `EMPTY`. -/
def NoEmptyBefore (m : HashMap K V) (h : UInt64) (t : Nat) : Prop :=
  ∀ t' < t, ∀ j < 16, m.ctrlAt (m.probeSlot h t' j) ≠ emptyCtrl

theorem noEmptyBefore_zero : m.NoEmptyBefore h 0 := nofun

theorem NoEmptyBefore.succ (h₀ : m.NoEmptyBefore h t)
    (hgroup : ∀ j < 16, m.ctrlAt (m.probeSlot h t j) ≠ emptyCtrl) : m.NoEmptyBefore h (t + 1) := by
  intro t' ht'
  rcases Nat.lt_succ_iff_lt_or_eq.mp ht' with hlt | rfl
  · exact h₀ t' hlt
  · exact hgroup

theorem NoEmptyBefore.lt (hm : Shaped m) (hE : ∃ i < m.cap, m.ctrlAt i = emptyCtrl)
    (h₀ : m.NoEmptyBefore h t) : t < m.cap := by
  obtain ⟨i, hi, hempty⟩ := hE
  obtain ⟨T, hT, j, hj, rfl⟩ := hm.exists_group hi h
  by_contra hge
  exact h₀ T (by omega) j hj hempty

theorem NoEmptyBefore.onChain (h₀ : m.NoEmptyBefore h t) (hj : j < 16) :
    m.OnChain h (m.probeSlot h t j) := ⟨t, j, hj, rfl, h₀⟩

theorem freeIn_some [Inhabited K] [Inhabited V] (hm : Shaped m) (h₀ : m.NoEmptyBefore h t)
    (hfree : m.freeIn (Probe.pos m.cap 16 h.toNat t) = some i) : Vacant m h i := by
  simp only [freeIn, ne_eq, eqMask, BitMask.ofPred_or] at hfree
  split at hfree
  · next hne =>
    cases hfree
    obtain ⟨hlt, hbyte⟩ := BitMask.ctz_ofPred hne
    rw [hm.and_mask, ctz64]
    generalize BitMask.ctz 16 _ = j at hlt hbyte
    rw [hm.vload16 hlt] at hbyte
    refine ⟨Nat.mod_lt _ hm.cap_pos, ?_, h₀.onChain hlt⟩
    rcases Bool.or_eq_true_iff.mp hbyte with hb | hb
    · rw [eq_of_beq hb]; rfl
    · rw [eq_of_beq hb]; rfl
  · cases hfree

theorem freeIn_isSome [Inhabited K] [Inhabited V]
    (hempty : eqMask (vload16 m.ctrl pos) emptyCtrl ≠ 0) : ∃ i, m.freeIn pos = some i := by
  unfold freeIn
  refine ⟨_, if_pos fun hzero => hempty ?_⟩
  exact (Nat.or_eq_zero_iff.mp hzero).1

theorem placeLoop_spec [Inhabited K] [Inhabited V] (hm : Shaped m)
    (hE : ∃ i < m.cap, m.ctrlAt i = emptyCtrl) (h₀ : m.NoEmptyBefore h t)
    (hfuel : m.cap ≤ fuel + t) :
    ∃ i, m.placeLoop fuel (Probe.pos m.cap 16 h.toNat t) (16 * t) = some i ∧ Vacant m h i ∧
      m.ctrlAt i = emptyCtrl := by
  induction fuel generalizing t with
  | zero =>
    have := h₀.lt hm hE
    omega
  | succ fuel ih =>
    simp only [placeLoop]
    split
    · next hne =>
      obtain ⟨hlt, hbyte⟩ := BitMask.ctz_ofPred hne
      rw [hm.vload16 hlt, beq_iff_eq] at hbyte
      rw [hm.and_mask]
      refine ⟨_, rfl, ⟨Nat.mod_lt _ hm.cap_pos, ?_, h₀.onChain hlt⟩, hbyte⟩
      exact congrArg isFull hbyte
    · next hzero =>
      rw [hm.step h t]
      exact ih (h₀.succ ((eqMask_eq_zero hm).mp (not_not.mp hzero))) (by omega)

/-! ## Keys -/

section Keys
variable [Inhabited K] [Inhabited V] [BEq K]

/-- No full slot in a group before `t` on the probe for `key` holds `key`. -/
def NoMatchBefore [Hashable K] (m : HashMap K V) (key : K) (t : Nat) : Prop :=
  ∀ t' < t, ∀ j < 16, isFull (m.ctrlAt (m.probeSlot (hash key) t' j)) = true →
    ((m.slot (m.probeSlot (hash key) t' j)).key == key) = false

section
variable [Hashable K]

theorem noMatchBefore_zero : m.NoMatchBefore key 0 := nofun

theorem NoMatchBefore.succ (h₀ : m.NoMatchBefore key t)
    (hgroup : ∀ j < 16, isFull (m.ctrlAt (m.probeSlot (hash key) t j)) = true →
      ((m.slot (m.probeSlot (hash key) t j)).key == key) = false) :
    m.NoMatchBefore key (t + 1) := by
  intro t' ht'
  rcases Nat.lt_succ_iff_lt_or_eq.mp ht' with hlt | rfl
  · exact h₀ t' hlt
  · exact hgroup

theorem matchIn_some (hm : Shaped m)
    (h : m.matchIn key (Probe.pos m.cap 16 (hash key).toNat t)
      (eqMask (vload16 m.ctrl (Probe.pos m.cap 16 (hash key).toNat t)) (h2Of (hash key))) =
        some i) : Holds m key i := by
  obtain ⟨j, hj, hbit, hkey⟩ := BitMask.findSome_eq_some BitMask.within_ofPred h
  rw [BitMask.testBit_ofPred, Bool.and_eq_true, hm.vload16 hj, beq_iff_eq] at hbit
  dsimp only at hkey
  rw [hm.and_mask] at hkey
  split at hkey
  · next hbeq =>
    cases hkey
    exact ⟨Nat.mod_lt _ hm.cap_pos, hbit.2 ▸ isFull_h2Of _, hbeq⟩
  · cases hkey

theorem matchIn_none [LawfulHashable K] (hm : WF m)
    (h : m.matchIn key (Probe.pos m.cap 16 (hash key).toNat t)
      (eqMask (vload16 m.ctrl (Probe.pos m.cap 16 (hash key).toNat t)) (h2Of (hash key))) =
        none) :
    ∀ j < 16, isFull (m.ctrlAt (m.probeSlot (hash key) t j)) = true →
      ((m.slot (m.probeSlot (hash key) t j)).key == key) = false := by
  intro j hj hfull
  by_contra hkey
  have hkey : ((m.slot (m.probeSlot (hash key) t j)).key == key) = true := by simpa using hkey
  -- The control byte of a full slot is its key's fragment, so the lane is in the mask.
  have hbyte : m.ctrlAt (m.probeSlot (hash key) t j) = h2Of (hash key) := by
    rcases hm.byte _ hm.probeSlot_lt with hb | hb | hb
    · rw [hb] at hfull; cases hfull
    · rw [hb] at hfull; cases hfull
    · rw [hb, LawfulHashable.hash_eq _ _ hkey]
  have hlane := BitMask.findSome_eq_none BitMask.within_ofPred h j (by
    rw [BitMask.testBit_ofPred, Bool.and_eq_true, hm.vload16 hj, beq_iff_eq]
    exact ⟨by simpa using hj, hbyte⟩)
  dsimp only at hlane
  rw [hm.and_mask, ← probeSlot, if_pos hkey] at hlane
  cases hlane

theorem NoMatchBefore.absent [EquivBEq K] [LawfulHashable K] (hm : WF m)
    (h₀ : m.NoMatchBefore key (t + 1)) (hj : j < 16)
    (hempty : m.ctrlAt (m.probeSlot (hash key) t j) = emptyCtrl) : Absent m key := by
  intro i hi hfull
  by_contra hkey
  have hkey : ((m.slot i).key == key) = true := by simpa using hkey
  obtain ⟨t', j', hj', hslot, hchain⟩ := hm.chain i hi hfull
  rw [LawfulHashable.hash_eq _ _ hkey] at hslot hchain
  have ht' : t' < t + 1 := by
    by_contra hge
    exact hchain t (by omega) j hj hempty
  have := h₀ t' ht' j' hj' (hslot ▸ hfull)
  rw [← hslot, hkey] at this
  cases this

theorem findSlotLoop_spec [EquivBEq K] [LawfulHashable K] (hm : WF m)
    (hE : ∃ i < m.cap, m.ctrlAt i = emptyCtrl) (h₀ : m.NoEmptyBefore (hash key) t)
    (hk : m.NoMatchBefore key t) (hfuel : m.cap ≤ fuel + t) :
    (∃ i, m.findSlotLoop key (h2Of (hash key)) fuel (Probe.pos m.cap 16 (hash key).toNat t)
        (16 * t) = some (some i) ∧ Holds m key i) ∨
      (m.findSlotLoop key (h2Of (hash key)) fuel (Probe.pos m.cap 16 (hash key).toNat t)
        (16 * t) = some none ∧ Absent m key) := by
  induction fuel generalizing t with
  | zero =>
    have := h₀.lt hm.toShaped hE
    omega
  | succ fuel ih =>
    simp only [findSlotLoop]
    split
    · next i hmatch => exact .inl ⟨i, rfl, matchIn_some hm.toShaped hmatch⟩
    next hmatch =>
    have hk' := hk.succ (matchIn_none hm hmatch)
    split
    · next hne =>
      obtain ⟨hlt, hbyte⟩ := BitMask.ctz_ofPred hne
      rw [hm.vload16 hlt, beq_iff_eq] at hbyte
      exact .inr ⟨rfl, hk'.absent hm hlt hbyte⟩
    · next hzero =>
      rw [hm.step (hash key) t]
      exact ih (h₀.succ ((eqMask_eq_zero hm.toShaped).mp (not_not.mp hzero))) hk' (by omega)

theorem findSlot_spec [EquivBEq K] [LawfulHashable K] (hm : Inv m) (key : K) :
    (∃ i, m.findSlot key = some (some i) ∧ Holds m key i) ∨
      (m.findSlot key = some none ∧ Absent m key) := by
  simp only [findSlot]
  rw [hm.start]
  exact findSlotLoop_spec hm.toWF hm.exists_EMPTY noEmptyBefore_zero noMatchBefore_zero
    (Nat.le_add_right _ 0)

theorem putLoop_spec [EquivBEq K] [LawfulHashable K] (hm : WF m)
    (hE : ∃ i < m.cap, m.ctrlAt i = emptyCtrl) (h₀ : m.NoEmptyBefore (hash key) t)
    (hk : m.NoMatchBefore key t) (hfuel : m.cap ≤ fuel + t)
    (hat : ∀ i, insertAt = some i → Vacant m (hash key) i) :
    (∃ i, m.putLoop key (h2Of (hash key)) fuel (Probe.pos m.cap 16 (hash key).toNat t) (16 * t)
        insertAt = some (.existing i) ∧ Holds m key i) ∨
      (∃ i, m.putLoop key (h2Of (hash key)) fuel (Probe.pos m.cap 16 (hash key).toNat t) (16 * t)
        insertAt = some (.vacant i) ∧ Vacant m (hash key) i ∧ Absent m key) := by
  induction fuel generalizing t insertAt with
  | zero =>
    have := h₀.lt hm.toShaped hE
    omega
  | succ fuel ih =>
    simp only [putLoop]
    split
    · next i hmatch => exact .inl ⟨i, rfl, matchIn_some hm.toShaped hmatch⟩
    next hmatch =>
    have hk' := hk.succ (matchIn_none hm hmatch)
    have hat' : ∀ i, (insertAt.orElse fun _ =>
        m.freeIn (Probe.pos m.cap 16 (hash key).toNat t)) = some i → Vacant m (hash key) i := by
      intro i hi
      cases insertAt with
      | some i' => exact hat i hi
      | none => exact freeIn_some hm.toShaped h₀ hi
    split
    · next hne =>
      obtain ⟨hlt, hbyte⟩ := BitMask.ctz_ofPred hne
      rw [hm.vload16 hlt, beq_iff_eq] at hbyte
      obtain ⟨i, hi⟩ : ∃ i, (insertAt.orElse fun _ =>
          m.freeIn (Probe.pos m.cap 16 (hash key).toNat t)) = some i := by
        cases insertAt with
        | some i' => exact ⟨i', rfl⟩
        | none => exact freeIn_isSome hne
      exact .inr ⟨i, by rw [hi]; rfl, hat' i hi, hk'.absent hm hlt hbyte⟩
    · next hzero =>
      rw [hm.step (hash key) t]
      exact ih (h₀.succ ((eqMask_eq_zero hm.toShaped).mp (not_not.mp hzero))) hk' (by omega) hat'

end

end Keys

/-!
## Updates of a `HashMap`

What storing, removing and rebuilding do to the control bytes and the slots, and that each of them
keeps the invariant.
-/

theorem getD_setIfInBounds (a : Array α) (i j : Nat) (x d : α) (hi : i < a.size) :
    (a.setIfInBounds i x).getD j d = if j = i then x else a.getD j d := by
  by_cases hj : j = i
  · subst hj
    simp [Array.getD, hi]
  · simp [Array.getD_eq_getD_getElem?, Array.getElem?_setIfInBounds_ne (Ne.symm hj), hj]

theorem ctrlAt_setCtrl (hm : Shaped m) (hi : i < m.cap) (j : Nat) :
    (m.setCtrl i b).ctrlAt j = if j = i ∨ (i < 16 ∧ j = m.cap + i) then b else m.ctrlAt j := by
  have hsize := hm.ctrl_size
  unfold ctrlAt setCtrl
  dsimp only
  split
  · next h16 =>
    rw [getD_setIfInBounds _ _ _ _ _ (by rw [Array.size_setIfInBounds]; omega),
      getD_setIfInBounds _ _ _ _ _ (by omega)]
    by_cases h₁ : j = m.cap + i
    · simp [h₁, h16]
    · simp [h₁]
  · next h16 =>
    rw [getD_setIfInBounds _ _ _ _ _ (by omega)]
    simp [h16]

@[simp] theorem cap_setCtrl : (m.setCtrl i b).cap = m.cap := rfl

theorem Shaped.setCtrl (hm : Shaped m) (hi : i < m.cap) : Shaped (m.setCtrl i b) where
  cap_pow := hm.cap_pow
  slots_size := hm.slots_size
  ctrl_size := by
    simp only [HashMap.setCtrl]
    split <;> simp [hm.ctrl_size]
  mirror j hj := by
    have h16 := hm.sixteen_le
    rw [cap_setCtrl, ctrlAt_setCtrl hm hi, ctrlAt_setCtrl hm hi, hm.mirror j hj]
    by_cases hij : j = i
    · subst hij; simp [hj]
    · have h₁ : ¬ (m.cap + j = i ∨ (i < 16 ∧ m.cap + j = m.cap + i)) := by omega
      have h₂ : ¬ (j = i ∨ (i < 16 ∧ j = m.cap + i)) := by omega
      rw [if_neg h₁, if_neg h₂]

theorem Shaped.setSlot (hm : Shaped m) (i : Nat) (e : MapEntry K V) :
    Shaped { m with slots := m.slots.setIfInBounds i e } :=
  { hm with slots_size := by simpa using hm.slots_size }

theorem Shaped.occupy (hm : Shaped m) (hi : i < m.cap) : Shaped (m.occupy i key v b) :=
  have h := (hm.setSlot i ⟨key, v⟩).setCtrl (b := b) hi
  ⟨h.cap_pow, h.slots_size, h.ctrl_size, h.mirror⟩

theorem ctrlAt_occupy (hm : Shaped m) (hi : i < m.cap) (hj : j < m.cap) :
    (m.occupy i key v b).ctrlAt j = if j = i then b else m.ctrlAt j := by
  refine (ctrlAt_setCtrl (hm.setSlot i ⟨key, v⟩) hi j).trans ?_
  have : ¬ (i < 16 ∧ j = m.cap + i) := by omega
  simp only [this, or_false]
  rfl

@[simp] theorem cap_occupy : (m.occupy i key v b).cap = m.cap := rfl
@[simp] theorem sizeCount_occupy : (m.occupy i key v b).sizeCount = m.sizeCount + 1 := rfl
theorem OnChain.mono {m' : HashMap K V} (hm : Shaped m) (hcap : m'.cap = m.cap)
    (hE : ∀ j < m.cap, m'.ctrlAt j = emptyCtrl → m.ctrlAt j = emptyCtrl) (hc : m.OnChain h i) :
    m'.OnChain h i := by
  obtain ⟨t, j, hj, rfl, hchain⟩ := hc
  have hslot : ∀ t j, m'.probeSlot h t j = m.probeSlot h t j := fun t j => by
    simp only [probeSlot, hcap]
  refine ⟨t, j, hj, (hslot t j).symm, fun t' ht' j hj hempty => ?_⟩
  rw [hslot] at hempty
  exact hchain t' ht' j hj (hE _ hm.probeSlot_lt hempty)

theorem tally_used_occupy (hm : Shaped m) (hv : Vacant m h i) :
    (m.occupy i key v (h2Of h)).tally (· != emptyCtrl) =
      if m.ctrlAt i = emptyCtrl then m.tally (· != emptyCtrl) + 1
      else m.tally (· != emptyCtrl) := by
  have hctrl {j} (hj : j < m.cap) : (m.occupy i key v (h2Of h)).ctrlAt j =
      if j = i then h2Of h else m.ctrlAt j := ctrlAt_occupy hm hv.lt hj
  have hne : h2Of h ≠ emptyCtrl := ne_EMPTY_of_isFull (isFull_h2Of h)
  split
  · next hempty =>
    have hsame : ∀ j < m.cap, j ≠ i → (m.occupy i key v (h2Of h)).ctrlAt j = m.ctrlAt j :=
      fun j hj hji => by rw [hctrl hj, if_neg hji]
    exact tally_succ rfl hv.lt hsame (by simp [hempty]) (by simp [hctrl hv.lt, hne])
  · next hfree =>
    refine tally_congr (p := (· != emptyCtrl)) rfl fun j hj => ?_
    rw [hctrl hj]
    split
    · next hji => rw [hji, bne_iff_ne.mpr hne, bne_iff_ne.mpr hfree]
    · rfl

section
variable [Inhabited K] [Inhabited V]

theorem slot_setSlot (hm : Shaped m) (hi : i < m.cap) (e : MapEntry K V) (j : Nat) :
    ({ m with slots := m.slots.setIfInBounds i e } : HashMap K V).slot j =
      if j = i then e else m.slot j :=
  getD_setIfInBounds _ _ _ _ _ (hm.slots_size ▸ hi)

theorem slot_occupy (hm : Shaped m) (hi : i < m.cap) (j : Nat) :
    (m.occupy i key v b).slot j = if j = i then ⟨key, v⟩ else m.slot j :=
  slot_setSlot hm hi ⟨key, v⟩ j

theorem slot_replace (hm : Shaped m) (hi : i < m.cap) (j : Nat) :
    (m.replace i value).slot j = if j = i then { m.slot i with val := value } else m.slot j :=
  slot_setSlot hm hi _ j

theorem key_replace (hm : Shaped m) (hi : i < m.cap) (j : Nat) :
    ((m.replace i value).slot j).key = (m.slot j).key := by
  rw [slot_replace hm hi]
  split
  · next h => rw [h]
  · rfl

theorem Shaped.bury (hm : Shaped m) (hi : i < m.cap) : Shaped (m.bury i) :=
  have h := (hm.setSlot i { m.slot i with key := default }).setCtrl (b := deletedCtrl) hi
  ⟨h.cap_pow, h.slots_size, h.ctrl_size, h.mirror⟩

theorem ctrlAt_bury (hm : Shaped m) (hi : i < m.cap) (hj : j < m.cap) :
    (m.bury i).ctrlAt j = if j = i then deletedCtrl else m.ctrlAt j := by
  refine (ctrlAt_setCtrl (hm.setSlot i { m.slot i with key := default }) hi j).trans ?_
  have : ¬ (i < 16 ∧ j = m.cap + i) := by omega
  simp only [this, or_false]
  rfl

theorem slot_bury (hm : Shaped m) (hi : i < m.cap) (hji : j ≠ i) :
    (m.bury i).slot j = m.slot j :=
  (slot_setSlot hm hi { m.slot i with key := default } j).trans (if_neg hji)

@[simp] theorem cap_bury : (m.bury i).cap = m.cap := rfl

end

section
variable [Inhabited K] [Inhabited V] [BEq K]

/-- The table binds `key` to `v`. -/
def Binds (m : HashMap K V) (key : K) (v : V) : Prop := ∃ i, Holds m key i ∧ (m.slot i).val = v

theorem Absent.not_binds (ha : Absent m key) : ¬ Binds m key v := by
  rintro ⟨i, ⟨hi, hf, hkey⟩, _⟩
  rw [ha i hi hf] at hkey
  cases hkey

theorem Holds.binds (hi : Holds m key i) : Binds m key (m.slot i).val := ⟨i, hi, rfl⟩

variable [Hashable K]

theorem Holds.unique [EquivBEq K] (hm : WF m) (hi : Holds m key i) (hj : Holds m key j) : i = j :=
  hm.unique i hi.lt j hj.lt hi.full hj.full (BEq.trans hi.beq (BEq.symm hj.beq))

/-! ## Storing -/

/-- A key that is nowhere in the table may be stored in a vacant slot of its probe. -/
theorem WF.occupy [EquivBEq K] [LawfulHashable K] (hm : WF m) (hv : Vacant m (hash key) i)
    (ha : Absent m key) : WF (m.occupy i key v (h2Of (hash key))) := by
  have hctrl {j} (hj : j < m.cap) : (m.occupy i key v (h2Of (hash key))).ctrlAt j =
      if j = i then h2Of (hash key) else m.ctrlAt j := ctrlAt_occupy hm.toShaped hv.lt hj
  have hslot (j) : (m.occupy i key v (h2Of (hash key))).slot j =
      if j = i then ⟨key, v⟩ else m.slot j := slot_occupy hm.toShaped hv.lt j
  have hself : (m.occupy i key v (h2Of (hash key))).ctrlAt i = h2Of (hash key) := by
    rw [hctrl hv.lt, if_pos rfl]
  have hE : ∀ j < m.cap, (m.occupy i key v (h2Of (hash key))).ctrlAt j = emptyCtrl →
      m.ctrlAt j = emptyCtrl := by
    intro j hj hempty
    rw [hctrl hj] at hempty
    split at hempty
    · exact absurd hempty (ne_EMPTY_of_isFull (isFull_h2Of _))
    · exact hempty
  refine ⟨hm.toShaped.occupy hv.lt, fun j hj => ?_, fun j₁ h₁ j₂ h₂ hf₁ hf₂ hkey => ?_,
    fun j hj hf => ?_, ?_⟩
  · rw [cap_occupy] at hj
    rw [hctrl hj, hslot]
    split
    · exact .inr (.inr rfl)
    · exact hm.byte j hj
  · rw [cap_occupy] at h₁ h₂
    rw [hctrl h₁] at hf₁
    rw [hctrl h₂] at hf₂
    rw [hslot, hslot] at hkey
    by_cases hi₁ : j₁ = i <;> by_cases hi₂ : j₂ = i
    · exact hi₁.trans hi₂.symm
    · simp only [hi₁, if_true, hi₂, if_false] at hf₂ hkey
      rw [ha j₂ h₂ hf₂ |> BEq.symm_false] at hkey
      cases hkey
    · simp only [hi₁, if_false, hi₂, if_true] at hf₁ hkey
      rw [ha j₁ h₁ hf₁] at hkey
      cases hkey
    · simp only [hi₁, if_false, hi₂] at hf₁ hf₂ hkey
      exact hm.unique j₁ h₁ j₂ h₂ hf₁ hf₂ hkey
  · rw [cap_occupy] at hj
    rw [hctrl hj] at hf
    rw [hslot]
    split at hf
    · next hji =>
      subst hji
      rw [if_pos rfl]
      exact hv.onChain.mono hm.toShaped rfl hE
    · next hji =>
      rw [if_neg hji]
      exact (hm.chain j hj hf).mono hm.toShaped rfl hE
  · have hsame : ∀ j < m.cap, j ≠ i →
        (m.occupy i key v (h2Of (hash key))).ctrlAt j = m.ctrlAt j := fun j hj hji => by
      rw [hctrl hj, if_neg hji]
    rw [sizeCount_occupy, hm.size]
    exact Eq.symm (tally_succ rfl hv.lt hsame hv.notFull (by rw [hself]; exact isFull_h2Of _))

theorem binds_occupy [EquivBEq K] (hm : WF m) (hv : Vacant m (hash key) i) (ha : Absent m key)
    (k : K) (v : V) :
    Binds (m.occupy i key value (h2Of (hash key))) k v ↔
      if key == k then v = value else Binds m k v := by
  have hctrl {j} (hj : j < m.cap) : (m.occupy i key value (h2Of (hash key))).ctrlAt j =
      if j = i then h2Of (hash key) else m.ctrlAt j := ctrlAt_occupy hm.toShaped hv.lt hj
  have hslot (j) : (m.occupy i key value (h2Of (hash key))).slot j =
      if j = i then ⟨key, value⟩ else m.slot j := slot_occupy hm.toShaped hv.lt j
  constructor
  · rintro ⟨j, ⟨hj, hf, hkey⟩, rfl⟩
    rw [cap_occupy] at hj
    rw [hctrl hj] at hf
    rw [hslot] at hkey ⊢
    split at hf
    · next hji =>
      rw [if_pos hji] at hkey ⊢
      rw [if_pos hkey]
    · next hji =>
      rw [if_neg hji] at hkey ⊢
      split
      · next hk =>
        have := ha j hj hf
        rw [BEq.trans hkey (BEq.symm hk)] at this
        cases this
      · exact ⟨j, ⟨hj, hf, hkey⟩, rfl⟩
  · split
    · next hk =>
      rintro rfl
      refine ⟨i, ⟨hv.lt, ?_, ?_⟩, ?_⟩
      · rw [hctrl hv.lt, if_pos rfl]; exact isFull_h2Of _
      · rw [hslot, if_pos rfl]; exact hk
      · rw [hslot, if_pos rfl]
    · rintro ⟨j, ⟨hj, hf, hkey⟩, rfl⟩
      have hji : j ≠ i := by
        rintro rfl
        rw [hv.notFull] at hf
        cases hf
      refine ⟨j, ⟨hj, ?_, ?_⟩, ?_⟩
      · rw [hctrl hj, if_neg hji]; exact hf
      · rw [hslot, if_neg hji]; exact hkey
      · rw [hslot, if_neg hji]

theorem Inv.replace (hm : Inv m) (hi : i < m.cap) : Inv (m.replace i value) where
  toShaped := hm.toShaped.setSlot i _
  byte j hj := by rw [key_replace hm.toShaped hi]; exact hm.byte j hj
  unique j₁ h₁ j₂ h₂ hf₁ hf₂ hkey := by
    rw [key_replace hm.toShaped hi, key_replace hm.toShaped hi] at hkey
    exact hm.unique j₁ h₁ j₂ h₂ hf₁ hf₂ hkey
  chain j hj hf := by rw [key_replace hm.toShaped hi]; exact hm.chain j hj hf
  size := hm.size
  used := hm.used
  load := hm.load

theorem binds_replace [EquivBEq K] (hm : WF m) (hi : Holds m key i) (k : K) (v : V) :
    Binds (m.replace i value) k v ↔ if key == k then v = value else Binds m k v := by
  have hslot (j) : (m.replace i value).slot j =
      if j = i then { m.slot i with val := value } else m.slot j := slot_replace hm.toShaped hi.lt j
  have hkeys (j) : ((m.replace i value).slot j).key = (m.slot j).key :=
    key_replace hm.toShaped hi.lt j
  constructor
  · rintro ⟨j, ⟨hj, hf, hkey⟩, rfl⟩
    rw [hkeys] at hkey
    by_cases hji : j = i
    · subst hji
      rw [if_pos (BEq.trans (BEq.symm hi.beq) hkey), hslot, if_pos rfl]
    · have hne : ¬ (key == k) = true := fun hk =>
        hji (Holds.unique hm ⟨hj, hf, BEq.trans hkey (BEq.symm hk)⟩ hi)
      rw [if_neg hne, hslot, if_neg hji]
      exact ⟨j, ⟨hj, hf, hkey⟩, rfl⟩
  · split
    · next hk =>
      rintro rfl
      exact ⟨i, ⟨hi.lt, hi.full, by rw [hkeys]; exact BEq.trans hi.beq hk⟩, by
        rw [hslot, if_pos rfl]⟩
    · next hk =>
      rintro ⟨j, ⟨hj, hf, hkey⟩, rfl⟩
      have hji : j ≠ i := by
        rintro rfl
        exact hk (BEq.trans (BEq.symm hi.beq) hkey)
      exact ⟨j, ⟨hj, hf, by rw [hkeys]; exact hkey⟩, by rw [hslot, if_neg hji]⟩

theorem Inv.bury (hm : Inv m) (hi : i < m.cap) (hfull : isFull (m.ctrlAt i) = true) :
    Inv (m.bury i) := by
  have hctrl {j} (hj : j < m.cap) := ctrlAt_bury hm.toShaped hi hj
  have hrest {j} (hj : j < m.cap) (hf : isFull ((m.bury i).ctrlAt j) = true) :
      j ≠ i ∧ isFull (m.ctrlAt j) = true := by
    rw [hctrl hj] at hf
    split at hf
    · cases hf
    · next hji => exact ⟨hji, hf⟩
  have hE : ∀ j < m.cap, (m.bury i).ctrlAt j = emptyCtrl → m.ctrlAt j = emptyCtrl := by
    intro j hj hempty
    rw [hctrl hj] at hempty
    split at hempty
    · exact absurd hempty DELETED_ne_EMPTY
    · exact hempty
  have hfewer : m.tally isFull = (m.bury i).tally isFull + 1 := by
    refine tally_succ (m := m.bury i) rfl hi (fun j hj hji => ?_) ?_ hfull
    · rw [hctrl hj, if_neg hji]
    · rw [hctrl hi, if_pos rfl]; rfl
  refine ⟨⟨hm.toShaped.bury hi, fun j hj => ?_, fun j₁ h₁ j₂ h₂ hf₁ hf₂ hkey => ?_,
    fun j hj hf => ?_, ?_⟩, ?_, hm.load⟩
  · rw [cap_bury] at hj
    by_cases hji : j = i
    · rw [hctrl hj, if_pos hji]; exact .inr (.inl rfl)
    · rw [hctrl hj, if_neg hji, slot_bury hm.toShaped hi hji]
      exact hm.byte j hj
  · obtain ⟨hji₁, hf₁⟩ := hrest h₁ hf₁
    obtain ⟨hji₂, hf₂⟩ := hrest h₂ hf₂
    rw [slot_bury hm.toShaped hi hji₁, slot_bury hm.toShaped hi hji₂] at hkey
    exact hm.unique j₁ h₁ j₂ h₂ hf₁ hf₂ hkey
  · obtain ⟨hji, hf⟩ := hrest hj hf
    rw [slot_bury hm.toShaped hi hji]
    exact (hm.chain j hj hf).mono hm.toShaped rfl hE
  · have hsize := hm.size
    change m.sizeCount - 1 = _
    omega
  · change m.usedSlots = _
    rw [hm.used]
    refine Eq.symm (tally_congr (m := m) (p := (· != emptyCtrl)) rfl fun j hj => ?_)
    rw [hctrl hj]
    split
    · next hji => rw [hji, bne_iff_ne.mpr DELETED_ne_EMPTY,
        bne_iff_ne.mpr (ne_EMPTY_of_isFull hfull)]
    · rfl

theorem binds_bury [EquivBEq K] (hm : WF m) (hi : Holds m key i) (k : K) (v : V) :
    Binds (m.bury i) k v ↔ (key == k) = false ∧ Binds m k v := by
  have hctrl {j} (hj : j < m.cap) := ctrlAt_bury hm.toShaped hi.lt hj
  constructor
  · rintro ⟨j, ⟨hj, hf, hkey⟩, rfl⟩
    rw [cap_bury] at hj
    rw [hctrl hj] at hf
    split at hf
    · cases hf
    next hji =>
    rw [slot_bury hm.toShaped hi.lt hji] at hkey ⊢
    refine ⟨?_, j, ⟨hj, hf, hkey⟩, rfl⟩
    by_contra hk
    exact hji (Holds.unique hm ⟨hj, hf, BEq.trans hkey (BEq.symm (by simpa using hk))⟩ hi)
  · rintro ⟨hk, j, ⟨hj, hf, hkey⟩, rfl⟩
    have hji : j ≠ i := by
      rintro rfl
      rw [BEq.trans (BEq.symm hi.beq) hkey] at hk
      cases hk
    refine ⟨j, ⟨hj, ?_, ?_⟩, ?_⟩
    · rw [hctrl hj, if_neg hji]; exact hf
    · rw [slot_bury hm.toShaped hi.lt hji]; exact hkey
    · rw [slot_bury hm.toShaped hi.lt hji]

end
end Cajeta.Collection.HashMap
