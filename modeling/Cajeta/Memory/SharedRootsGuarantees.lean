import Cajeta.Memory.SharedRoots

/-!
# Stakes and frees

The count of a shared root is the number of values with a stake in it, as long as no slice without a
stake is copied or dropped over a counted root and the table grows when it has to.
-/

namespace Cajeta.Memory.SharedRoots

/-! ## One root -/

/-- A root on the heap with an owner or none (`o`) and `k` views that have a stake. -/
structure Root.Counts (root : Root) (o k : Nat) : Prop where
  owners : o ≤ 1
  shared : root.bit → root.stakes = if o + k = 0 then none else some (o + k)
  unshared : root.bit = false → root.stakes = none ∧ k = 0
  live : root.live = decide (o + k ≠ 0)
  freed : root.freed = if o + k = 0 then 1 else 0

namespace Root.Counts
variable {root : Root}

theorem fresh : (Root.fresh .heap).Counts 1 0 :=
  ⟨Nat.le_refl 1, fun h => (by cases h), fun _ => ⟨rfl, rfl⟩, rfl, rfl⟩

theorem freshView : ((Root.fresh .heap).promote true 1).Counts 0 1 :=
  ⟨Nat.zero_le 1, fun _ => rfl, fun h => (by cases h), rfl, rfl⟩

theorem stakes_eq (h : root.Counts o k) (hbit : root.bit) (hlive : o + k ≠ 0) :
    root.stakes = some (o + k) := by
  rw [h.shared hbit, if_neg hlive]

theorem stakes_of_some (h : root.Counts o k) (hs : root.stakes = some rc) :
    root.bit = true ∧ rc = o + k ∧ o + k ≠ 0 := by
  cases hb : root.bit with
  | false =>
    rw [(h.unshared hb).1] at hs
    cases hs
  | true =>
    have hshared := h.shared hb
    rw [hs] at hshared
    split at hshared
    · cases hshared
    · rename_i hne
      exact ⟨rfl, Option.some.inj hshared, hne⟩

theorem promote (h : root.Counts o k) (hlive : o + k ≠ 0) {grow : Bool}
    (hgrow : root.stakes = none → grow) :
    (root.promote grow 2).Counts o (k + 1) := by
  have hfreed := h.freed
  have hl := h.live
  rw [if_neg hlive] at hfreed
  rw [decide_eq_true hlive] at hl
  have hbit : (root.promote grow 2).bit = true ∧
      (root.promote grow 2).stakes = some (o + (k + 1)) := by
    unfold Root.promote
    cases hb : root.bit with
    | true =>
      rw [h.stakes_eq hb hlive]
      exact ⟨rfl, congrArg some (by omega)⟩
    | false =>
      obtain ⟨hnone, hk⟩ := h.unshared hb
      have ho := h.owners
      rw [hnone]
      refine ⟨rfl, ?_⟩
      show (if grow then some 2 else none) = _
      rw [if_pos (hgrow hnone)]
      exact congrArg some (by omega)
  have hsame : (root.promote grow 2).live = root.live ∧
      (root.promote grow 2).freed = root.freed := by
    unfold Root.promote
    split <;> exact ⟨rfl, rfl⟩
  refine ⟨h.owners, fun _ => ?_, fun hb => ?_, ?_, ?_⟩
  · rw [hbit.2, if_neg (by omega)]
  · rw [hbit.1] at hb
    cases hb
  · rw [hsame.1, hl, decide_eq_true (by omega)]
  · rw [hsame.2, hfreed, if_neg (by omega)]

theorem retain (h : root.Counts o k) (hbit : root.bit) (hlive : o + k ≠ 0) :
    root.retain.Counts o (k + 1) := by
  refine ⟨h.owners, fun _ => ?_, fun hb => ?_, ?_, ?_⟩
  · show root.stakes.map (· + 1) = _
    rw [h.stakes_eq hbit hlive, if_neg (by omega)]
    rfl
  · rw [show root.bit = false from hb] at hbit
    cases hbit
  · show root.live = _
    rw [h.live, decide_eq_true hlive, decide_eq_true (by omega)]
  · show root.freed = _
    rw [h.freed, if_neg hlive, if_neg (by omega)]

theorem release (h : root.Counts o k) (hbit : root.bit) (ho : o' ≤ 1)
    (hless : o' + k' + 1 = o + k) :
    root.release.Counts o' k' := by
  have hlive : o + k ≠ 0 := by omega
  have hl := h.live
  have hf := h.freed
  rw [decide_eq_true hlive] at hl
  rw [if_neg hlive] at hf
  unfold Root.release
  rw [h.stakes_eq hbit hlive]
  dsimp only
  by_cases hmore : 0 < o + k - 1
  · rw [if_pos hmore]
    refine ⟨ho, fun _ => ?_, fun hb => ?_, ?_, ?_⟩
    · show some (o + k - 1) = _
      rw [if_neg (by omega)]
      exact congrArg some (by omega)
    · rw [show root.bit = false from hb] at hbit
      cases hbit
    · exact hl.trans (decide_eq_true (by omega)).symm
    · exact hf.trans (if_neg (by omega)).symm
  · have hzero : o' + k' = 0 := by omega
    rw [if_neg hmore, Root.claimFree, if_pos hl]
    refine ⟨ho, fun _ => ?_, fun hb => ?_, ?_, ?_⟩
    · rw [if_pos hzero]
    · rw [show root.bit = false from hb] at hbit
      cases hbit
    · rw [hzero]
      rfl
    · show root.freed + 1 = _
      rw [hf, if_pos hzero]

theorem ownerDrop (h : root.Counts 1 k) : root.ownerDrop.Counts 0 k := by
  unfold Root.ownerDrop
  cases hb : root.bit with
  | true =>
    rw [if_pos rfl]
    exact h.release hb (Nat.zero_le 1) (by omega)
  | false =>
    obtain ⟨hnone, hk⟩ := h.unshared hb
    have hl : root.live = true := h.live.trans (decide_eq_true (by omega))
    have hf : root.freed = 0 := h.freed.trans (if_neg (by omega))
    rw [if_neg Bool.false_ne_true, Root.claimFree, if_pos hl, hk]
    refine ⟨Nat.zero_le 1, fun hbit => ?_, fun _ => ⟨hnone, rfl⟩, rfl, ?_⟩
    · rw [show root.bit = true from hbit] at hb
      cases hb
    · show root.freed + 1 = _
      rw [hf]
      rfl

theorem bit_of_view (h : root.Counts o (k + 1)) : root.bit := by
  cases hb : root.bit with
  | true => rfl
  | false => exact absurd (h.unshared hb).2 (Nat.succ_ne_zero k)

end Root.Counts

theorem Root.sliceRetain_of_none {root : Root} (h : root.stakes = none) :
    root.sliceRetain = root := by
  unfold Root.sliceRetain Root.retain
  split
  · cases root
    simp_all
  · rfl

theorem Root.sliceRelease_of_none {root : Root} (h : root.stakes = none) :
    root.sliceRelease = root := by
  unfold Root.sliceRelease Root.release
  rw [h]
  split <;> rfl

@[simp] theorem Root.promote_place : (Root.promote grow n root).place = root.place := by
  unfold Root.promote
  split <;> rfl

@[simp] theorem Root.retain_place : (Root.retain root).place = root.place := rfl

@[simp] theorem Root.claimFree_place : (Root.claimFree root).place = root.place := by
  unfold Root.claimFree
  split <;> rfl

@[simp] theorem Root.release_place : (Root.release root).place = root.place := by
  unfold Root.release
  split
  · rfl
  · split
    · rfl
    · rw [claimFree_place]

@[simp] theorem Root.ownerDrop_place : (Root.ownerDrop root).place = root.place := by
  unfold Root.ownerDrop
  split
  · rw [release_place]
  · rw [claimFree_place]

@[simp] theorem Root.sliceRetain_place : (Root.sliceRetain root).place = root.place := by
  unfold Root.sliceRetain
  split <;> rfl

@[simp] theorem Root.sliceRelease_place : (Root.sliceRelease root).place = root.place := by
  unfold Root.sliceRelease
  split
  · rw [release_place]
  · rfl

/-! ## The values over a root -/

def Value.root : Value → Option RootId
  | .array r => some r
  | .inline => none
  | .string _ _ r => some r
  | .slice r _ _ => some r

/-- What every value keeps: its root has been made, and a string that is tagged as a view with a
stake has no other tag. -/
structure Value.Fits (next : RootId) (v : Value) : Prop where
  root : ∀ r, v.root = some r → r < next
  tag : ∀ len tag r, v = .string len tag r → tag.shared → tag = .stake

theorem Value.root_of_owner {v : Value} (h : v.owner = some r) : v.root = some r := by
  cases v with
  | array => exact h
  | inline => cases h
  | string len tag q =>
    simp only [owner, Option.ite_none_right_eq_some] at h
    exact h.2
  | slice => cases h

theorem Value.root_of_stake {v : Value} (h : v.stake = some r) : v.root = some r := by
  cases v with
  | array => cases h
  | inline => cases h
  | string len tag q =>
    simp only [stake, Option.ite_none_right_eq_some] at h
    exact h.2
  | slice q len staked =>
    simp only [stake, Option.ite_none_right_eq_some] at h
    exact h.2

theorem Value.Fits.mono {v : Value} (h : v.Fits next) (hle : next ≤ next') : v.Fits next' :=
  ⟨fun r hr => Nat.lt_of_lt_of_le (h.root r hr) hle, h.tag⟩

theorem Value.Fits.slice (h : r < next) : (Value.slice r len staked).Fits next :=
  ⟨fun _ hq => Option.some.inj hq ▸ h, fun _ _ _ hv => (by cases hv)⟩

theorem Value.Fits.string {tag : StringTag} (h : r < next) (htag : tag.shared → tag = .stake) :
    (Value.string len tag r).Fits next := by
  refine ⟨fun _ hq => Option.some.inj hq ▸ h, ?_⟩
  rintro _ _ _ ⟨⟩
  exact htag

namespace Heap
variable {m : Heap}

/-- Every root on the heap counts its holders, and is freed once the last one is dropped. -/
def Accounted (m : Heap) : Prop :=
  ∀ r < m.next, (m.roots r).place = .heap → (m.roots r).Counts (m.owners r) (m.views r)

/-- What every action keeps. -/
structure Sound (m : Heap) : Prop where
  fits : ∀ v, some v ∈ m.values → v.Fits m.next
  counts : m.Accounted

theorem sound_initial : initial.Sound :=
  ⟨fun _ h => (by cases h), fun _ h => (by cases h)⟩

theorem mem_of_value (h : m.value i = some v) : some v ∈ m.values :=
  List.mem_of_getElem? (Option.join_eq_some_iff.mp h)

theorem owners_push : (m.push v).owners r = m.owners r + if v.owner = some r then 1 else 0 := by
  simp [owners, push, List.countP_append, List.countP_cons]

theorem views_push : (m.push v).views r = m.views r + if v.stake = some r then 1 else 0 := by
  simp [views, push, List.countP_append, List.countP_cons]

theorem Sound.change (h : m.Sound) (hplace : (f (m.roots r)).place = (m.roots r).place)
    (hfits : ∀ v, some v ∈ l → v.Fits m.next)
    (howners : ∀ q, q ≠ r → owners { m with values := l } q = m.owners q)
    (hviews : ∀ q, q ≠ r → views { m with values := l } q = m.views q)
    (hcounts : r < m.next → (m.roots r).place = .heap → (m.roots r).Counts (m.owners r)
      (m.views r) →
      (f (m.roots r)).Counts (owners { m with values := l } r) (views { m with values := l } r)) :
    Sound { m.modify r f with values := l } := by
  refine ⟨hfits, fun q hq hheap => ?_⟩
  show (Function.update m.roots r (f (m.roots r)) q).Counts
    (owners { m with values := l } q) (views { m with values := l } q)
  replace hheap : (Function.update m.roots r (f (m.roots r)) q).place = .heap := hheap
  by_cases heq : q = r
  · subst heq
    rw [Function.update_self] at hheap ⊢
    rw [hplace] at hheap
    exact hcounts hq hheap (h.counts q hq hheap)
  · rw [Function.update_of_ne heq] at hheap ⊢
    rw [howners q heq, hviews q heq]
    exact h.counts q hq hheap

theorem countP_push_of_ne {g : Value → Option RootId} (hg : g v ≠ some q)
    {vs : List (Option Value)} :
    (vs ++ [some v]).countP (fun w => w.bind g = some q) = vs.countP fun w => w.bind g =
      some q := by
  simp [List.countP_append, hg]

theorem Sound.view (h : m.Sound) (hfits : v.Fits m.next) (hroot : v.root = some r)
    (howner : v.owner = none) (hplace : (f (m.roots r)).place = (m.roots r).place)
    (hcounts : r < m.next → (m.roots r).place = .heap → (m.roots r).Counts (m.owners r)
      (m.views r) →
      (f (m.roots r)).Counts (m.owners r) (m.views r + if v.stake = some r then 1 else 0)) :
    ((m.modify r f).push v).Sound := by
  have hstake : ∀ q, q ≠ r → v.stake ≠ some q := by
    intro q hq hv
    exact hq (Option.some.inj ((Value.root_of_stake hv).symm.trans hroot))
  have howners : ∀ q, owners (m.push v) q = m.owners q := by
    intro q
    rw [owners_push, howner, if_neg (by simp), Nat.add_zero]
  refine h.change (l := m.values ++ [some v]) hplace ?_ (fun q _ => howners q) ?_ ?_
  · intro w hw
    rcases List.mem_append.mp hw with hw | hw
    · exact h.fits w hw
    · rw [Option.some.inj (List.mem_singleton.mp hw)]
      exact hfits
  · intro q hq
    exact countP_push_of_ne (hstake q hq)
  · intro hr hheap hc
    have hviews := views_push (m := m) (v := v) (r := r)
    rw [show owners { m with values := m.values ++ [some v] } r = _ from howners r,
      show views { m with values := m.values ++ [some v] } r = _ from hviews]
    exact hcounts hr hheap hc

theorem Sound.borrow (h : m.Sound) (hfits : v.Fits m.next) (howner : v.owner = none)
    (hstake : v.stake = none) : (m.push v).Sound := by
  refine ⟨fun w hw => ?_, fun r hr hheap => ?_⟩
  · rcases List.mem_append.mp hw with hw | hw
    · exact h.fits w hw
    · rw [Option.some.inj (List.mem_singleton.mp hw)]
      exact hfits
  · rw [owners_push, views_push, howner, hstake, if_neg (by simp), Nat.add_zero, Nat.add_zero]
    exact h.counts r hr hheap

theorem Sound.unused (h : m.Sound) : m.owners m.next = 0 ∧ m.views m.next = 0 := by
  have hnone : ∀ g : Value → Option RootId, (∀ v r, g v = some r → v.root = some r) →
      m.values.countP (fun w => w.bind g = some m.next) = 0 := by
    intro g hg
    rw [List.countP_eq_zero]
    intro w hw hbind
    obtain ⟨v, rfl, hv⟩ := Option.bind_eq_some_iff.mp (of_decide_eq_true hbind)
    exact Nat.lt_irrefl _ ((h.fits v hw).root _ (hg v _ hv))
  exact ⟨hnone _ fun _ _ => Value.root_of_owner, hnone _ fun _ _ => Value.root_of_stake⟩

theorem Sound.make (h : m.Sound) (hfits : (v m.next).Fits (m.next + 1))
    (hroot : (v m.next).root = some m.next)
    (hcounts : root.place = .heap → root.Counts (if (v m.next).owner = some m.next then 1 else 0)
      (if (v m.next).stake = some m.next then 1 else 0)) : (m.make root v).Sound := by
  have hfresh := h.unused
  refine ⟨fun w hw => ?_, fun q hq hheap => ?_⟩
  · rcases List.mem_append.mp hw with hw | hw
    · exact (h.fits w hw).mono (Nat.le_succ _)
    · rw [Option.some.inj (List.mem_singleton.mp hw)]
      exact hfits
  · show (Function.update m.roots m.next root q).Counts ((m.push (v m.next)).owners q)
      ((m.push (v m.next)).views q)
    replace hheap : (Function.update m.roots m.next root q).place = .heap := hheap
    replace hq : q < m.next + 1 := hq
    rw [owners_push, views_push]
    by_cases heq : q = m.next
    · subst heq
      rw [Function.update_self] at hheap ⊢
      rw [hfresh.1, hfresh.2, Nat.zero_add, Nat.zero_add]
      exact hcounts hheap
    · have hne : ∀ g : Option RootId, (g = some q → (v m.next).root = some q) → g ≠ some q := by
        intro g hg hv
        exact heq (Option.some.inj ((hg hv).symm.trans hroot))
      rw [Function.update_of_ne heq] at hheap ⊢
      rw [if_neg (hne _ Value.root_of_owner), if_neg (hne _ Value.root_of_stake)]
      exact h.counts q (Nat.lt_of_le_of_ne (Nat.lt_succ_iff.mp hq) heq) hheap

theorem countP_set_none {g : Value → Option RootId} {vs : List (Option Value)}
    (hv : vs[i]? = some (some v)) :
    (vs.set i none).countP (fun w => w.bind g = some q) + (if g v = some q then 1 else 0) =
      vs.countP fun w => w.bind g = some q := by
  obtain ⟨hi, hget⟩ := List.getElem?_eq_some_iff.mp hv
  rw [List.countP_set hi, hget]
  have hpos : g v = some q → 0 < vs.countP fun w => w.bind g = some q := by
    intro hg
    rw [List.countP_pos_iff]
    exact ⟨some v, List.mem_of_getElem? hv, decide_eq_true hg⟩
  by_cases hg : g v = some q
  · have := hpos hg
    simp only [Option.bind_some, hg, decide_true, if_true, Option.bind_none, reduceCtorEq,
      decide_false, Bool.false_eq_true, if_false]
    omega
  · simp [hg]

theorem Sound.removed (h : m.Sound) (hv : m.value i = some v) (hroot : v.root = some r)
    (hplace : (f (m.roots r)).place = (m.roots r).place)
    (hcounts : ∀ o k, r < m.next → (m.roots r).place = .heap →
      (m.roots r).Counts (o + if v.owner = some r then 1 else 0)
        (k + if v.stake = some r then 1 else 0) → (f (m.roots r)).Counts o k) :
    Sound { m.modify r f with values := m.values.set i none } := by
  have hget : m.values[i]? = some (some v) := Option.join_eq_some_iff.mp hv
  have hne : ∀ q, q ≠ r → ∀ g : Option RootId, (g = some q → v.root = some q) → g ≠ some q := by
    intro q hq g hg hv
    exact hq (Option.some.inj ((hg hv).symm.trans hroot))
  refine h.change (l := m.values.set i none) hplace ?_ ?_ ?_ ?_
  · intro w hw
    rcases List.mem_or_eq_of_mem_set hw with hw | hw
    · exact h.fits w hw
    · cases hw
  · intro q hq
    have hcount := countP_set_none (q := q) (g := Value.owner) hget
    rw [if_neg (hne q hq _ Value.root_of_owner)] at hcount
    exact hcount
  · intro q hq
    have hcount := countP_set_none (q := q) (g := Value.stake) hget
    rw [if_neg (hne q hq _ Value.root_of_stake)] at hcount
    exact hcount
  · intro hr hheap hc
    refine hcounts _ _ hr hheap ?_
    have howners := countP_set_none (q := r) (g := Value.owner) hget
    have hviews := countP_set_none (q := r) (g := Value.stake) hget
    rw [show owners { m with values := m.values.set i none } r + _ = _ from howners,
      show views { m with values := m.values.set i none } r + _ = _ from hviews]
    exact hc

theorem Sound.removed_borrow (h : m.Sound) (hv : m.value i = some v) (howner : v.owner = none)
    (hstake : v.stake = none) : Sound { m with values := m.values.set i none } := by
  have hget : m.values[i]? = some (some v) := Option.join_eq_some_iff.mp hv
  refine ⟨fun w hw => ?_, fun q hq hheap => ?_⟩
  · rcases List.mem_or_eq_of_mem_set hw with hw | hw
    · exact h.fits w hw
    · cases hw
  · have howners := countP_set_none (q := q) (g := Value.owner) hget
    have hviews := countP_set_none (q := q) (g := Value.stake) hget
    rw [howner, if_neg (by simp)] at howners
    rw [hstake, if_neg (by simp)] at hviews
    rw [show owners { m with values := m.values.set i none } q = _ from howners,
      show views { m with values := m.values.set i none } q = _ from hviews]
    exact h.counts q hq hheap

/-! ## Actions -/

def Room (m : Heap) (r : RootId) (grow : Bool) : Prop :=
  (m.roots r).place = .heap → (m.roots r).stakes = none → grow

/-- A slice that has no stake is over a root without an entry. -/
def Slack (m : Heap) (i : Nat) : Prop :=
  ∀ r len, m.value i = some (.slice r len false) → (m.roots r).place = .heap →
    (m.roots r).stakes = none

/-- The condition on an action: a slice without a stake is copied or dropped only over a root that
is not counted, and the table grows when it has to. -/
def Covered (m : Heap) : Action → Prop
  | .stringSlice i len grow => ∀ l tag r, m.value i = some (.string l tag r) →
      inlineCap < len → tag.static = false → Room m r grow
  | .stringResolve i grow => ∀ l tag r, m.value i = some (.string l tag r) →
      copySmall < l → tag.static = false → Room m r grow
  | .sliceResolve i elemSize grow => ∀ r len staked, m.value i = some (.slice r len staked) →
      0 < len → 0 < elemSize →
        if (m.roots r).place = .arena ∨ len * elemSize ≤ copySmall then grow = true
        else Room m r grow
  | .sliceCopy i => Slack m i
  | .drop i => Slack m i
  | _ => True

theorem Sound.value_fits (h : m.Sound) (hv : m.value i = some v) : v.Fits m.next :=
  h.fits v (mem_of_value hv)

theorem Sound.root_lt (h : m.Sound) (hv : m.value i = some v) (hroot : v.root = some r) :
    r < m.next := (h.value_fits hv).root r hroot

theorem Sound.inline (h : m.Sound) : (m.push .inline).Sound :=
  h.borrow ⟨fun _ hr => (by cases hr), fun _ _ _ hv => (by cases hv)⟩ rfl rfl

theorem Sound.makeString (h : m.Sound) : (m.make (.fresh .heap) (.string len .owned)).Sound :=
  h.make (.string (Nat.lt_succ_self _) fun hs => (by cases hs)) rfl fun _ => by
    simpa [Value.owner, Value.stake, StringTag.owned, StringTag.stake] using Root.Counts.fresh

theorem usable_of_not (h : ¬ (!m.usable r) = true) (hheap : (m.roots r).place = .heap) :
    (m.roots r).live := by
  simpa [usable, hheap] using h

theorem Sound.promoted (h : m.Sound) (hfits : v.Fits m.next) (hroot : v.root = some r)
    (howner : v.owner = none) (hstake : v.stake = some r) (hu : ¬ (!m.usable r) = true)
    (hroom : Room m r grow) : ((m.modify r (Root.promote grow 2)).push v).Sound := by
  refine h.view hfits hroot howner Root.promote_place fun _ hheap hc => ?_
  rw [if_pos hstake]
  have hlive := usable_of_not hu hheap
  rw [hc.live] at hlive
  exact hc.promote (of_decide_eq_true hlive) (hroom hheap)

theorem sound_stringSlice (h : m.Sound) (hv : m.value i = some v)
    (hcov : Covered m (.stringSlice i len grow)) (hs : m.stringSlice v len grow = some m') :
    m'.Sound := by
  cases v with
  | inline =>
    obtain rfl := Option.some.inj hs
    exact h.inline
  | string l tag r =>
    have hlt := h.root_lt hv rfl
    simp only [stringSlice] at hs
    split at hs
    · cases hs
    · rename_i hu
      split at hs
      · obtain rfl := Option.some.inj hs
        exact h.inline
      · rename_i hlen
        split at hs
        · obtain rfl := Option.some.inj hs
          exact h.makeString
        · split at hs
          · obtain rfl := Option.some.inj hs
            exact h.borrow (.string hlt fun hs => (by cases hs)) rfl rfl
          · rename_i hstatic
            have htag : Value.stake (.string len .stake r) = some r := rfl
            split at hs
            · rename_i hshared
              obtain rfl := Option.some.inj hs
              have hstake := (h.value_fits hv).tag _ _ _ rfl hshared
              refine h.view (.string hlt fun _ => rfl) rfl rfl Root.retain_place
                fun _ _ hc => ?_
              have hpos : 0 < m.views r := by
                rw [views, List.countP_pos_iff]
                exact ⟨_, mem_of_value hv, by simp [Value.stake, hstake]⟩
              obtain ⟨k, hk⟩ := Nat.exists_eq_add_of_lt hpos
              rw [if_pos htag]
              rw [Nat.zero_add] at hk
              rw [hk] at hc ⊢
              exact hc.retain hc.bit_of_view (by omega)
            · obtain rfl := Option.some.inj hs
              exact h.promoted (.string hlt fun _ => rfl) rfl rfl htag hu
                (hcov l tag r hv (by omega) (by simpa using hstatic))
  | _ => cases hs

theorem sound_stringSliceBorrow (h : m.Sound) (hv : m.value i = some v)
    (hs : m.stringSliceBorrow v len = some m') : m'.Sound := by
  cases v with
  | inline =>
    obtain rfl := Option.some.inj hs
    exact h.inline
  | string l tag r =>
    simp only [stringSliceBorrow] at hs
    split at hs
    · cases hs
    · split at hs
      · obtain rfl := Option.some.inj hs
        exact h.inline
      · obtain rfl := Option.some.inj hs
        refine h.borrow (.string (h.root_lt hv rfl) fun hs => (by cases hs)) ?_ ?_
        · simp [Value.owner, StringTag.owned]
        · simp [Value.stake, StringTag.stake]
  | _ => cases hs

theorem sound_stringResolve (h : m.Sound) (hv : m.value i = some v)
    (hcov : Covered m (.stringResolve i grow)) (hs : m.stringResolve v grow = some m') :
    m'.Sound := by
  cases v with
  | inline =>
    obtain rfl := Option.some.inj hs
    exact h.inline
  | string l tag r =>
    have hlt := h.root_lt hv rfl
    simp only [stringResolve] at hs
    split at hs
    · cases hs
    · rename_i hu
      split at hs
      · obtain rfl := Option.some.inj hs
        exact h.borrow (.string hlt fun hs => (by cases hs)) rfl rfl
      · rename_i hstatic
        split at hs
        · obtain rfl := Option.some.inj hs
          exact h.makeString
        · rename_i hlarge
          obtain rfl := Option.some.inj hs
          exact h.promoted (.string hlt fun _ => rfl) rfl rfl rfl hu
            (hcov l tag r hv (by omega) (by simpa using hstatic))
  | _ => cases hs

theorem sound_sliceOf (h : m.Sound) (hv : m.value i = some v) (hs : m.sliceOf v len = some m') :
    m'.Sound := by
  cases v with
  | array r | slice r =>
    simp only [sliceOf, Option.ite_none_right_eq_some] at hs
    obtain rfl := Option.some.inj hs.2
    exact h.borrow (.slice (h.root_lt hv rfl)) rfl rfl
  | _ => cases hs

theorem sound_sliceCopy (h : m.Sound) (hv : m.value i = some v) (hcov : Covered m (.sliceCopy i))
    (hs : m.sliceCopy v = some m') : m'.Sound := by
  cases v with
  | slice r len staked =>
    obtain rfl := Option.some.inj hs
    refine h.view (.slice (h.root_lt hv rfl)) rfl rfl Root.sliceRetain_place fun hlt hheap hc => ?_
    cases staked with
    | false =>
      rw [Root.sliceRetain_of_none (hcov r len hv hheap)]
      exact hc
    | true =>
      have hpos : 0 < m.views r := by
        rw [views, List.countP_pos_iff]
        exact ⟨_, mem_of_value hv, by simp [Value.stake]⟩
      obtain ⟨k, hk⟩ := Nat.exists_eq_add_of_lt hpos
      rw [Nat.zero_add] at hk
      rw [if_pos (by rfl)]
      rw [hk] at hc ⊢
      rw [Root.sliceRetain, if_pos hc.bit_of_view]
      exact hc.retain hc.bit_of_view (by omega)
  | _ => cases hs

theorem sound_sliceResolve (h : m.Sound) (hv : m.value i = some v)
    (hcov : Covered m (.sliceResolve i elemSize grow))
    (hs : m.sliceResolve v elemSize grow = some m') : m'.Sound := by
  cases v with
  | slice r len staked =>
    have hlt := h.root_lt hv rfl
    simp only [sliceResolve] at hs
    split at hs
    · cases hs
    · rename_i hu
      split at hs
      · obtain rfl := Option.some.inj hs
        exact h.borrow (.slice hlt) rfl rfl
      · rename_i hempty
        have hroom := hcov r len staked hv (by omega) (by omega)
        split at hs
        · rename_i hsmall
          rw [if_pos hsmall] at hroom
          obtain rfl := Option.some.inj hs
          subst hroom
          refine h.make (.slice (Nat.lt_succ_self _)) rfl fun _ => ?_
          simpa [Value.owner, Value.stake] using Root.Counts.freshView
        · rename_i hsmall
          rw [if_neg hsmall] at hroom
          obtain rfl := Option.some.inj hs
          exact h.promoted (.slice hlt) rfl rfl rfl hu hroom
  | _ => cases hs

theorem sound_drop (h : m.Sound) (hv : m.value i = some v) (hcov : Slack m i) :
    (m.drop i v).Sound := by
  cases v with
  | array r =>
    refine h.removed hv rfl Root.ownerDrop_place fun o k _ _ hc => ?_
    rw [if_pos (by rfl), if_neg (by simp [Value.stake])] at hc
    obtain rfl : o = 0 := Nat.le_zero.mp (Nat.le_of_succ_le_succ hc.owners)
    exact hc.ownerDrop
  | inline => exact h.removed_borrow hv rfl rfl
  | string len tag r =>
    simp only [drop, dropRoot]
    split
    · rename_i htag
      refine h.removed_borrow hv (if_neg ?_) (if_neg ?_)
      · rintro rfl
        cases htag
      · rintro rfl
        cases htag
    · rename_i htag
      split
      · rename_i hshared
        obtain rfl := (h.value_fits hv).tag _ _ _ rfl hshared
        refine h.removed hv rfl Root.release_place fun o k _ _ hc => ?_
        have howner : Value.owner (.string len .stake r) ≠ some r := fun hr => (by cases hr)
        rw [if_neg howner, if_pos (by rfl)] at hc
        exact hc.release hc.bit_of_view hc.owners (by omega)
      · rename_i hshared
        obtain rfl : tag = .owned := by
          cases tag
          simp_all [StringTag.owned]
        refine h.removed hv rfl Root.ownerDrop_place fun o k _ _ hc => ?_
        have hstake : Value.stake (.string len .owned r) ≠ some r := fun hr => (by cases hr)
        rw [if_pos (by rfl), if_neg hstake] at hc
        obtain rfl : o = 0 := Nat.le_zero.mp (Nat.le_of_succ_le_succ hc.owners)
        exact hc.ownerDrop
  | slice r len staked =>
    refine h.removed hv rfl Root.sliceRelease_place fun o k _ hheap hc => ?_
    cases staked with
    | false =>
      rw [Root.sliceRelease_of_none (hcov r len hv hheap)]
      simpa [Value.owner, Value.stake] using hc
    | true =>
      rw [if_neg (by simp [Value.owner]), if_pos (by rfl)] at hc
      rw [Root.sliceRelease, if_pos hc.bit_of_view]
      exact hc.release hc.bit_of_view hc.owners (by omega)

theorem sound_newString (h : m.Sound) : (m.newString len place).Sound := by
  unfold newString
  split
  · exact h.inline
  · refine h.make (.string (Nat.lt_succ_self _) ?_) rfl fun hheap => ?_
    · split <;> exact fun hs => (by cases hs)
    · obtain rfl : place = .heap := hheap
      simpa [Value.owner, Value.stake, StringTag.owned, StringTag.stake] using Root.Counts.fresh

theorem sound_newArray (h : m.Sound) : (m.newArray arena).Sound := by
  refine h.make ⟨fun r hr => Option.some.inj hr ▸ Nat.lt_succ_self _, fun _ _ _ hv => (by cases hv)⟩
    rfl fun hheap => ?_
  cases arena with
  | false => simpa [Value.owner, Value.stake] using Root.Counts.fresh
  | true => cases hheap

theorem sound_step (h : m.Sound) (hcov : m.Covered a) (ha : Step m a m') : m'.Sound := by
  cases a with
  | newArray =>
    obtain rfl := Option.some.inj ha
    exact sound_newArray h
  | newString =>
    obtain rfl := Option.some.inj ha
    exact sound_newString h
  | stringSlice =>
    obtain ⟨v, hv, hs⟩ := Option.bind_eq_some_iff.mp ha
    exact sound_stringSlice h hv hcov hs
  | stringSliceBorrow =>
    obtain ⟨v, hv, hs⟩ := Option.bind_eq_some_iff.mp ha
    exact sound_stringSliceBorrow h hv hs
  | stringResolve =>
    obtain ⟨v, hv, hs⟩ := Option.bind_eq_some_iff.mp ha
    exact sound_stringResolve h hv hcov hs
  | sliceOf =>
    obtain ⟨v, hv, hs⟩ := Option.bind_eq_some_iff.mp ha
    exact sound_sliceOf h hv hs
  | sliceCopy =>
    obtain ⟨v, hv, hs⟩ := Option.bind_eq_some_iff.mp ha
    exact sound_sliceCopy h hv hcov hs
  | sliceResolve =>
    obtain ⟨v, hv, hs⟩ := Option.bind_eq_some_iff.mp ha
    exact sound_sliceResolve h hv hcov hs
  | drop =>
    obtain ⟨v, hv, hs⟩ := Option.bind_eq_some_iff.mp ha
    obtain rfl := Option.some.inj hs
    exact sound_drop h hv hcov

def Unmoved (m : Heap) (a : Action) (m' : Heap) : Prop :=
  ∀ i v, a = .drop i ∨ a = .sliceCopy i → m.value i = some v → v.owner = none → v.stake = none →
    ∀ r, (m.roots r).place = .heap → m'.roots r = m.roots r

theorem modify_roots (h : q = r → f (m.roots r) = m.roots r) :
    (m.modify r f).roots q = m.roots q := by
  show Function.update m.roots r (f (m.roots r)) q = m.roots q
  by_cases heq : q = r
  · rw [h heq, Function.update_eq_self]
  · exact Function.update_of_ne heq _ _

/-- An action that meets the condition leaves the roots alone if it drops or copies a borrow. -/
theorem unmoved_of_covered (h : m.Sound) (hcov : m.Covered a) (ha : Step m a m') :
    Unmoved m a m' := by
  intro i v hact hv howner hstake r hheap
  obtain rfl | rfl := hact
  · obtain ⟨w, hw, hs⟩ := Option.bind_eq_some_iff.mp ha
    obtain rfl := Option.some.inj (hv.symm.trans hw)
    obtain rfl := Option.some.inj hs
    cases v with
    | array => cases howner
    | inline => rfl
    | string len tag q =>
      show (m.dropRoot _).roots r = m.roots r
      unfold dropRoot
      dsimp only
      split
      · rfl
      · rename_i htag
        split
        · rename_i hshared
          obtain rfl := (h.value_fits hv).tag _ _ _ rfl hshared
          cases hstake
        · rename_i hshared
          obtain rfl : tag = .owned := by
            cases tag
            simp_all [StringTag.owned]
          cases howner
    | slice q len staked =>
      cases staked with
      | true => cases hstake
      | false =>
        refine modify_roots ?_
        rintro rfl
        exact Root.sliceRelease_of_none (hcov _ len hv hheap)
  · obtain ⟨w, hw, hs⟩ := Option.bind_eq_some_iff.mp ha
    obtain rfl := Option.some.inj (hv.symm.trans hw)
    cases v with
    | slice q len staked =>
      obtain rfl := Option.some.inj hs
      cases staked with
      | true => cases hstake
      | false =>
        refine modify_roots ?_
        rintro rfl
        exact Root.sliceRetain_of_none (hcov _ len hv hheap)
    | _ => cases hs

/-! ## What goes wrong otherwise -/

theorem not_accounted_of_room (hlt : r < m.next) (hstake : v.stake = some r)
    (hroom : ¬ Room m r grow) : ¬ ((m.modify r (Root.promote grow 2)).push v).Accounted := by
  simp only [Room, not_forall] at hroom
  obtain ⟨hheap, hnone, hgrow⟩ := hroom
  intro hacc
  have hroots : ((m.modify r (Root.promote grow 2)).push v).roots r =
      { m.roots r with bit := true, stakes := none } := by
    show Function.update m.roots r _ r = _
    rw [Function.update_self, Root.promote, hnone]
    dsimp only
    rw [if_neg hgrow]
  have hc := hacc r hlt (by rw [hroots]; exact hheap)
  rw [hroots, views_push, if_pos hstake] at hc
  have hshared := hc.shared rfl
  rw [if_neg (by omega)] at hshared
  cases hshared

theorem not_accounted_of_fresh (hstake : (v m.next).stake = some m.next) :
    ¬ (m.make ((Root.fresh .heap).promote false 1) v).Accounted := by
  intro hacc
  have hc := hacc m.next (Nat.lt_succ_self _) (by
    show (Function.update m.roots m.next _ m.next).place = _
    rw [Function.update_self]
    rfl)
  replace hc : (Function.update m.roots m.next ((Root.fresh .heap).promote false 1) m.next).Counts
    ((m.push (v m.next)).owners m.next) ((m.push (v m.next)).views m.next) := hc
  rw [Function.update_self, views_push, if_pos hstake] at hc
  have hshared := hc.shared rfl
  rw [if_neg (by omega)] at hshared
  cases hshared

theorem not_accounted_of_copy (h : m.Sound) (hv : m.value i = some (.slice r len false))
    (hheap : (m.roots r).place = .heap) (hs : (m.roots r).stakes = some rc) :
    ¬ ((m.modify r Root.sliceRetain).push (.slice r len false)).Accounted := by
  intro hacc
  have hlt := h.root_lt hv rfl
  obtain ⟨hbit, hrc, hne⟩ := (h.counts r hlt hheap).stakes_of_some hs
  have hroots : ((m.modify r Root.sliceRetain).push (.slice r len false)).roots r =
      { m.roots r with stakes := some (rc + 1) } := by
    show Function.update m.roots r _ r = _
    rw [Function.update_self, Root.sliceRetain, if_pos hbit, Root.retain, hs]
    rfl
  have hc := hacc r hlt (by rw [hroots]; exact hheap)
  rw [hroots, views_push, owners_push] at hc
  have hcount := (hc.stakes_of_some rfl).2.1
  simp only [Value.owner, Value.stake, Bool.false_eq_true, if_false, reduceCtorEq] at hcount
  have hsame : (m.modify r Root.sliceRetain).owners r = m.owners r ∧
      (m.modify r Root.sliceRetain).views r = m.views r := ⟨rfl, rfl⟩
  omega

theorem not_accounted_of_drop (h : m.Sound) (hv : m.value i = some (.slice r len false))
    (hheap : (m.roots r).place = .heap) (hs : (m.roots r).stakes = some rc) :
    ¬ (m.drop i (.slice r len false)).Accounted := by
  intro hacc
  have hlt := h.root_lt hv rfl
  obtain ⟨hbit, hrc, hne⟩ := (h.counts r hlt hheap).stakes_of_some hs
  have hget : m.values[i]? = some (some (.slice r len false)) := Option.join_eq_some_iff.mp hv
  have howners := countP_set_none (q := r) (g := Value.owner) hget
  have hviews := countP_set_none (q := r) (g := Value.stake) hget
  rw [if_neg (by simp [Value.owner])] at howners
  rw [if_neg (by simp [Value.stake])] at hviews
  have hroots : (m.drop i (.slice r len false)).roots r = (m.roots r).release := by
    show Function.update m.roots r _ r = _
    rw [Function.update_self, Root.sliceRelease, if_pos hbit]
  have hc := hacc r hlt (by rw [hroots, Root.release_place]; exact hheap)
  replace howners : (m.drop i (.slice r len false)).owners r = m.owners r := howners
  replace hviews : (m.drop i (.slice r len false)).views r = m.views r := hviews
  rw [hroots, howners, hviews] at hc
  have hshared := hc.shared
  rw [if_neg hne, Root.release, hs] at hshared
  dsimp only at hshared
  split at hshared
  · have hcount := Option.some.inj (hshared hbit)
    omega
  · unfold Root.claimFree at hshared
    split at hshared <;> cases hshared hbit

theorem not_accounted_of_not_covered (h : m.Sound) (hcov : ¬ m.Covered a) (ha : Step m a m') :
    ¬ m'.Accounted := by
  cases a with
  | stringSlice i len grow =>
    simp only [Covered, not_forall] at hcov
    obtain ⟨l, tag, r, hv, hlen, hstatic, hroom⟩ := hcov
    have hlt := h.root_lt hv rfl
    obtain ⟨w, hw, hs⟩ := Option.bind_eq_some_iff.mp ha
    obtain rfl := Option.some.inj (hv.symm.trans hw)
    have hheap : (m.roots r).place = .heap := by
      by_contra hplace
      exact hroom fun hheap => absurd hheap hplace
    have hshared : tag.shared = false := by
      cases hts : tag.shared with
      | false => rfl
      | true =>
        exfalso
        obtain rfl := (h.value_fits hv).tag _ _ _ rfl hts
        have hpos : 0 < m.views r := by
          rw [views, List.countP_pos_iff]
          exact ⟨_, mem_of_value hv, by simp [Value.stake]⟩
        have hc := h.counts r hlt hheap
        obtain ⟨k, hk⟩ := Nat.exists_eq_add_of_lt hpos
        rw [Nat.zero_add] at hk
        rw [hk] at hc
        refine hroom fun _ hnone => ?_
        rw [hc.stakes_eq hc.bit_of_view (by omega)] at hnone
        cases hnone
    simp only [stringSlice, hstatic, hheap, hshared, reduceCtorEq, and_false, if_false,
      Bool.false_eq_true, Nat.not_le.mpr hlen] at hs
    split at hs
    · cases hs
    · obtain rfl := Option.some.inj hs
      exact not_accounted_of_room hlt rfl hroom
  | stringResolve i grow =>
    simp only [Covered, not_forall] at hcov
    obtain ⟨l, tag, r, hv, hlen, hstatic, hroom⟩ := hcov
    obtain ⟨w, hw, hs⟩ := Option.bind_eq_some_iff.mp ha
    obtain rfl := Option.some.inj (hv.symm.trans hw)
    have hheap : (m.roots r).place = .heap := by
      by_contra hplace
      exact hroom fun hheap => absurd hheap hplace
    simp only [stringResolve, hstatic, hheap, reduceCtorEq, false_or, if_false,
      Bool.false_eq_true, Nat.not_le.mpr hlen] at hs
    split at hs
    · cases hs
    · obtain rfl := Option.some.inj hs
      exact not_accounted_of_room (h.root_lt hv rfl) rfl hroom
  | sliceResolve i elemSize grow =>
    simp only [Covered, not_forall] at hcov
    obtain ⟨r, len, staked, hv, hlen, hsize, hroom⟩ := hcov
    obtain ⟨w, hw, hs⟩ := Option.bind_eq_some_iff.mp ha
    obtain rfl := Option.some.inj (hv.symm.trans hw)
    simp only [sliceResolve] at hs
    rw [if_neg (show ¬ (len = 0 ∨ elemSize = 0) by omega)] at hs
    split at hs
    · cases hs
    · split at hs
      · rename_i hsmall
        rw [if_pos hsmall, Bool.not_eq_true] at hroom
        subst hroom
        obtain rfl := Option.some.inj hs
        exact not_accounted_of_fresh rfl
      · rename_i hsmall
        rw [if_neg hsmall] at hroom
        obtain rfl := Option.some.inj hs
        exact not_accounted_of_room (h.root_lt hv rfl) rfl hroom
  | sliceCopy i =>
    simp only [Covered, Slack, not_forall] at hcov
    obtain ⟨r, len, hv, hheap, hs⟩ := hcov
    obtain ⟨rc, hs⟩ := Option.ne_none_iff_exists'.mp hs
    obtain ⟨w, hw, hcopy⟩ := Option.bind_eq_some_iff.mp ha
    obtain rfl := Option.some.inj (hv.symm.trans hw)
    obtain rfl := Option.some.inj hcopy
    exact not_accounted_of_copy h hv hheap hs
  | drop i =>
    simp only [Covered, Slack, not_forall] at hcov
    obtain ⟨r, len, hv, hheap, hs⟩ := hcov
    obtain ⟨rc, hs⟩ := Option.ne_none_iff_exists'.mp hs
    obtain ⟨w, hw, hdrop⟩ := Option.bind_eq_some_iff.mp ha
    obtain rfl := Option.some.inj (hv.symm.trans hw)
    obtain rfl := Option.some.inj hdrop
    exact not_accounted_of_drop h hv hheap hs
  | _ => exact absurd trivial hcov

/-- As long as no slice without a stake is copied or dropped over a counted root and the table grows
when it has to, every root counts its holders and is freed with the last of them; the next action
keeps this, and moves no count for a borrow, if and only if it meets the condition too. -/
theorem shared_accounted {acts : List Action}
    (h : Steps (Steps.guarded Step Covered) initial acts m) :
    m.Accounted ∧
      ∀ a m', Step m a m' → (m'.Accounted ∧ Unmoved m a m' ↔ m.Covered a) := by
  have hs : m.Sound :=
    h.preserves (P := Sound) (fun _ _ _ ha hs => sound_step hs ha.1 ha.2) sound_initial
  refine ⟨hs.counts, fun a m' ha => ⟨fun hacc => ?_, fun hcov => ?_⟩⟩
  · by_contra hcov
    exact not_accounted_of_not_covered hs hcov ha hacc.1
  · exact ⟨(sound_step hs hcov ha).counts, unmoved_of_covered hs hcov ha⟩

/-- An array is sliced, the slice escapes, and both are dropped. -/
theorem shared_accounted_sample : ∃ m : Heap, m.Accounted ∧ m.holders 0 = 0 ∧
    (m.roots 0).freed = 1 := by
  have hslack : ∀ {m : Heap} {i : Nat} {w : Value}, m.value i = some w →
      (∀ r len, w ≠ .slice r len false) → Slack m i := by
    intro m i w hw hne r len hv
    exact absurd (Option.some.inj (hw.symm.trans hv)) (hne r len)
  have hrun : ∃ m : Heap, m.holders 0 = 0 ∧ (m.roots 0).freed = 1 ∧
      Steps (Steps.guarded Step Covered) initial
        [.newArray false, .sliceOf 0 300, .sliceResolve 1 4 true, .sliceCopy 2, .drop 0, .drop 2,
          .drop 3] m :=
    ⟨_, by decide, by decide, .cons ⟨trivial, rfl⟩ <| .cons ⟨trivial, rfl⟩ <|
      .cons ⟨fun r len staked hv _ _ => by
        obtain ⟨rfl, rfl, -⟩ := Value.slice.inj (Option.some.inj hv)
        exact fun _ _ => rfl, rfl⟩ <|
      .cons ⟨hslack rfl (by simp), rfl⟩ <| .cons ⟨hslack rfl (by simp), rfl⟩ <|
      .cons ⟨hslack rfl (by simp), rfl⟩ <| .cons ⟨hslack rfl (by simp), rfl⟩ .nil⟩
  obtain ⟨m, hholders, hfreed, hsteps⟩ := hrun
  exact ⟨m, (shared_accounted hsteps).1, hholders, hfreed⟩

/-- The drop of a slice without a stake takes the stake of another slice: the array is freed under
it. -/
theorem not_accounted_borrowDrop :
    ¬ ∀ (acts : List Action) m, Steps Step initial acts m → m.Accounted := by
  intro hall
  have hrun : ∃ m : Heap, 0 < m.next ∧ (m.roots 0).place = .heap ∧ m.holders 0 = 1 ∧
      (m.roots 0).freed = 1 ∧ Steps Step initial
        [.newArray false, .sliceOf 0 300, .sliceResolve 1 4 true, .drop 1, .drop 0] m :=
    ⟨_, by decide, by decide, by decide, by decide, .cons rfl <| .cons rfl <| .cons rfl <|
      .cons rfl <| .cons rfl .nil⟩
  obtain ⟨m, hlt, hheap, hholders, hfreed, hsteps⟩ := hrun
  have hcount := (hall _ _ hsteps 0 hlt hheap).freed
  rw [hfreed, if_neg (by rw [← holders, hholders]; decide)] at hcount
  cases hcount

end Heap

end Cajeta.Memory.SharedRoots
