import Cajeta.Concurrent.AnchorScope
import Mathlib.Data.List.Nodup
import Mathlib.Data.List.Perm.Basic

/-!
# What component scopes guarantee

Each component of a scope is built by one context at a time and published once, and the end of the
scope drops what was published. That a cycle is told from a build by another context needs one more
thing: plain threads are not told apart.
-/

namespace Cajeta.Concurrent

namespace AnchorOp
variable {K : Type}

/-- What the acquire last waited for. -/
def waits : AnchorOp K → Option (K × Nat × Nat)
  | .acquiring k waited => waited.map (k, ·)
  | .waiting k waited => some (k, waited)
  | .idle | .resolving _ | .creating _ => none

/-- The acquire has the table. -/
def resolved : AnchorOp K → Bool
  | .acquiring .. | .waiting .. => true
  | .idle | .resolving _ | .creating _ => false

end AnchorOp

namespace AnchorScope
variable {X K I : Type} {s s' : AnchorScope X K I} {method : Bool} {fiber : X → Bool}

/-- `__cajeta_current_fiber` on the context. -/
def self (fiber : X → Bool) (x : X) : Option X := if fiber x then some x else none

structure Slots (fiber : X → Bool) (s : AnchorScope X K I) : Prop where
  ids : (s.slots.map AnchorSlot.id).Pairwise (· > ·)
  old : ∀ t ∈ s.slots, t.id < s.next
  components : (s.slots.map AnchorSlot.component).Nodup
  claimed : ∀ x, ∀ id ∈ s.claims x, ∃ t ∈ s.slots, t.id = id ∧ t.inst = none ∧ t.claimant = x
  building : ∀ t ∈ s.slots, t.inst = none →
    t.id ∈ s.claims t.claimant ∧ t.builder = self fiber t.claimant
  claims : ∀ x, (s.claims x).Nodup

structure Published (s : AnchorScope X K I) : Prop where
  nodup : (s.published.map Prod.fst).Nodup
  ready : ∀ t ∈ s.slots, ∀ i, t.inst = some i → (t.id, i) ∈ s.published
  kept : s.ended = false → ∀ p ∈ s.published, ∃ t ∈ s.slots, t.id = p.1 ∧ t.inst = some p.2
  before : s.ended = false → s.dropped = []
  after : s.ended → (s.dropped.map Prod.fst).Pairwise (· < ·) ∧ s.dropped.Perm s.published

/-- Who waited did so for a slot that is still there or has been given up since. -/
def Waited (s : AnchorScope X K I) : Prop :=
  ∀ x k e id, (s.op x).waits = some (k, e, id) →
    e ≤ s.epoch ∧ ((∃ t ∈ s.slots, t.id = id ∧ t.component = k) ∨ id ∈ s.abandoned ∧ e < s.epoch)

/-- The table is there while somebody uses it, and its references are counted. -/
structure Used (method : Bool) (s : AnchorScope X K I) : Prop where
  op : ∀ x, s.op x ≠ .idle → x ∈ s.frames
  claims : ∀ x, s.claims x ≠ [] → x ∈ s.frames
  resolved : ∀ x, (s.op x).resolved → s.present
  absent : s.present = false → s.slots = [] ∧ s.published = []
  refs : method → s.present → s.refs = s.frames.length ∧ (s.ended ↔ s.frames = [])
  single : method → s.present = false → s.frames.length ≤ 1
  entered : s.entered = false → s.frames = [] ∧ s.present = false
  ended : s.ended → s.frames = [] ∧ s.slots = []

structure Sound (method : Bool) (fiber : X → Bool) (s : AnchorScope X K I) : Prop where
  slots : s.Slots fiber
  published : s.Published
  waited : s.Waited
  used : s.Used method

theorem sound_initial : (initial : AnchorScope X K I).Sound method fiber where
  slots := by constructor <;> simp [initial]
  published := by constructor <;> simp [initial]
  waited := fun _ _ _ _ h => by cases h
  used := by constructor <;> simp [initial, AnchorOp.resolved]

theorem self_inj (h : self fiber x = self fiber y) (hfiber : fiber x) : x = y := by
  rw [self, if_pos hfiber, self] at h
  split at h
  · exact Option.some.inj h
  · cases h

theorem Slots.unique (hs : s.Slots fiber) (ht : t ∈ s.slots) (ht' : t' ∈ s.slots)
    (heq : t.id = t'.id) : t = t' := by
  have hnodup : (s.slots.map AnchorSlot.id).Nodup := hs.ids.imp Nat.ne_of_gt
  exact List.inj_on_of_nodup_map hnodup ht ht' heq

theorem Slots.unique_component (hs : s.Slots fiber) (ht : t ∈ s.slots) (ht' : t' ∈ s.slots)
    (heq : t.component = t'.component) : t = t' :=
  List.inj_on_of_nodup_map hs.components ht ht' heq

theorem Slots.claimant (hs : s.Slots fiber) (ht : t ∈ s.slots) (hx : t.id ∈ s.claims x) :
    t.claimant = x := by
  obtain ⟨t', ht', hid, -, rfl⟩ := hs.claimed x _ hx
  rw [hs.unique ht ht' hid.symm]

theorem Slots.builds (hs : s.Slots fiber) (hx : s.Builds x k) (hy : s.Builds y k) : x = y := by
  obtain ⟨t, ht, hk, -, hx⟩ := hx
  obtain ⟨t', ht', hk', -, hy⟩ := hy
  have heq := hs.unique_component ht ht' (hk.trans hk'.symm)
  subst heq
  exact (hs.claimant ht hx).symm.trans (hs.claimant ht hy)

variable [DecidableEq X]

theorem Sound.setOp {op : AnchorOp K} (hs : s.Sound method fiber)
    (hframe : op ≠ .idle → x ∈ s.frames) (hresolved : op.resolved → s.present)
    (hwaits : ∀ k e id, op.waits = some (k, e, id) → e ≤ s.epoch ∧
      ((∃ t ∈ s.slots, t.id = id ∧ t.component = k) ∨ id ∈ s.abandoned ∧ e < s.epoch)) :
    (s.setOp x op).Sound method fiber where
  slots := ⟨hs.slots.ids, hs.slots.old, hs.slots.components, hs.slots.claimed, hs.slots.building,
    hs.slots.claims⟩
  published := ⟨hs.published.nodup, hs.published.ready, hs.published.kept, hs.published.before,
    hs.published.after⟩
  waited := by
    intro y k e id h
    simp only [AnchorScope.setOp, Function.update_apply] at h
    split at h
    · exact hwaits k e id h
    · exact hs.waited y k e id h
  used := by
    refine ⟨fun y h => ?_, hs.used.claims, fun y h => ?_, hs.used.absent, hs.used.refs,
      hs.used.single, hs.used.entered, hs.used.ended⟩
    · simp only [AnchorScope.setOp, Function.update_apply] at h
      split at h
      · next heq => exact heq ▸ hframe h
      · exact hs.used.op y h
    · simp only [AnchorScope.setOp, Function.update_apply] at h
      split at h
      · exact hresolved h
      · exact hs.used.resolved y h

theorem Sound.idle (hs : s.Sound method fiber) (x : X) : (s.setOp x .idle).Sound method fiber :=
  hs.setOp (absurd rfl) (fun h => by cases h) (fun _ _ _ h => by cases h)

omit [DecidableEq X] in
theorem wake_waits : (s.wake.op x).waits = (s.op x).waits := by
  simp only [wake]
  split <;> simp_all [AnchorOp.waits]

omit [DecidableEq X] in
theorem wake_resolved : (s.wake.op x).resolved = (s.op x).resolved := by
  simp only [wake]
  split <;> simp_all [AnchorOp.resolved]

omit [DecidableEq X] in
theorem wake_idle (h : s.wake.op x ≠ .idle) : s.op x ≠ .idle := by
  intro heq
  simp only [wake, heq] at h
  exact h rfl

/-! ## Builds -/

theorem Sound.claim (hs : s.Sound method fiber) (hx : x ∈ s.frames) (hpresent : s.present)
    (hnone : ∀ t ∈ s.slots, t.component ≠ k) : Sound method fiber
      { s.setClaims x (s.next :: s.claims x) with
        slots := ⟨s.next, k, none, self fiber x, x⟩ :: s.slots, next := s.next + 1 } where
  slots := by
    have hold := hs.slots.old
    have hclaim : ∀ y, Function.update s.claims x (s.next :: s.claims x) y =
        if y = x then s.next :: s.claims x else s.claims y := fun y => Function.update_apply ..
    have hids : ∀ y, ∀ id ∈ s.claims y, id < s.next := fun y id hid => by
      obtain ⟨t, ht, rfl, -⟩ := hs.slots.claimed y id hid
      exact hold t ht
    refine ⟨?_, fun t ht => ?_, ?_, fun y id hid => ?_, fun t ht hinst => ?_, fun y => ?_⟩
    · refine List.pairwise_cons.mpr ⟨fun id hid => ?_, hs.slots.ids⟩
      obtain ⟨t, ht, rfl⟩ := List.mem_map.mp hid
      exact hold t ht
    · rcases List.mem_cons.mp ht with rfl | ht
      · exact Nat.lt_succ_self _
      · exact Nat.lt_succ_of_lt (hold t ht)
    · refine List.nodup_cons.mpr ⟨fun hmem => ?_, hs.slots.components⟩
      obtain ⟨t, ht, hk⟩ := List.mem_map.mp hmem
      exact hnone t ht hk
    · simp only [setClaims, hclaim] at hid
      have hlift : ∀ {y}, id ∈ s.claims y → ∃ t ∈ (⟨s.next, k, none, self fiber x, x⟩ ::
          s.slots : List (AnchorSlot X K I)), t.id = id ∧ t.inst = none ∧ t.claimant = y := by
        intro y hid
        obtain ⟨t, ht, h⟩ := hs.slots.claimed y id hid
        exact ⟨t, List.mem_cons_of_mem _ ht, h⟩
      split at hid
      · next heq =>
        subst heq
        rcases List.mem_cons.mp hid with rfl | hid
        · exact ⟨_, List.mem_cons_self, rfl, rfl, rfl⟩
        · exact hlift hid
      · exact hlift hid
    · simp only [setClaims, hclaim]
      rcases List.mem_cons.mp ht with rfl | ht
      · exact ⟨by simp, rfl⟩
      · obtain ⟨hmem, hbuilder⟩ := hs.slots.building t ht hinst
        refine ⟨?_, hbuilder⟩
        split
        · next heq => exact List.mem_cons_of_mem _ (heq ▸ hmem)
        · exact hmem
    · simp only [setClaims, hclaim]
      split
      · exact List.nodup_cons.mpr ⟨fun h => Nat.lt_irrefl _ (hids x _ h), hs.slots.claims x⟩
      · exact hs.slots.claims y
  published := by
    refine ⟨hs.published.nodup, fun t ht i hi => ?_, fun hended p hp => ?_, hs.published.before,
      hs.published.after⟩
    · rcases List.mem_cons.mp ht with rfl | ht
      · cases hi
      · exact hs.published.ready t ht i hi
    · obtain ⟨t, ht, h⟩ := hs.published.kept hended p hp
      exact ⟨t, List.mem_cons_of_mem _ ht, h⟩
  waited := by
    intro y k' e id h
    obtain ⟨hle, hslot⟩ := hs.waited y k' e id h
    refine ⟨hle, hslot.imp_left ?_⟩
    rintro ⟨t, ht, h⟩
    exact ⟨t, List.mem_cons_of_mem _ ht, h⟩
  used := by
    refine ⟨hs.used.op, fun y hy => ?_, hs.used.resolved, fun h => ?_, hs.used.refs,
      hs.used.single, hs.used.entered, fun h => ?_⟩
    · simp only [setClaims, Function.update_apply] at hy
      split at hy
      · next heq => exact heq ▸ hx
      · exact hs.used.claims y hy
    · rw [show s.present = false from h] at hpresent
      cases hpresent
    · rw [(hs.used.ended h).1] at hx
      cases hx

omit [DecidableEq X] in
theorem Sound.innermost (hs : s.Sound method fiber) (hclaims : s.claims x = n :: rest) :
    (∃ t ∈ s.slots, t.id = n ∧ t.inst = none ∧ t.claimant = x) ∧ x ∈ s.frames ∧ n ∉ rest ∧
      ∀ y ≠ x, n ∉ s.claims y := by
  have hmem : n ∈ s.claims x := by rw [hclaims]; exact List.mem_cons_self
  have hnodup := hs.slots.claims x
  rw [hclaims] at hnodup
  obtain ⟨t, ht, rfl, hinst, hclaimant⟩ := hs.slots.claimed x _ hmem
  refine ⟨⟨t, ht, rfl, hinst, hclaimant⟩, hs.used.claims x (by simp [hclaims]),
    (List.nodup_cons.mp hnodup).1, fun y hne hy => ?_⟩
  exact hne ((hs.slots.claimant ht hy).symm.trans hclaimant)

omit [DecidableEq X] in
theorem Sound.ended_eq_false (hs : s.Sound method fiber) (hx : x ∈ s.frames) :
    s.ended = false := by
  rw [Bool.eq_false_iff]
  intro hended
  rw [(hs.used.ended hended).1] at hx
  cases hx

theorem mem_setClaims (hclaims : s.claims x = n :: rest) (hid : i ≠ n) :
    i ∈ (s.setClaims x rest).claims y ↔ i ∈ s.claims y := by
  simp only [setClaims, Function.update_apply]
  split
  · next heq =>
    subst heq
    rw [hclaims, List.mem_cons]
    exact ⟨.inr, fun h => h.resolve_left hid⟩
  · exact .rfl

theorem not_mem_setClaims (hs : s.Sound method fiber) (hclaims : s.claims x = n :: rest) :
    n ∉ (s.setClaims x rest).claims y := by
  obtain ⟨-, -, hinner, hothers⟩ := hs.innermost hclaims
  simp only [setClaims, Function.update_apply]
  split
  · exact hinner
  · next hne => exact hothers y hne

theorem nodup_setClaims (hs : s.Sound method fiber) (hclaims : s.claims x = n :: rest) :
    ((s.setClaims x rest).claims y).Nodup := by
  have hnodup := hs.slots.claims x
  rw [hclaims] at hnodup
  simp only [setClaims, Function.update_apply]
  split
  · exact (List.nodup_cons.mp hnodup).2
  · exact hs.slots.claims y

theorem used_setClaims (hs : s.Sound method fiber) (hclaims : s.claims x = n :: rest)
    (hy : (s.setClaims x rest).claims y ≠ []) : y ∈ s.frames := by
  simp only [setClaims, Function.update_apply] at hy
  split at hy
  · next heq => exact heq ▸ (hs.innermost hclaims).2.1
  · exact hs.used.claims y hy

theorem Sound.publishIn (hs : s.Sound method fiber) (hclaims : s.claims x = n :: rest)
    (inst : I) : (s.publishIn x n rest inst).Sound method fiber := by
  obtain ⟨⟨t₀, ht₀, hid₀, hnone₀, hclaimant₀⟩, hx, -, -⟩ := hs.innermost hclaims
  have hended := hs.ended_eq_false hx
  let f : AnchorSlot X K I → AnchorSlot X K I := fun t =>
    if t.id = n then { t with inst := some inst, builder := none } else t
  have hfid : ∀ t, (f t).id = t.id := fun t => by simp only [f]; split <;> rfl
  have hfcomp : ∀ t, (f t).component = t.component := fun t => by simp only [f]; split <;> rfl
  have hfclaim : ∀ t, (f t).claimant = t.claimant := fun t => by simp only [f]; split <;> rfl
  have hfne : ∀ t, t.id ≠ n → f t = t := fun t ht => if_neg ht
  have hfeq : ∀ t, t.id = n → (f t).inst = some inst := fun t ht => by simp only [f, if_pos ht]
  have hready : ∀ t ∈ s.slots, ∀ i, t.inst = some i → t.id ≠ n := fun t ht i hi heq => by
    rw [hs.slots.unique ht ht₀ (heq.trans hid₀.symm), hnone₀] at hi
    cases hi
  refine ⟨⟨?_, fun t ht => ?_, ?_, fun y i hi => ?_, fun t ht hinst => ?_, fun y =>
    nodup_setClaims hs hclaims⟩, ⟨?_, fun t ht i hi => ?_, fun _ p hp => ?_, fun _ => ?_,
    fun h => ?_⟩, fun y k e i h => ?_, ⟨fun y hy => hs.used.op y (wake_idle hy), fun y hy =>
    used_setClaims (s := s) hs hclaims hy, fun y hy => hs.used.resolved y (wake_resolved (s :=
      s) ▸ hy),
    fun h => ?_, hs.used.refs, hs.used.single, hs.used.entered, fun h => ?_⟩⟩
  · change ((s.slots.map f).map AnchorSlot.id).Pairwise _
    rw [List.map_map, show AnchorSlot.id ∘ f = AnchorSlot.id from funext hfid]
    exact hs.slots.ids
  · obtain ⟨t, hmem, rfl⟩ := List.mem_map.mp ht
    exact (hfid t).symm ▸ hs.slots.old t hmem
  · change ((s.slots.map f).map AnchorSlot.component).Nodup
    rw [List.map_map, show AnchorSlot.component ∘ f = AnchorSlot.component from funext hfcomp]
    exact hs.slots.components
  · have hne : i ≠ n := fun heq => not_mem_setClaims hs hclaims (heq ▸ hi)
    obtain ⟨t, ht, rfl, h⟩ := hs.slots.claimed y i ((mem_setClaims hclaims hne).mp hi)
    exact ⟨t, List.mem_map.mpr ⟨t, ht, hfne t hne⟩, rfl, h⟩
  · obtain ⟨t, hmem, rfl⟩ := List.mem_map.mp ht
    have hne : t.id ≠ n := fun heq => by
      rw [show _ = some inst from hfeq t heq] at hinst
      cases hinst
    change (f t).inst = none at hinst
    rw [hfne t hne] at hinst
    obtain ⟨hclaim, hbuilder⟩ := hs.slots.building t hmem hinst
    change (f t).id ∈ (s.setClaims x rest).claims (f t).claimant ∧
      (f t).builder = self fiber (f t).claimant
    rw [hfne t hne]
    exact ⟨(mem_setClaims hclaims hne).mpr hclaim, hbuilder⟩
  · refine List.nodup_cons.mpr ⟨fun hmem => ?_, hs.published.nodup⟩
    obtain ⟨p, hp, rfl⟩ := List.mem_map.mp hmem
    obtain ⟨t, ht, hid, hi⟩ := hs.published.kept hended p hp
    exact hready t ht _ hi hid
  · obtain ⟨t, hmem, rfl⟩ := List.mem_map.mp ht
    change (f t).inst = some i at hi
    change ((f t).id, i) ∈ (n, inst) :: s.published
    by_cases heq : t.id = n
    · rw [hfeq t heq, Option.some.injEq] at hi
      rw [hfid, heq, hi]
      exact List.mem_cons_self
    · rw [hfne t heq] at hi ⊢
      exact List.mem_cons_of_mem _ (hs.published.ready t hmem i hi)
  · rcases List.mem_cons.mp hp with rfl | hp
    · exact ⟨f t₀, List.mem_map_of_mem ht₀, (hfid t₀).trans hid₀, hfeq t₀ hid₀⟩
    · obtain ⟨t, ht, hid, hi⟩ := hs.published.kept hended p hp
      refine ⟨t, List.mem_map.mpr ⟨t, ht, hfne t (hready t ht _ hi)⟩, hid, hi⟩
  · exact hs.published.before hended
  · rw [show s.ended = true from h] at hended
    cases hended
  · rw [show ((s.publishIn x n rest inst).op y).waits = (s.op y).waits from
      wake_waits (s := s)] at h
    obtain ⟨hle, hslot⟩ := hs.waited y k e i h
    refine ⟨hle, hslot.imp_left ?_⟩
    rintro ⟨t, ht, hid, hk⟩
    exact ⟨f t, List.mem_map_of_mem ht, (hfid t).trans hid, (hfcomp t).trans hk⟩
  · rw [(hs.used.absent h).1] at ht₀
    cases ht₀
  · rw [show s.ended = true from h] at hended
    cases hended

omit [DecidableEq X] in
theorem mem_eraseP_id (hs : s.Slots fiber) :
    t ∈ s.slots.eraseP (·.id = n) ↔ t ∈ s.slots ∧ t.id ≠ n := by
  refine ⟨fun ht => ⟨List.mem_of_mem_eraseP ht, ?_⟩, fun ⟨ht, hne⟩ =>
    (List.mem_eraseP_of_neg (by simpa using hne)).mpr ht⟩
  rintro rfl
  obtain ⟨a, l₁, l₂, -, ha, hslots, herase⟩ :=
    List.exists_of_eraseP (List.mem_of_mem_eraseP ht) (p := (·.id = t.id)) (by simp)
  rw [herase] at ht
  have hnodup : (s.slots.map AnchorSlot.id).Nodup := hs.ids.imp Nat.ne_of_gt
  rw [hslots, List.map_append, List.map_cons, List.perm_middle.nodup_iff, ← List.map_append,
    List.nodup_cons] at hnodup
  exact hnodup.1 (of_decide_eq_true ha ▸ List.mem_map_of_mem ht)

theorem Sound.abandonIn (hs : s.Sound method fiber) (hclaims : s.claims x = n :: rest) :
    (s.abandonIn x n rest).Sound method fiber := by
  obtain ⟨⟨t₀, ht₀, hid₀, hnone₀, hclaimant₀⟩, hx, -, -⟩ := hs.innermost hclaims
  have hended := hs.ended_eq_false hx
  have hsub := List.eraseP_sublist (p := (·.id = n)) (l := s.slots)
  have hmem := fun t => mem_eraseP_id (t := t) (n := n) hs.slots
  refine ⟨⟨hs.slots.ids.sublist (hsub.map _), fun t ht => hs.slots.old t (hsub.subset ht),
    (hsub.map _).nodup hs.slots.components, fun y i hi => ?_, fun t ht hinst => ?_, fun y =>
    nodup_setClaims hs hclaims⟩, ⟨hs.published.nodup, fun t ht => hs.published.ready t
    (hsub.subset ht), fun _ p hp => ?_, fun _ => hs.published.before hended, fun h => ?_⟩,
    fun y k e i h => ?_, ⟨fun y hy => hs.used.op y (wake_idle hy), fun y hy =>
    used_setClaims (s := s) hs hclaims hy, fun y hy => hs.used.resolved y (wake_resolved (s :=
      s) ▸ hy),
    fun h => ?_, hs.used.refs, hs.used.single, hs.used.entered, fun h => ?_⟩⟩
  · have hne : i ≠ n := fun heq => not_mem_setClaims hs hclaims (heq ▸ hi)
    obtain ⟨t, ht, rfl, h⟩ := hs.slots.claimed y i ((mem_setClaims hclaims hne).mp hi)
    exact ⟨t, (hmem t).mpr ⟨ht, hne⟩, rfl, h⟩
  · obtain ⟨ht, hne⟩ := (hmem t).mp ht
    obtain ⟨hclaim, hbuilder⟩ := hs.slots.building t ht hinst
    exact ⟨(mem_setClaims hclaims hne).mpr hclaim, hbuilder⟩
  · obtain ⟨t, ht, hid, hi⟩ := hs.published.kept hended p hp
    refine ⟨t, (hmem t).mpr ⟨ht, fun heq => ?_⟩, hid, hi⟩
    rw [hs.slots.unique ht ht₀ (heq.trans hid₀.symm), hnone₀] at hi
    cases hi
  · rw [show s.ended = true from h] at hended
    cases hended
  · rw [show ((s.abandonIn x n rest).op y).waits = (s.op y).waits from
      wake_waits (s := s)] at h
    obtain ⟨hle, hslot⟩ := hs.waited y k e i h
    refine ⟨Nat.le_succ_of_le hle, ?_⟩
    rcases hslot with ⟨t, ht, hid, hk⟩ | ⟨hgone, hlt⟩
    · by_cases heq : t.id = n
      · rw [← hid, heq]
        exact .inr ⟨List.mem_cons_self, Nat.lt_succ_of_le hle⟩
      · exact .inl ⟨t, (hmem t).mpr ⟨ht, heq⟩, hid, hk⟩
    · exact .inr ⟨List.mem_cons_of_mem _ hgone, Nat.lt_succ_of_lt hlt⟩
  · rw [(hs.used.absent h).1] at ht₀
    cases ht₀
  · rw [show s.ended = true from h] at hended
    cases hended

/-! ## The life of the table -/

omit [DecidableEq X] in
theorem Sound.create (hs : s.Sound method fiber) (hx : x ∈ s.frames) :
    s.create.Sound method fiber ∧ s.create.present := by
  rw [AnchorScope.create]
  split
  · next hpresent => exact ⟨hs, hpresent⟩
  · next habsent =>
    rw [Bool.not_eq_true] at habsent
    refine ⟨⟨⟨hs.slots.ids, hs.slots.old, hs.slots.components, hs.slots.claimed,
      hs.slots.building, hs.slots.claims⟩, ⟨hs.published.nodup, hs.published.ready,
      hs.published.kept, hs.published.before, hs.published.after⟩, hs.waited,
      ⟨hs.used.op, hs.used.claims, fun _ _ => rfl, fun h => ?_, fun hmethod _ => ?_,
        fun _ h => ?_, fun h => ?_, hs.used.ended⟩⟩, rfl⟩
    · cases h
    · have hsingle := hs.used.single hmethod habsent
      have hpos : 0 < s.frames.length := List.length_pos_of_mem hx
      refine ⟨by change 1 = s.frames.length; omega, fun h => (hs.used.ended h).1, fun h => ?_⟩
      rw [show s.frames = [] from h] at hx
      cases hx
    · cases h
    · rw [(hs.used.entered h).1] at hx
      cases hx

omit [DecidableEq X] in
theorem Sound.tableEnd (hs : s.Sound method fiber) (hended : s.ended = false)
    (hop : ∀ x, s.op x = .idle) (hclaims : ∀ x, s.claims x = []) :
    Sound method fiber { s.tableEnd with frames := [], refs := 0 } where
  slots := ⟨.nil, by simp [AnchorScope.tableEnd], List.nodup_nil,
    by simp [AnchorScope.tableEnd, hclaims], by simp [AnchorScope.tableEnd], hs.slots.claims⟩
  published := by
    have hids : ((s.slots.filterMap fun t => t.inst.map (t.id, ·)).map Prod.fst).Pairwise
        (· > ·) := by
      have hsub : ((s.slots.filterMap fun t => t.inst.map (t.id, ·)).map Prod.fst).Sublist
          (s.slots.map AnchorSlot.id) := by
        rw [List.map_filterMap]
        generalize s.slots = slots
        induction slots with
        | nil => exact .slnil
        | cons t slots ih =>
          cases hinst : t.inst with
          | none => simpa [hinst] using ih.cons t.id
          | some i => simpa [hinst] using ih
      exact hs.slots.ids.sublist hsub
    have hsorted : ((s.slots.filterMap fun t => t.inst.map (t.id, ·)).reverse.map
        Prod.fst).Pairwise (· < ·) := by
      rw [List.map_reverse, List.pairwise_reverse]
      exact hids
    refine ⟨hs.published.nodup, by simp [AnchorScope.tableEnd],
      by simp [AnchorScope.tableEnd], by simp [AnchorScope.tableEnd], fun _ => ⟨hsorted, ?_⟩⟩
    refine (List.perm_ext_iff_of_nodup ?_ (.of_map _ hs.published.nodup)).mpr fun p => ?_
    · exact .of_map Prod.fst (hsorted.imp Nat.ne_of_lt)
    · simp only [AnchorScope.tableEnd, List.mem_reverse, List.mem_filterMap, Option.map_eq_some_iff]
      constructor
      · rintro ⟨t, ht, i, hi, rfl⟩
        exact hs.published.ready t ht i hi
      · intro hp
        obtain ⟨t, ht, hid, hi⟩ := hs.published.kept hended p hp
        exact ⟨t, ht, p.2, hi, Prod.ext hid rfl⟩
  waited x k e id h := by
    rw [show ({ s.tableEnd with frames := [], refs := 0 } : AnchorScope X K I).op x = .idle
      from hop x] at h
    cases h
  used := by
    refine ⟨fun x h => absurd (hop x) h, fun x h => absurd (hclaims x) h, fun x h => ?_,
      fun h => ⟨rfl, (hs.used.absent h).2⟩, fun _ _ => ⟨rfl, fun _ => rfl, fun _ => rfl⟩,
      fun _ _ => Nat.zero_le _, fun h => ⟨rfl, (hs.used.entered h).2⟩, fun _ => ⟨rfl, rfl⟩⟩
    rw [show ({ s.tableEnd with frames := [], refs := 0 } : AnchorScope X K I).op x = .idle
      from hop x] at h
    cases h

theorem Sound.leave (hs : s.Sound method fiber) (hx : x ∈ s.frames) (hop : s.op x = .idle)
    (hclaims : x ∈ s.frames.erase x ∨ s.claims x = []) :
    Sound method fiber (let s := { s with frames := s.frames.erase x }
      if method && s.present then s.tableRelease else s) := by
  have hended := hs.ended_eq_false hx
  have hlength := List.length_erase_of_mem hx
  have hpos : 0 < s.frames.length := List.length_pos_of_mem hx
  have hop' : ∀ y, s.op y ≠ .idle → y ∈ s.frames.erase x := fun y hy => by
    have hne : y ≠ x := by
      rintro rfl
      exact hy hop
    exact (List.mem_erase_of_ne hne).mpr (hs.used.op y hy)
  have hclaims' : ∀ y, s.claims y ≠ [] → y ∈ s.frames.erase x := fun y hy => by
    by_cases hne : y = x
    · subst hne
      exact hclaims.resolve_right hy
    · exact (List.mem_erase_of_ne hne).mpr (hs.used.claims y hy)
  have hentered : s.entered := by
    by_contra hnot
    rw [(hs.used.entered (by simpa using hnot)).1] at hx
    cases hx
  have hstay : ∀ refs, (method → s.present → refs = (s.frames.erase x).length ∧
      s.frames.erase x ≠ []) →
      Sound method fiber { s with frames := s.frames.erase x, refs := refs } := by
    intro refs hrefs
    refine ⟨⟨hs.slots.ids, hs.slots.old, hs.slots.components, hs.slots.claimed,
      hs.slots.building, hs.slots.claims⟩, ⟨hs.published.nodup, hs.published.ready,
      hs.published.kept, hs.published.before, hs.published.after⟩, hs.waited,
      ⟨hop', hclaims', hs.used.resolved, hs.used.absent, fun hmethod hpresent => ?_,
        fun hmethod habsent => ?_, fun h => ?_, fun h => ?_⟩⟩
    · obtain ⟨hcount, hne⟩ := hrefs hmethod hpresent
      refine ⟨hcount, fun h => ?_, fun h => absurd h hne⟩
      rw [show s.ended = true from h] at hended
      cases hended
    · have hsingle := hs.used.single hmethod habsent
      change (s.frames.erase x).length ≤ 1
      omega
    · rw [show s.entered = false from h] at hentered
      cases hentered
    · rw [show s.ended = true from h] at hended
      cases hended
  dsimp only
  split
  · next hcounted =>
    rw [Bool.and_eq_true] at hcounted
    have hrefs := (hs.used.refs hcounted.1 hcounted.2).1
    rw [tableRelease]
    split
    · next hlast =>
      have hlast : s.refs = 1 := hlast
      have hnil : s.frames.erase x = [] := List.length_eq_zero_iff.mp (by omega)
      have hempty : ∀ y, y ∉ s.frames.erase x := fun y => by rw [hnil]; exact List.not_mem_nil
      have hend := hs.tableEnd hended (fun y => by_contra fun h => hempty y (hop' y h))
        (fun y => by_contra fun h => hempty y (hclaims' y h))
      rw [← hnil] at hend
      exact hend
    · next hmore =>
      have hmore : s.refs ≠ 1 := hmore
      refine hstay (s.refs - 1) fun _ _ => ⟨by omega, fun hnil => ?_⟩
      rw [hnil, List.length_nil] at hlength
      omega
  · next huncounted =>
    refine hstay s.refs fun hmethod hpresent => absurd ?_ huncounted
    simp only [hmethod, hpresent, Bool.and_self]

omit [DecidableEq X] in
theorem Sound.enter (hs : s.Sound method fiber) (x : X) (hended : s.ended = false)
    (hnew : method → s.entered = false) :
    Sound method fiber { s with frames := x :: s.frames, entered := true } := by
  refine ⟨⟨hs.slots.ids, hs.slots.old, hs.slots.components, hs.slots.claimed,
    hs.slots.building, hs.slots.claims⟩, ⟨hs.published.nodup, hs.published.ready,
    hs.published.kept, hs.published.before, hs.published.after⟩, hs.waited,
    ⟨fun y hy => List.mem_cons_of_mem _ (hs.used.op y hy), fun y hy =>
      List.mem_cons_of_mem _ (hs.used.claims y hy), hs.used.resolved, hs.used.absent,
      fun hmethod hpresent => ?_, fun hmethod _ => ?_, fun h => ?_, fun h => ?_⟩⟩
  · have habsent := (hs.used.entered (hnew hmethod)).2
    rw [show s.present = true from hpresent] at habsent
    cases habsent
  · rw [(hs.used.entered (hnew hmethod)).1]
    exact Nat.le_refl 1
  · cases h
  · rw [show s.ended = true from h] at hended
    cases hended

omit [DecidableEq X] in
theorem Sound.inherit (hs : s.Sound method fiber) (hx : x ∈ s.frames) (child : X)
    (hrefs : method → s.present ∧ r = s.refs + 1) :
    Sound method fiber { s with frames := child :: s.frames, refs := r } := by
  have hended := hs.ended_eq_false hx
  refine ⟨⟨hs.slots.ids, hs.slots.old, hs.slots.components, hs.slots.claimed,
    hs.slots.building, hs.slots.claims⟩, ⟨hs.published.nodup, hs.published.ready,
    hs.published.kept, hs.published.before, hs.published.after⟩, hs.waited,
    ⟨fun y hy => List.mem_cons_of_mem _ (hs.used.op y hy), fun y hy =>
      List.mem_cons_of_mem _ (hs.used.claims y hy), hs.used.resolved, hs.used.absent,
      fun hmethod hpresent => ?_, fun hmethod habsent => ?_, fun h => ?_, fun h => ?_⟩⟩
  · obtain ⟨-, rfl⟩ := hrefs hmethod
    refine ⟨congrArg (· + 1) (hs.used.refs hmethod hpresent).1, fun h => ?_, fun h => ?_⟩
    · rw [show s.ended = true from h] at hended
      cases hended
    · cases h
  · rw [(hrefs hmethod).1] at habsent
    cases habsent
  · rw [(hs.used.entered h).1] at hx
    cases hx
  · rw [show s.ended = true from h] at hended
    cases hended

variable [DecidableEq K]

omit [DecidableEq X] in
theorem find?_component (h : s.slots.find? (·.component = k) = some t) :
    t ∈ s.slots ∧ t.component = k :=
  ⟨List.mem_of_find?_eq_some h, by simpa using List.find?_some h⟩

theorem Sound.acquireIn (hs : s.Sound method fiber) (hop : s.op x = .acquiring k w) :
    (s.acquireIn (self fiber x) x k w).1.Sound method fiber := by
  have hx : x ∈ s.frames := hs.used.op x (by simp [hop])
  have hpresent : s.present := hs.used.resolved x (by simp [hop, AnchorOp.resolved])
  rw [AnchorScope.acquireIn]
  split
  · next t hfind =>
    obtain ⟨ht, hk⟩ := find?_component hfind
    split
    · exact hs.idle x
    · split
      · exact hs.idle x
      · refine hs.setOp (fun _ => hx) (fun _ => hpresent) fun k' e id h => ?_
        cases h
        exact ⟨Nat.le_refl _, .inl ⟨t, ht, rfl, hk⟩⟩
  · next hfind =>
    split
    · exact hs.idle x
    · refine (hs.idle x).claim hx hpresent fun t ht hk => ?_
      have hne := List.find?_eq_none.mp hfind t ht
      simp only [decide_eq_true_eq] at hne
      exact hne hk

/-! ## Steps and runs -/

theorem sound_step (h : Step method fiber s l s') (hs : s.Sound method fiber) :
    s'.Sound method fiber := by
  obtain ⟨a, e⟩ := l
  cases a with
  | enter x =>
    simp only [Step, step, Option.ite_none_left_eq_some, Option.some.injEq, Prod.mk.injEq] at h
    obtain ⟨hfree, rfl, _⟩ := h
    simp only [Bool.or_eq_true, Bool.and_eq_true, not_or, not_and, Bool.not_eq_true] at hfree
    exact hs.enter x hfree.1 hfree.2
  | inherit x child =>
    simp only [Step, step, Option.ite_none_right_eq_some] at h
    obtain ⟨⟨hx, -⟩, h⟩ := h
    split at h
    · cases h
      obtain ⟨hs', hpresent⟩ := hs.create hx
      have hframes : s.create.frames = s.frames := by
        rw [create]
        split <;> rfl
      rw [← hframes] at hx ⊢
      exact hs'.inherit hx child fun _ => ⟨hpresent, rfl⟩
    · next hmethod =>
      cases h
      exact hs.inherit hx child fun h => absurd h hmethod
  | acquire x k =>
    simp only [Step, step, Option.ite_none_right_eq_some, Option.some.injEq, Prod.mk.injEq] at h
    obtain ⟨⟨hx, -⟩, rfl, _⟩ := h
    exact hs.setOp (fun _ => hx) (fun h => by cases h) fun _ _ _ h => by cases h
  | advance x =>
    simp only [Step, step] at h
    cases hop : s.op x with
    | resolving k =>
      rw [hop] at h
      cases h
      have hx : x ∈ s.frames := hs.used.op x (by simp [hop])
      refine hs.setOp (fun _ => hx) (fun h => ?_) fun k e id h => ?_
      · split at h
        · assumption
        · cases h
      · split at h <;> cases h
    | creating k =>
      rw [hop] at h
      cases h
      have hx : x ∈ s.frames := hs.used.op x (by simp [hop])
      obtain ⟨hs', hpresent⟩ := hs.create hx
      have hframes : s.create.frames = s.frames := by
        rw [create]
        split <;> rfl
      exact hs'.setOp (fun _ => hframes ▸ hx) (fun _ => hpresent) fun _ _ _ h => by cases h
    | acquiring k w =>
      rw [hop] at h
      have hacquire := hs.acquireIn hop
      rw [self, Option.some.inj h] at hacquire
      exact hacquire
    | idle | waiting =>
      rw [hop] at h
      cases h
  | spurious x =>
    simp only [Step, step] at h
    split at h
    · next k w hop =>
      split at h
      · cases h
      · cases h
        have hwaited := hs.waited x
        rw [hop] at hwaited
        exact hs.setOp (fun _ => hs.used.op x (by simp [hop]))
          (fun _ => hs.used.resolved x (by simp [hop, AnchorOp.resolved])) hwaited
    · cases h
  | publish x inst =>
    simp only [Step, step] at h
    split at h
    · next n rest _ hclaims =>
      cases h
      exact hs.publishIn hclaims inst
    · cases h
  | abandon x =>
    simp only [Step, step] at h
    split at h
    · next n rest _ hclaims =>
      cases h
      exact hs.abandonIn hclaims
    · cases h
  | leave x =>
    simp only [Step, step, Option.ite_none_right_eq_some, Option.some.injEq, Prod.mk.injEq] at h
    obtain ⟨⟨hx, hop, hclaims⟩, rfl, _⟩ := h
    exact hs.leave hx hop hclaims
  | dropObject =>
    simp only [Step, step, Option.ite_none_left_eq_some, Option.some.injEq, Prod.mk.injEq] at h
    obtain ⟨hfree, rfl, _⟩ := h
    simp only [Bool.or_eq_true, Bool.not_eq_true', not_or, Bool.not_eq_true,
      Bool.not_eq_false, List.isEmpty_iff] at hfree
    obtain ⟨⟨-, hended⟩, hframes⟩ := hfree
    have hempty : ∀ y, y ∉ s.frames := fun y => by rw [hframes]; exact List.not_mem_nil
    have hend := hs.tableEnd hended (fun y => by_contra fun h => hempty y (hs.used.op y h))
      (fun y => by_contra fun h => hempty y (hs.used.claims y h))
    rw [← hframes] at hend
    exact hend

theorem sound_run (h : Steps (Step method fiber) s ls s') (hs : s.Sound method fiber) :
    s'.Sound method fiber :=
  h.preserves (P := Sound method fiber) (fun _ _ _ ha hs => sound_step ha hs) hs

/-! ## What an acquire answers -/

theorem advance_answer (h : Step method fiber s (.advance x, e) s')
    (he : e = .cycle ∨ e = .failed ∨ e = .build) : ∃ k w, s.op x = .acquiring k w ∧
      s.acquireIn (self fiber x) x k w = (s', e) := by
  simp only [Step, step] at h
  cases hop : s.op x with
  | acquiring k w =>
    rw [hop] at h
    exact ⟨k, w, rfl, Option.some.inj h⟩
  | resolving k | creating k =>
    rw [hop] at h
    cases h
    rcases he with he | he | he <;> cases he
  | idle | waiting =>
    rw [hop] at h
    cases h

omit [DecidableEq X] [DecidableEq K] in
theorem Slots.builds_of_unready (hs : s.Slots fiber) (ht : t ∈ s.slots) (hinst : t.inst = none) :
    s.Builds t.claimant t.component :=
  ⟨t, ht, rfl, hinst, (hs.building t ht hinst).1⟩

/-- No plain thread asks for a component that another plain thread is building. -/
def TellsApart (fiber : X → Bool) (s : AnchorScope X K I)
    (l : AnchorAction X I K × AnchorEvent I) : Prop :=
  ∀ x k w, l.1 = .advance x → s.op x = .acquiring k w → fiber x = false →
    ∀ y, fiber y = false → s.Builds y k → y = x

theorem Sound.cycle (hs : s.Sound method fiber) (hguard : s.TellsApart fiber (.advance x, .cycle))
    (h : Step method fiber s (.advance x, .cycle) s') :
    ∃ k w, s.op x = .acquiring k w ∧ s.Builds x k := by
  obtain ⟨k, w, hop, hacquire⟩ := advance_answer h (.inl rfl)
  refine ⟨k, w, hop, ?_⟩
  rw [AnchorScope.acquireIn] at hacquire
  split at hacquire
  · next t hfind =>
    obtain ⟨ht, rfl⟩ := find?_component hfind
    split at hacquire
    · cases hacquire
    · next hinst =>
      split at hacquire
      · next hbuilder =>
        have hbuilds := hs.slots.builds_of_unready ht hinst
        rw [(hs.slots.building t ht hinst).2] at hbuilder
        cases hfiber : fiber x with
        | true =>
          rw [← self_inj hbuilder.symm hfiber] at hbuilds
          exact hbuilds
        | false =>
          have hplain : fiber t.claimant = false := by
            rw [self, self, hfiber] at hbuilder
            cases hclaimant : fiber t.claimant with
            | false => rfl
            | true => simp [hclaimant] at hbuilder
          rw [hguard x t.component w rfl hop hfiber t.claimant hplain hbuilds] at hbuilds
          exact hbuilds
      · cases hacquire
  · split at hacquire <;> cases hacquire

theorem Sound.failed (hs : s.Sound method fiber)
    (h : Step method fiber s (.advance x, .failed) s') :
    ∃ k e n, s.op x = .acquiring k (some (e, n)) ∧ n ∈ s.abandoned := by
  obtain ⟨k, w, hop, hacquire⟩ := advance_answer h (.inr (.inl rfl))
  rw [AnchorScope.acquireIn] at hacquire
  split at hacquire
  · split at hacquire
    · cases hacquire
    · split at hacquire <;> cases hacquire
  · next hfind =>
    split at hacquire
    · next hepoch =>
      cases w with
      | none => cases hepoch
      | some w =>
        obtain ⟨e, n⟩ := w
        refine ⟨k, e, n, hop, ?_⟩
        have hwaits := (hs.waited x k e n (by rw [hop]; rfl)).2
        refine (hwaits.resolve_left ?_).1
        rintro ⟨t, ht, -, hk⟩
        have hne := List.find?_eq_none.mp hfind t ht
        simp only [decide_eq_true_eq] at hne
        exact hne hk
    · cases hacquire

theorem build_unclaimed (h : Step method fiber s (.advance x, .build) s') :
    ∃ k w, s.op x = .acquiring k w ∧ ∀ y, ¬ s.Builds y k := by
  obtain ⟨k, w, hop, hacquire⟩ := advance_answer h (.inr (.inr rfl))
  refine ⟨k, w, hop, ?_⟩
  rw [acquireIn] at hacquire
  split at hacquire
  · split at hacquire
    · cases hacquire
    · split at hacquire <;> cases hacquire
  · next hfind =>
    rintro y ⟨t, ht, hk, -, -⟩
    have hne := List.find?_eq_none.mp hfind t ht
    simp only [decide_eq_true_eq] at hne
    exact hne hk

/-! ## The scope -/

/-- What holds of a scope, and of the next step of `R`. -/
structure BuildsOnce (method : Bool)
    (R : AnchorScope X K I → AnchorAction X I K × AnchorEvent I → AnchorScope X K I → Prop)
    (s : AnchorScope X K I) : Prop where
  slots : (s.slots.map AnchorSlot.component).Nodup
  builder : ∀ x y k, s.Builds x k → s.Builds y k → x = y
  build : ∀ x s', R s (.advance x, .build) s' →
    ∃ k w, s.op x = .acquiring k w ∧ ∀ y, ¬ s.Builds y k
  published : (s.published.map Prod.fst).Nodup
  cycle : ∀ x s', R s (.advance x, .cycle) s' → ∃ k w, s.op x = .acquiring k w ∧ s.Builds x k
  failed : ∀ x s', R s (.advance x, .failed) s' →
    ∃ k e n, s.op x = .acquiring k (some (e, n)) ∧ n ∈ s.abandoned
  /-- Nothing is dropped before the end, and then each instance once, the oldest last. -/
  dropped : (s.ended = false → s.dropped = []) ∧
    (s.ended → (s.dropped.map Prod.fst).Pairwise (· < ·) ∧ s.dropped.Perm s.published)
  /-- The scope of a method ends with its last frame or copy, that of an instance with its object.
  -/
  last : (method → s.present → s.refs = s.frames.length ∧ (s.ended ↔ s.refs = 0)) ∧
    (method = false → ∀ l s', R s l s' → s.ended = false → s'.ended → l.1 = .dropObject)

theorem acquireIn_ended : (s.acquireIn o x k w).1.ended = s.ended := by
  rw [acquireIn]
  split
  · split
    · rfl
    · split <;> rfl
  · split <;> rfl

theorem ends_of_instance (h : Step false fiber s l s') (hbefore : s.ended = false)
    (hafter : s'.ended) : l.1 = .dropObject := by
  have hsame : s'.ended = s.ended → l.1 = .dropObject := fun heq => by
    rw [heq, hbefore] at hafter
    cases hafter
  obtain ⟨a, e⟩ := l
  cases a with
  | dropObject => rfl
  | enter x =>
    simp only [Step, step, Option.ite_none_left_eq_some, Option.some.injEq, Prod.mk.injEq] at h
    obtain ⟨-, rfl, -⟩ := h
    exact hsame rfl
  | inherit x child =>
    simp only [Step, step, Option.ite_none_right_eq_some] at h
    obtain ⟨-, h⟩ := h
    cases h
    exact hsame rfl
  | acquire x k =>
    simp only [Step, step, Option.ite_none_right_eq_some, Option.some.injEq, Prod.mk.injEq] at h
    obtain ⟨-, rfl, -⟩ := h
    exact hsame rfl
  | advance x =>
    simp only [Step, step] at h
    split at h
    · cases h
      exact hsame rfl
    · cases h
      refine hsame ?_
      simp only [setOp, create]
      split <;> rfl
    · next k w hop =>
      have hsection := congrArg Prod.fst (Option.some.inj h)
      dsimp only at hsection
      refine hsame ?_
      rw [← hsection, acquireIn_ended]
    · cases h
  | spurious x =>
    simp only [Step, step] at h
    split at h
    · split at h
      · cases h
      · cases h
        exact hsame rfl
    · cases h
  | publish x inst | abandon x =>
    simp only [Step, step] at h
    split at h
    · cases h
      exact hsame rfl
    · cases h
  | leave x =>
    simp only [Step, step, Option.ite_none_right_eq_some, Option.some.injEq, Prod.mk.injEq] at h
    obtain ⟨-, rfl, -⟩ := h
    exact hsame rfl

/-- The scope builds and drops once as long as no two plain threads meet at one build. -/
theorem anchorScope_buildsOnce
    (h : Steps (Steps.guarded (Step method fiber) (TellsApart fiber)) initial ls s) :
    BuildsOnce method (Steps.guarded (Step method fiber) (TellsApart fiber)) s := by
  have hs : s.Sound method fiber := sound_run h.of_guarded sound_initial
  refine ⟨hs.slots.components, fun _ _ _ => hs.slots.builds, fun _ _ h => build_unclaimed h.2,
    hs.published.nodup, fun _ _ h => hs.cycle h.1 h.2, fun _ _ h => hs.failed h.2,
    ⟨hs.published.before, hs.published.after⟩, fun hmethod hpresent => ?_, fun hinstance _ _ h =>
    ends_of_instance (hinstance ▸ h.2)⟩
  obtain ⟨hrefs, hended⟩ := hs.used.refs hmethod hpresent
  refine ⟨hrefs, hended.trans ?_⟩
  rw [hrefs, List.length_eq_zero_iff]

/-- One fiber builds, another waits and gets the instance, and the end drops it. -/
theorem anchorScope_buildsOnce_sample : ∃ s : AnchorScope Nat Nat Nat,
    s.dropped = [(0, 7)] ∧ BuildsOnce true (Steps.guarded (Step true fun _ => true)
      (TellsApart fun _ => true)) s := by
  have hfiber : ∀ (s : AnchorScope Nat Nat Nat) l, s.TellsApart (fun _ => true) l :=
    fun _ _ _ _ _ _ _ h => absurd h (by simp)
  have hrun : ∃ s : AnchorScope Nat Nat Nat, s.dropped = [(0, 7)] ∧
      Steps (Steps.guarded (Step true fun _ => true) (TellsApart fun _ => true)) initial
        [(.enter 0, .none), (.acquire 0 3, .none), (.advance 0, .none), (.advance 0, .none),
          (.advance 0, .build), (.inherit 0 1, .none), (.acquire 1 3, .none),
          (.advance 1, .none), (.advance 1, .none), (.publish 0 7, .none),
          (.advance 1, .found 7), (.leave 1, .none), (.leave 0, .none)] s :=
    ⟨_, rfl, .cons ⟨hfiber _ _, rfl⟩ <| .cons ⟨hfiber _ _, rfl⟩ <| .cons ⟨hfiber _ _, rfl⟩ <|
      .cons ⟨hfiber _ _, rfl⟩ <| .cons ⟨hfiber _ _, rfl⟩ <| .cons ⟨hfiber _ _, rfl⟩ <|
      .cons ⟨hfiber _ _, rfl⟩ <| .cons ⟨hfiber _ _, rfl⟩ <| .cons ⟨hfiber _ _, rfl⟩ <|
      .cons ⟨hfiber _ _, rfl⟩ <| .cons ⟨hfiber _ _, rfl⟩ <| .cons ⟨hfiber _ _, rfl⟩ <|
      .cons ⟨hfiber _ _, rfl⟩ .nil⟩
  obtain ⟨s, hdropped, hsteps⟩ := hrun
  exact ⟨s, hdropped, anchorScope_buildsOnce hsteps⟩

/-- Two plain threads in the scope of an instance: the second is told of a cycle. -/
theorem not_buildsOnce_plainThreads :
    ¬ ∀ ls (s : AnchorScope Nat Nat Nat), Steps (Step false fun _ => false) initial ls s →
      BuildsOnce false (Step false fun _ => false) s := by
  intro hall
  have hrun : ∃ s s' : AnchorScope Nat Nat Nat, s.claims 1 = [] ∧
      Step false (fun _ => false) s (.advance 1, .cycle) s' ∧
      Steps (Step false fun _ => false) initial
        [(.enter 0, .none), (.enter 1, .none), (.acquire 0 3, .none), (.advance 0, .none),
          (.advance 0, .none), (.advance 0, .build), (.acquire 1 3, .none),
          (.advance 1, .none)] s :=
    ⟨_, _, rfl, rfl, .cons rfl <| .cons rfl <| .cons rfl <| .cons rfl <| .cons rfl <|
      .cons rfl <| .cons rfl <| .cons rfl .nil⟩
  obtain ⟨s, s', hclaims, hcycle, hsteps⟩ := hrun
  obtain ⟨k, w, -, t, -, -, -, hmem⟩ := (hall _ s hsteps).cycle 1 s' hcycle
  rw [hclaims] at hmem
  cases hmem

end AnchorScope

end Cajeta.Concurrent
