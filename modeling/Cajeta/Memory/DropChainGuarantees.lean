import Cajeta.Memory.DropChain
import Mathlib.Data.List.Nodup

/-!
# What the drop chain guarantees

Every armed entry is dropped once, in the reverse order of the pushes, and a disarmed one never, in
every run in which no throw leaves a drop function for a region outside it.
-/

namespace Cajeta.Memory.DropChain
variable {s s' : DropChain} {stack : List DropFrame} {ids : List Nat}

/-- Each region and each running drop function stands on a part of the chain, the outer ones on
lower parts; a throw goes to the region right below it. -/
def Nested : List DropFrame → List Nat → Prop
  | [], _ => True
  | .region w :: stack, ids => ∃ part, part <:+ ids ∧ part.head? = w ∧ Nested stack part
  | .popRun i :: stack, ids | .unwinding i :: stack, ids =>
    ∃ part, i :: part <:+ ids ∧ Nested stack part
  | .throwing :: stack, ids => (∃ w rest, stack = .region w :: rest) ∧ Nested stack ids

theorem Nested.mono (h : Nested stack ids) (hsuffix : ids <:+ ids') : Nested stack ids' := by
  induction stack generalizing ids ids' with
  | nil => trivial
  | cons frame stack ih =>
    cases frame with
    | region w =>
      obtain ⟨part, hpart, hhead, hnested⟩ := h
      exact ⟨part, hpart.trans hsuffix, hhead, hnested⟩
    | popRun i | unwinding i =>
      obtain ⟨part, hpart, hnested⟩ := h
      exact ⟨part, hpart.trans hsuffix, hnested⟩
    | throwing =>
      obtain ⟨hregion, hnested⟩ := h
      exact ⟨hregion, ih hnested hsuffix⟩

theorem Nested.tail (h : Nested stack (i :: ids)) (hrun : stack.head? ≠ some .throwing)
    (hmarked : ¬ marked stack i) : Nested stack ids := by
  cases stack with
  | nil => trivial
  | cons frame stack =>
    cases frame with
    | region w =>
      obtain ⟨part, hpart, hhead, hnested⟩ := h
      rcases List.suffix_cons_iff.mp hpart with rfl | hpart
      · simp [marked, ← hhead] at hmarked
      · exact ⟨part, hpart, hhead, hnested⟩
    | popRun j | unwinding j =>
      obtain ⟨part, hpart, hnested⟩ := h
      rcases List.suffix_cons_iff.mp hpart with heq | hpart
      · cases heq
        simp [marked] at hmarked
      · exact ⟨part, hpart, hnested⟩
    | throwing => exact absurd rfl hrun

theorem Nested.mem_of_running (h : Nested stack ids) (hi : i ∈ running stack) : i ∈ ids := by
  induction stack generalizing ids with
  | nil => cases hi
  | cons frame stack ih =>
    cases frame with
    | region w =>
      obtain ⟨part, hpart, -, hnested⟩ := h
      exact hpart.subset (ih hnested hi)
    | popRun j | unwinding j =>
      obtain ⟨part, hpart, hnested⟩ := h
      rcases List.mem_cons.mp hi with rfl | hi
      · exact hpart.subset List.mem_cons_self
      · exact hpart.subset (List.mem_cons_of_mem _ (ih hnested hi))
    | throwing => exact ih h.2 hi

/-! ## The invariant -/

/-- The entries are linked in the order of their pushes, and the calls of drop functions are
accounted for by the entries that are gone and by those whose drop function is running. -/
structure Sound (s : DropChain) : Prop where
  ids : s.ids.Pairwise (· > ·)
  old : ∀ i ∈ s.ids, i < s.next
  nested : Nested s.stack s.ids
  linked : ∀ i ∈ s.ids, (∀ b, .leave i b ∉ s.log) ∧
    s.starts i = if i ∈ running s.stack then 1 else 0
  left : ∀ i, .leave i true ∈ s.log → s.starts i = 1
  gone : ∀ i < s.next, i ∈ s.ids ∨ ∃ b, .leave i b ∈ s.log
  fresh : ∀ i, s.next ≤ i → s.starts i = 0 ∧ ∀ b, .leave i b ∉ s.log

theorem sound_initial : initial.Sound where
  ids := .nil
  old _ hi := absurd hi List.not_mem_nil
  nested := trivial
  linked _ hi := absurd hi List.not_mem_nil
  left _ hi := absurd hi List.not_mem_nil
  gone i hi := absurd hi (Nat.not_lt_zero i)
  fresh _ _ := ⟨rfl, fun _ => List.not_mem_nil⟩

@[simp] theorem starts_call :
    (s.call i frame).starts j = s.starts j + if i = j then 1 else 0 := by
  simp [starts, call, List.count_cons]

@[simp] theorem starts_unlink {e : DropEntry} :
    starts { s.unlink e rest with stack } j = s.starts j := by
  simp [starts, DropChain.unlink]

@[simp] theorem ids_setFlag : (s.setFlag i flag).ids = s.ids := by
  simp only [DropChain.ids, setFlag, List.map_map]
  refine List.map_congr_left fun e _ => ?_
  simp only [Function.comp_apply]
  split <;> rfl

theorem ids_of_chain {e : DropEntry} (h : s.chain = e :: rest) :
    s.ids = e.id :: rest.map DropEntry.id := by
  rw [DropChain.ids, h, List.map_cons]

theorem Sound.restack (hs : s.Sound) (hnested : Nested stack s.ids)
    (hrun : running stack = running s.stack) : Sound { s with stack } where
  ids := hs.ids
  old := hs.old
  nested := hnested
  linked i hi := by
    change _ ∧ _ = if i ∈ running stack then 1 else 0
    rw [hrun]
    exact hs.linked i hi
  left := hs.left
  gone := hs.gone
  fresh := hs.fresh

theorem Sound.setFlag (hs : s.Sound) (i : Nat) (flag : Bool) : (s.setFlag i flag).Sound where
  ids := by rw [ids_setFlag]; exact hs.ids
  old := by rw [ids_setFlag]; exact hs.old
  nested := by rw [ids_setFlag]; exact hs.nested
  linked := by rw [ids_setFlag]; exact hs.linked
  left := hs.left
  gone := by rw [ids_setFlag]; exact hs.gone
  fresh := hs.fresh

theorem Sound.pushFlag (hs : s.Sound) (dropFn flag : Bool) : (s.pushFlag dropFn flag).Sound where
  ids := List.pairwise_cons.mpr ⟨hs.old, hs.ids⟩
  old i hi := by
    rcases List.mem_cons.mp hi with rfl | hi
    · exact Nat.lt_succ_self _
    · exact Nat.lt_succ_of_lt (hs.old i hi)
  nested := hs.nested.mono (List.suffix_cons _ _)
  linked i hi := by
    rcases List.mem_cons.mp hi with rfl | hi
    · obtain ⟨hstarts, hleave⟩ := hs.fresh s.next (Nat.le_refl _)
      refine ⟨hleave, hstarts.trans (if_neg ?_).symm⟩
      exact fun hrun => Nat.lt_irrefl _ (hs.old _ (hs.nested.mem_of_running hrun))
    · exact hs.linked i hi
  left := hs.left
  gone i hi := by
    rcases Nat.lt_succ_iff_lt_or_eq.mp hi with hi | rfl
    · exact (hs.gone i hi).imp_left (List.mem_cons_of_mem _)
    · exact .inl List.mem_cons_self
  fresh i hi := hs.fresh i (Nat.le_of_succ_le hi)

theorem Sound.call (hs : s.Sound) (hi : i ∈ s.ids) (hidle : i ∉ running s.stack)
    (hnested : Nested (frame :: s.stack) s.ids)
    (hrun : running (frame :: s.stack) = i :: running s.stack) : (s.call i frame).Sound where
  ids := hs.ids
  old := hs.old
  nested := hnested
  linked j hj := by
    obtain ⟨hleave, hstarts⟩ := hs.linked j hj
    refine ⟨fun b hb => ?_, ?_⟩
    · rcases List.mem_cons.mp hb with hb | hb
      · cases hb
      · exact hleave b hb
    · rw [starts_call, hstarts]
      change _ = if j ∈ running (frame :: s.stack) then 1 else 0
      rw [hrun]
      by_cases heq : i = j
      · subst heq
        simp [hidle]
      · simp [heq, Ne.symm heq]
  left j hj := by
    rcases List.mem_cons.mp hj with hj | hj
    · cases hj
    · have hne : i ≠ j := by
        rintro rfl
        exact (hs.linked i hi).1 true hj
      rw [starts_call, if_neg hne, hs.left j hj]
  gone j hj := (hs.gone j hj).imp_right fun ⟨b, hb⟩ => ⟨b, List.mem_cons_of_mem _ hb⟩
  fresh j hj := by
    obtain ⟨hstarts, hleave⟩ := hs.fresh j hj
    have hne : i ≠ j := Nat.ne_of_lt (Nat.lt_of_lt_of_le (hs.old i hi) hj)
    refine ⟨by rw [starts_call, if_neg hne, hstarts], fun b hb => ?_⟩
    rcases List.mem_cons.mp hb with hb | hb
    · cases hb
    · exact hleave b hb

/-- The top entry goes, and with it the frame of its drop function when that was called. -/
theorem Sound.unlink {e : DropEntry} (hs : s.Sound) (hchain : s.chain = e :: rest)
    (hnested : Nested k (rest.map DropEntry.id))
    (hrun : ∀ i ∈ rest.map DropEntry.id, i ∈ running k ↔ i ∈ running s.stack)
    (harmed : e.armed → s.starts e.id = 1) : Sound { s.unlink e rest with stack := k } := by
  have hids := ids_of_chain hchain
  have hmem : ∀ i ∈ rest.map DropEntry.id, i ∈ s.ids := fun i hi => by
    rw [hids]
    exact List.mem_cons_of_mem _ hi
  have htop : e.id ∈ s.ids := by rw [hids]; exact List.mem_cons_self
  have hlt : ∀ i ∈ rest.map DropEntry.id, i < e.id := by
    have hsorted := hs.ids
    rw [hids, List.pairwise_cons] at hsorted
    exact hsorted.1
  refine ⟨?_, fun i hi => hs.old i (hmem i hi), hnested, fun i hi => ?_, fun i hi => ?_,
    fun i hi => ?_, fun i hi => ?_⟩
  · have hsorted := hs.ids
    rw [hids, List.pairwise_cons] at hsorted
    exact hsorted.2
  · obtain ⟨hleave, hstarts⟩ := hs.linked i (hmem i hi)
    refine ⟨fun b hb => ?_, ?_⟩
    · rcases List.mem_cons.mp hb with hb | hb
      · cases hb
        exact Nat.lt_irrefl _ (hlt _ hi)
      · exact hleave b hb
    · rw [starts_unlink, hstarts]
      simp only [hrun i hi]
  · rw [starts_unlink]
    rcases List.mem_cons.mp hi with hi | hi
    · injection hi with heq harm
      subst heq
      exact harmed harm.symm
    · exact hs.left i hi
  · rcases hs.gone i hi with h | ⟨b, hb⟩
    · rw [hids] at h
      rcases List.mem_cons.mp h with rfl | h
      · exact .inr ⟨_, List.mem_cons_self⟩
      · exact .inl h
    · exact .inr ⟨b, List.mem_cons_of_mem _ hb⟩
  · obtain ⟨hstarts, hleave⟩ := hs.fresh i hi
    refine ⟨by rw [starts_unlink, hstarts], fun b hb => ?_⟩
    rcases List.mem_cons.mp hb with hb | hb
    · cases hb
      exact Nat.lt_irrefl _ (Nat.lt_of_lt_of_le (hs.old _ htop) hi)
    · exact hleave b hb

/-! ## The steps -/

/-- No throw leaves a drop function for a region outside it. -/
def Contained (s : DropChain) (a : DropAction) : Prop :=
  a = .throw → s.stack = unwindTo s.stack ∨ unwindTo s.stack = []

theorem runs_iff : s.runs ↔ s.exited = false ∧ s.stack.head? ≠ some .throwing := by
  simp [runs]

theorem Sound.idle {e : DropEntry} (hs : s.Sound) (hchain : s.chain = e :: rest)
    (hnested : Nested stack (rest.map DropEntry.id)) : e.id ∉ running stack := by
  intro hrun
  have hsorted := hs.ids
  rw [ids_of_chain hchain, List.pairwise_cons] at hsorted
  exact Nat.lt_irrefl _ (hsorted.1 _ (hnested.mem_of_running hrun))

theorem Sound.popRun {e : DropEntry} (hs : s.Sound) (hchain : s.chain = e :: rest)
    (hrun : s.stack.head? ≠ some .throwing) (hmarked : ¬ marked s.stack e.id) :
    (s.call e.id (.popRun e.id)).Sound ∧ (¬ e.armed → (s.unlink e rest).Sound) := by
  have hids := ids_of_chain hchain
  have hnested : Nested s.stack (rest.map DropEntry.id) :=
    Nested.tail (i := e.id) (hids ▸ hs.nested) hrun hmarked
  refine ⟨hs.call ?_ (hs.idle hchain hnested) ⟨_, ?_, hnested⟩ rfl, fun harmed =>
    hs.unlink (k := s.stack) hchain hnested (fun _ _ => .rfl) (absurd · harmed)⟩
  · rw [hids]
    exact List.mem_cons_self
  · exact hids ▸ List.suffix_rfl

theorem Sound.throw (hs : s.Sound) (hcontained : s.Contained .throw) : s.throw.Sound := by
  unfold DropChain.throw
  split
  · next w rest hregion =>
    have hstack := hcontained rfl
    rw [hregion] at hstack
    have hstack : s.stack = .region w :: rest := hstack.resolve_right (by simp)
    exact hs.restack ⟨⟨w, rest, hstack⟩, hs.nested⟩ rfl
  · exact ⟨hs.ids, hs.old, hs.nested, hs.linked, hs.left, hs.gone, hs.fresh⟩

theorem Sound.throwing (hs : s.Sound) (hthrow : s.stack.head? = some .throwing) :
    ∃ w rest, s.stack = .throwing :: .region w :: rest ∧ Nested (.region w :: rest) s.ids := by
  obtain ⟨stack, hstack⟩ := List.head?_eq_some_iff.mp hthrow
  have hnested := hs.nested
  rw [hstack] at hnested
  obtain ⟨⟨w, rest, rfl⟩, hnested⟩ := hnested
  exact ⟨w, rest, hstack, hnested⟩

theorem Sound.unwind (hs : s.Sound) (hthrow : s.stack.head? = some .throwing) :
    s.unwind.Sound := by
  obtain ⟨w, rest, hstack, hnested⟩ := hs.throwing hthrow
  have hcaught : Sound { s with stack := .region w :: rest } :=
    hs.restack hnested (by rw [hstack]; rfl)
  cases hchain : s.chain with
  | nil =>
    simp only [DropChain.unwind, hstack, unwindTo, hchain]
    exact hchain ▸ hcaught
  | cons e chain =>
    have hids := ids_of_chain hchain
    simp only [DropChain.unwind, hstack, unwindTo, hchain]
    split
    · exact hchain ▸ hcaught
    · next hne =>
      have htail : Nested (.region w :: rest) (chain.map DropEntry.id) :=
        Nested.tail (i := e.id) (hids ▸ hnested) (by simp) (by simpa [marked] using hne)
      have hstill : Nested s.stack (chain.map DropEntry.id) := by
        rw [hstack]
        exact ⟨⟨w, rest, rfl⟩, htail⟩
      split
      · refine hs.call ?_ (hs.idle hchain hstill) ⟨_, ?_, hstill⟩ rfl
        · rw [hids]
          exact List.mem_cons_self
        · exact hids ▸ List.suffix_rfl
      · next harmed =>
        exact hs.unlink (k := s.stack) hchain hstill (fun _ _ => .rfl) (absurd · harmed)

theorem Sound.returns {e : DropEntry} (hs : s.Sound) (hchain : s.chain = e :: rest)
    (hrunning : running s.stack = e.id :: running stack) (hpart : e.id :: part <:+ s.ids)
    (hnested : Nested stack part) : Sound { s.unlink e rest with stack } := by
  have hids := ids_of_chain hchain
  have hsorted := hs.ids
  rw [hids, List.pairwise_cons] at hsorted
  refine hs.unlink hchain ?_ (fun i hi => ?_) fun _ => ?_
  · rw [hids] at hpart
    rcases List.suffix_cons_iff.mp hpart with heq | hpart
    · cases heq
      exact hnested
    · exact absurd (hsorted.1 _ (hpart.subset List.mem_cons_self)) (Nat.lt_irrefl _)
  · rw [hrunning, List.mem_cons]
    exact ⟨.inr, fun h => h.resolve_left (Nat.ne_of_lt (hsorted.1 i hi))⟩
  · have hlinked := (hs.linked e.id (hpart.subset List.mem_cons_self)).2
    rwa [hrunning, if_pos List.mem_cons_self] at hlinked

theorem sound_step (hcontained : s.Contained a) (h : Step s a s') (hs : s.Sound) : s'.Sound := by
  cases a with
  | push dropFn flag =>
    simp only [Step, step, Option.ite_none_right_eq_some, Option.some.injEq] at h
    obtain ⟨_, rfl⟩ := h
    exact hs.pushFlag dropFn flag
  | setFlag i flag =>
    simp only [Step, step, Option.ite_none_right_eq_some, Option.some.injEq] at h
    obtain ⟨_, rfl⟩ := h
    exact hs.setFlag i flag
  | markInactive i =>
    simp only [Step, step, Option.ite_none_right_eq_some, Option.some.injEq] at h
    obtain ⟨_, rfl⟩ := h
    exact hs.setFlag i false
  | takeActive i =>
    simp only [Step, step, Option.ite_none_right_eq_some, Option.some.injEq] at h
    obtain ⟨_, rfl⟩ := h
    exact hs.setFlag i false
  | popRun =>
    simp only [Step, step] at h
    split at h
    · cases h
    · next e rest hchain =>
      split at h
      · cases h
      · next hfree =>
        simp only [Bool.or_eq_true, Bool.not_eq_true', not_or, Bool.not_eq_false] at hfree
        obtain ⟨hcall, hunlink⟩ := hs.popRun hchain (runs_iff.mp hfree.1).2 hfree.2
        split at h
        · cases h
          exact hcall
        · next harmed =>
          cases h
          exact hunlink harmed
  | excPush =>
    simp only [Step, step, Option.ite_none_right_eq_some, Option.some.injEq] at h
    obtain ⟨_, rfl⟩ := h
    exact hs.restack ⟨s.ids, List.suffix_rfl, rfl, hs.nested⟩ rfl
  | excPop =>
    simp only [Step, step] at h
    split at h
    · next w stack hstack =>
      split at h
      · cases h
      · cases h
        have hnested := hs.nested
        rw [hstack] at hnested
        obtain ⟨part, hpart, -, hnested⟩ := hnested
        exact hs.restack (hnested.mono hpart) (by rw [hstack]; rfl)
    · cases h
  | throw =>
    simp only [Step, step, Option.ite_none_right_eq_some, Option.some.injEq] at h
    obtain ⟨_, rfl⟩ := h
    exact hs.throw hcontained
  | unwind =>
    simp only [Step, step, Option.ite_none_right_eq_some, Option.some.injEq] at h
    obtain ⟨hthrow, rfl⟩ := h
    exact hs.unwind hthrow
  | returns =>
    simp only [Step, step] at h
    split at h
    case h_3 => cases h
    all_goals
      rename_i i stack e rest hstack hchain
      split at h
      · cases h
      · next hfree =>
        cases h
        simp only [Bool.or_eq_true, not_or] at hfree
        have hi : e.id = i := by simpa using hfree.2
        have hnested := hs.nested
        rw [hstack, ← hi] at hnested
        obtain ⟨part, hpart, hnested⟩ := hnested
        exact hs.returns hchain (by rw [hstack, hi]; rfl) hpart hnested

theorem sound_run (h : Steps (Steps.guarded Step Contained) initial as s) : s.Sound :=
  Steps.preserves (P := Sound) (fun _ _ _ ha hs => sound_step ha.1 ha.2 hs) h sound_initial

theorem step_cases (h : Step s a s') :
    (∃ dropFn flag, s' = s.pushFlag dropFn flag) ∨
    (∃ i flag, s' = s.setFlag i flag ∧ (flag → a = .setFlag i flag)) ∨
    (∃ stack exited, s' = { s with stack, exited }) ∨
    (∃ e rest frame, s.chain = e :: rest ∧ e.armed ∧ s' = s.call e.id frame) ∨
    ∃ e rest stack, s.chain = e :: rest ∧ s' = { s.unlink e rest with stack } := by
  cases a with
  | push dropFn flag =>
    simp only [Step, step, Option.ite_none_right_eq_some, Option.some.injEq] at h
    exact .inl ⟨dropFn, flag, h.2.symm⟩
  | setFlag i flag =>
    simp only [Step, step, Option.ite_none_right_eq_some, Option.some.injEq] at h
    exact .inr (.inl ⟨i, flag, h.2.symm, fun _ => rfl⟩)
  | markInactive i | takeActive i =>
    simp only [Step, step, Option.ite_none_right_eq_some, Option.some.injEq] at h
    exact .inr (.inl ⟨i, false, h.2.symm, fun hflag => absurd hflag (by simp)⟩)
  | popRun =>
    simp only [Step, step] at h
    split at h
    · cases h
    · next e rest hchain =>
      split at h
      · cases h
      · split at h
        · next harmed =>
          cases h
          exact .inr (.inr (.inr (.inl ⟨e, rest, _, hchain, harmed, rfl⟩)))
        · cases h
          exact .inr (.inr (.inr (.inr ⟨e, rest, s.stack, hchain, rfl⟩)))
  | excPush =>
    simp only [Step, step, Option.ite_none_right_eq_some, Option.some.injEq] at h
    exact .inr (.inr (.inl ⟨_, _, h.2.symm⟩))
  | excPop =>
    simp only [Step, step] at h
    split at h
    · split at h
      · cases h
      · cases h
        exact .inr (.inr (.inl ⟨_, _, rfl⟩))
    · cases h
  | throw =>
    simp only [Step, step, Option.ite_none_right_eq_some, Option.some.injEq] at h
    obtain ⟨_, rfl⟩ := h
    unfold throw
    split
    · exact .inr (.inr (.inl ⟨_, _, rfl⟩))
    · exact .inr (.inr (.inl ⟨_, _, rfl⟩))
  | unwind =>
    simp only [Step, step, Option.ite_none_right_eq_some, Option.some.injEq] at h
    obtain ⟨_, rfl⟩ := h
    unfold unwind
    split
    · next e rest _ hchain =>
      split
      · exact .inr (.inr (.inl ⟨_, _, rfl⟩))
      · split
        · next harmed => exact .inr (.inr (.inr (.inl ⟨e, rest, _, hchain, harmed, rfl⟩)))
        · exact .inr (.inr (.inr (.inr ⟨e, rest, s.stack, hchain, rfl⟩)))
    · exact .inr (.inr (.inl ⟨_, _, rfl⟩))
  | returns =>
    simp only [Step, step] at h
    split at h
    case h_3 => cases h
    all_goals
      rename_i i stack e rest hstack hchain
      split at h
      · cases h
      · cases h
        exact .inr (.inr (.inr (.inr ⟨e, rest, stack, hchain, rfl⟩)))

/-- No entry of that number is linked and active, nor will one be pushed. -/
structure Disarmed (s : DropChain) (i : Nat) : Prop where
  old : i < s.next
  off : ∀ e ∈ s.chain, e.id = i → ¬ e.active

theorem disarmed_step (h : Step s a s') (hne : a ≠ .setFlag i true) (hd : s.Disarmed i) :
    s'.Disarmed i ∧ s'.starts i = s.starts i := by
  rcases step_cases h with ⟨dropFn, flag, rfl⟩ | ⟨j, flag, rfl, hflag⟩ | ⟨stack, exited, rfl⟩ |
    ⟨e, rest, frame, hchain, harmed, rfl⟩ | ⟨e, rest, stack, hchain, rfl⟩
  · refine ⟨⟨Nat.lt_succ_of_lt hd.old, fun e he heq => ?_⟩, rfl⟩
    rcases List.mem_cons.mp he with rfl | he
    · exact absurd heq (Nat.ne_of_gt hd.old)
    · exact hd.off e he heq
  · refine ⟨⟨hd.old, fun e he heq => ?_⟩, rfl⟩
    obtain ⟨e, hmem, rfl⟩ := List.mem_map.mp he
    by_cases hj : e.id = j
    · rw [if_pos hj] at heq ⊢
      intro hactive
      change flag = true at hactive
      change e.id = i at heq
      have hflag := hflag hactive
      rw [hactive, ← hj, heq] at hflag
      exact hne hflag
    · rw [if_neg hj] at heq ⊢
      exact hd.off e hmem heq
  · exact ⟨⟨hd.old, hd.off⟩, rfl⟩
  · refine ⟨⟨hd.old, hd.off⟩, ?_⟩
    have hactive : e.active = true := by
      rw [DropEntry.armed, Bool.and_eq_true] at harmed
      exact harmed.1
    have hdiff : e.id ≠ i := fun heq =>
      hd.off e (by rw [hchain]; exact List.mem_cons_self) heq hactive
    rw [starts_call, if_neg hdiff, Nat.add_zero]
  · refine ⟨⟨hd.old, fun e' he' heq => hd.off e' ?_ heq⟩, starts_unlink⟩
    rw [hchain]
    exact List.mem_cons_of_mem _ he'

theorem disarmed_run (h : Steps Step s as s') (hne : .setFlag i true ∉ as) (hd : s.Disarmed i) :
    s'.starts i = s.starts i := by
  induction h with
  | nil => rfl
  | cons ha _ ih =>
    rw [List.mem_cons, not_or] at hne
    obtain ⟨hd', hstarts⟩ := disarmed_step ha (Ne.symm hne.1) hd
    rw [ih hne.2 hd', hstarts]

/-! ## The discipline -/

structure Disciplined (s : DropChain) : Prop where
  /-- An entry that was active when it left has been dropped once. -/
  once : ∀ i, .leave i true ∈ s.log → s.starts i = 1
  /-- An entry that is disarmed before its drop function runs is not dropped. -/
  disarmed : ∀ e ∈ s.chain, ¬ e.active → e.id ∉ running s.stack → ∀ as s', Steps Step s as s' →
    .setFlag e.id true ∉ as → s'.starts e.id = 0
  /-- The entry that is dropped is the top one, and all later ones have left. -/
  reverse : ∀ a s' i, Step s a s' → s'.log = .start i :: s.log →
    s.top = some i ∧ ∀ j, i < j → j < s.next → ∃ b, .leave j b ∈ s.log
  /-- A throw is caught with the chain as the region found it. -/
  caught : ∀ s' w stack, Step s .unwind s' → s'.stack = .region w :: stack → s'.top = w

theorem Sound.disciplined (hs : s.Sound) : s.Disciplined := by
  refine ⟨hs.left, fun e he hoff hidle as s' hrun hne => ?_, fun a s' i hstep hlog => ?_,
    fun s' w stack hstep hstack => ?_⟩
  · have hi : e.id ∈ s.ids := List.mem_map_of_mem he
    have hd : s.Disarmed e.id := by
      refine ⟨hs.old _ hi, fun e' he' heq => ?_⟩
      have hnodup : s.ids.Nodup := hs.ids.imp Nat.ne_of_gt
      rw [List.inj_on_of_nodup_map hnodup he' he heq]
      exact hoff
    rw [disarmed_run hrun hne hd, (hs.linked _ hi).2, if_neg hidle]
  · have htop : ∃ e rest, s.chain = e :: rest ∧ e.id = i := by
      rcases step_cases hstep with ⟨_, _, rfl⟩ | ⟨_, _, rfl, _⟩ | ⟨_, _, rfl⟩ |
        ⟨e, rest, _, hchain, _, rfl⟩ | ⟨_, _, _, _, rfl⟩
      · exact absurd hlog.symm (List.cons_ne_self _ _)
      · exact absurd hlog.symm (List.cons_ne_self _ _)
      · exact absurd hlog.symm (List.cons_ne_self _ _)
      · injection hlog with hlog
        injection hlog with heq
        exact ⟨e, rest, hchain, heq⟩
      · injection hlog with hlog
        cases hlog
    obtain ⟨e, rest, hchain, rfl⟩ := htop
    have hids := ids_of_chain hchain
    refine ⟨by rw [top, hids]; rfl, fun j hlt hj => (hs.gone j hj).resolve_left fun hmem => ?_⟩
    have hsorted := hs.ids
    rw [hids, List.pairwise_cons] at hsorted
    rw [hids] at hmem
    rcases List.mem_cons.mp hmem with rfl | hmem
    · exact Nat.lt_irrefl _ hlt
    · exact Nat.lt_asymm hlt (hsorted.1 j hmem)
  · simp only [Step, step, Option.ite_none_right_eq_some, Option.some.injEq] at hstep
    obtain ⟨hthrow, rfl⟩ := hstep
    obtain ⟨w', rest, hthrowing, hnested⟩ := hs.throwing hthrow
    cases hchain : s.chain with
    | nil =>
      simp only [DropChain.unwind, hthrowing, unwindTo, hchain] at hstack ⊢
      cases hstack
      obtain ⟨part, hpart, rfl, -⟩ := hnested
      rw [DropChain.ids, hchain] at hpart
      rw [List.suffix_nil.mp hpart]
      rfl
    | cons e chain =>
      simp only [DropChain.unwind, hthrowing, unwindTo, hchain] at hstack ⊢
      split at hstack
      · next heq =>
        cases hstack
        rw [if_pos heq, heq]
        rfl
      · split at hstack
        · cases hstack
        · cases hthrowing.symm.trans hstack

/-- The chain is disciplined in every state of a run in which no throw leaves a drop function. -/
theorem dropChain_disciplined (h : Steps (Steps.guarded Step Contained) initial as s) :
    s.Disciplined :=
  (sound_run h).disciplined

/-- A throw goes past two entries, one of them moved out. -/
theorem dropChain_disciplined_sample : ∃ s : DropChain,
    s.log = [.leave 0 false, .leave 1 true, .start 1] ∧ s.Disciplined := by
  have hcalm : ∀ a, a ≠ .throw → ∀ s, Contained s a := fun _ hne _ heq => absurd heq hne
  have hrun : ∃ s : DropChain, s.log = [.leave 0 false, .leave 1 true, .start 1] ∧
      Steps (Steps.guarded Step Contained) initial
        [.excPush, .push true true, .push true true, .markInactive 0, .throw, .unwind, .returns,
          .unwind, .unwind, .excPop] s :=
    ⟨_, rfl, .cons ⟨hcalm _ (by simp) _, rfl⟩ <| .cons ⟨hcalm _ (by simp) _, rfl⟩ <|
      .cons ⟨hcalm _ (by simp) _, rfl⟩ <| .cons ⟨hcalm _ (by simp) _, rfl⟩ <|
      .cons ⟨fun _ => .inl rfl, rfl⟩ <| .cons ⟨hcalm _ (by simp) _, rfl⟩ <|
      .cons ⟨hcalm _ (by simp) _, rfl⟩ <| .cons ⟨hcalm _ (by simp) _, rfl⟩ <|
      .cons ⟨hcalm _ (by simp) _, rfl⟩ <| .cons ⟨hcalm _ (by simp) _, rfl⟩ .nil⟩
  obtain ⟨s, hlog, hsteps⟩ := hrun
  exact ⟨s, hlog, dropChain_disciplined hsteps⟩

/-- A drop function that throws at a scope exit is called once more by its own throw. -/
theorem not_disciplined_throwingDrop :
    ¬ ∀ as (s : DropChain), Steps Step initial as s → s.Disciplined := by
  intro hall
  have hrun : ∃ s : DropChain, s.log = [.leave 0 true, .start 0, .start 0] ∧ Steps Step initial
      [.excPush, .push true true, .popRun, .throw, .unwind, .returns, .unwind] s :=
    ⟨_, rfl, .cons rfl <| .cons rfl <| .cons rfl <| .cons rfl <| .cons rfl <| .cons rfl <|
      .cons rfl .nil⟩
  obtain ⟨s, hlog, hsteps⟩ := hrun
  have honce := (hall _ s hsteps).once 0 (by rw [hlog]; exact List.mem_cons_self)
  rw [starts, hlog] at honce
  exact absurd honce (by decide)

end Cajeta.Memory.DropChain
