import Mathlib.Data.List.Nodup
import Mathlib.Logic.ExistsUnique
import Mathlib.Logic.Function.Basic
import Mathlib.Tactic.Common

/-!
# Parked fibers

A fiber that waits is linked into a list: a wait queue, or the list that somebody is publishing. All
of these lists go through one link of the fiber, so that it may stand in one of them, and once.
-/

namespace Cajeta.Concurrent

/-- `CAJETA_FIBER_RUNNING`, `CAJETA_FIBER_PARKED`, `CAJETA_FIBER_READY` -/
inductive FiberState where
  | running
  | parked
  | ready
deriving DecidableEq

/-- The fibers with the lists that they are linked into. -/
structure Parking (Q X : Type) where
  lists : Q → List X
  state : X → FiberState

namespace Parking
variable {Q X : Type}

def initial : Parking Q X := ⟨fun _ => [], fun _ => .running⟩

section
variable [DecidableEq Q] [DecidableEq X]

/-- The fiber enqueues itself and is parked. -/
def park (s : Parking Q X) (q : Q) (x : X) : Parking Q X where
  lists := Function.update s.lists q (s.lists q ++ [x])
  state := Function.update s.state x .parked

/-- As `park`, at the head of the list. -/
def parkFront (s : Parking Q X) (q : Q) (x : X) : Parking Q X where
  lists := Function.update s.lists q (x :: s.lists q)
  state := Function.update s.state x .parked

/-- Detaches the fibers `out` from a list, of which `rest` is left, and puts them before the ones
of another list. -/
def shift (s : Parking Q X) (q q' : Q) (out rest : List X) : Parking Q X :=
  { s with lists := Function.update (Function.update s.lists q rest) q' (out ++ s.lists q') }

/-- `__cajeta_publish_ready` of the first fiber of a list. -/
def publish (s : Parking Q X) (q : Q) : Parking Q X :=
  match s.lists q with
  | [] => s
  | x :: xs => ⟨Function.update s.lists q xs, Function.update s.state x .ready⟩

/-- A carrier runs a fiber that has been published. -/
def resume (s : Parking Q X) (x : X) : Parking Q X :=
  { s with state := Function.update s.state x .running }

end

/-! ## One place for every parked fiber -/

/-- The parked fibers are the ones in the lists, each in one of them and once. -/
structure Ok (s : Parking Q X) : Prop where
  nodup : ∀ q, (s.lists q).Nodup
  unique : ∀ x q q', x ∈ s.lists q → x ∈ s.lists q' → q = q'
  parked : ∀ x, s.state x = .parked ↔ ∃ q, x ∈ s.lists q

section
variable {s : Parking Q X}

theorem initial_ok : (initial : Parking Q X).Ok where
  nodup _ := .nil
  unique _ _ _ h := absurd h List.not_mem_nil
  parked _ := iff_of_false (fun h => FiberState.noConfusion h) fun ⟨_, h⟩ => List.not_mem_nil h

theorem Ok.not_mem (h : s.Ok) (hx : s.state x ≠ .parked) (q : Q) : x ∉ s.lists q :=
  fun hq => hx ((h.parked x).mpr ⟨q, hq⟩)

theorem Ok.existsUnique [DecidableEq X] (h : s.Ok) (hx : s.state x = .parked) :
    ∃! q, x ∈ s.lists q ∧ (s.lists q).count x = 1 := by
  obtain ⟨q, hq⟩ := (h.parked x).mp hx
  exact ⟨q, ⟨hq, List.count_eq_one_of_mem (h.nodup q) hq⟩, fun q' hq' => h.unique x q' q hq'.1 hq⟩

end

variable [DecidableEq Q] [DecidableEq X] {s : Parking Q X}

omit [DecidableEq X] in
theorem shift_lists_of_ne (h : r ≠ q) (h' : r ≠ q') :
    (s.shift q q' out rest).lists r = s.lists r :=
  (Function.update_of_ne h' ..).trans (Function.update_of_ne h ..)

omit [DecidableEq X] in
theorem shift_lists_self (h : q ≠ q') : (s.shift q q' out rest).lists q = rest := by
  simp [shift, h]

theorem park_lists_of_ne (h : r ≠ q) : (s.park q x).lists r = s.lists r :=
  Function.update_of_ne h ..

theorem publish_lists_of_ne (h : r ≠ q) : (s.publish q).lists r = s.lists r := by
  unfold publish
  split
  · rfl
  · exact Function.update_of_ne h ..

theorem Ok.mem_park (h : s.Ok) (hx : s.state x ≠ .parked) :
    y ∈ (s.park q x).lists r ↔ if y = x then r = q else y ∈ s.lists r := by
  have hx' := h.not_mem hx r
  by_cases hr : r = q
  · subst hr
    by_cases hy : y = x
    · simp [Parking.park, hy]
    · simp [Parking.park, hy]
  · by_cases hy : y = x
    · subst hy
      simp [Parking.park, hr, hx']
    · simp [Parking.park, hr, hy]

theorem Ok.mem_shift (h : s.Ok) (hp : (s.lists q).Perm (out ++ rest)) (hne : q ≠ q') :
    y ∈ (s.shift q q' out rest).lists r ↔ if y ∈ out then r = q' else y ∈ s.lists r := by
  have hmem : y ∈ s.lists q ↔ y ∈ out ∨ y ∈ rest := by rw [hp.mem_iff, List.mem_append]
  have hdis : y ∈ out → y ∉ rest := fun ho hr =>
    (List.nodup_append.mp (hp.nodup_iff.mp (h.nodup q))).2.2 y ho y hr rfl
  have huniq := h.unique y q r
  by_cases h' : r = q'
  · subst h'
    have : ¬r = q := fun h => hne h.symm
    by_cases ho : y ∈ out <;> simp [Parking.shift, ho]
  · by_cases hr : r = q
    · subst hr
      by_cases ho : y ∈ out <;> simp [Parking.shift, h', hmem, ho, hdis]
    · by_cases ho : y ∈ out
      · have : y ∉ s.lists r := fun hy => hr (huniq (hmem.mpr (.inl ho)) hy).symm
        simp [Parking.shift, h', hr, ho, this]
      · simp [Parking.shift, h', hr, ho]

theorem Ok.mem_publish (h : s.Ok) (hq : s.lists q = x :: xs) :
    y ∈ (s.publish q).lists r ↔ y ≠ x ∧ y ∈ s.lists r := by
  have hx : x ∈ s.lists q := hq ▸ List.mem_cons_self ..
  have hnodup := hq ▸ h.nodup q
  have huniq := h.unique x r q
  unfold Parking.publish
  simp only [hq]
  by_cases hr : r = q
  · subst hr
    rw [Function.update_self, hq, List.mem_cons]
    constructor
    · intro hy
      exact ⟨fun e => (List.nodup_cons.mp hnodup).1 (e ▸ hy), .inr hy⟩
    · rintro ⟨hne, hy⟩
      exact hy.resolve_left hne
  · rw [Function.update_of_ne hr]
    exact ⟨fun hy => ⟨fun e => hr (huniq (e ▸ hy) hx), hy⟩, And.right⟩

theorem Ok.park (h : s.Ok) (hx : s.state x ≠ .parked) : (s.park q x).Ok where
  nodup r := by
    unfold Parking.park
    by_cases hr : r = q
    · subst hr
      simp only [Function.update_self]
      exact List.nodup_append.mpr ⟨h.nodup r, List.nodup_singleton x,
        fun a ha b hb hab => h.not_mem hx r (by rwa [← List.mem_singleton.mp hb, ← hab])⟩
    · simp only [Function.update_of_ne hr]
      exact h.nodup r
  unique y a b ha hb := by
    rw [h.mem_park hx] at ha hb
    split at ha
    · next hy =>
      rw [if_pos hy] at hb
      rw [ha, hb]
    · next hy =>
      rw [if_neg hy] at hb
      exact h.unique y a b ha hb
  parked y := by
    simp only [h.mem_park hx]
    by_cases hy : y = x
    · subst hy
      simp [Parking.park]
    · simp [Parking.park, hy, h.parked y]

theorem Ok.shift (h : s.Ok) (hp : (s.lists q).Perm (out ++ rest)) (hne : q ≠ q') :
    (s.shift q q' out rest).Ok where
  nodup r := by
    obtain ⟨hout, hrest, -⟩ := List.nodup_append.mp (hp.nodup_iff.mp (h.nodup q))
    unfold Parking.shift
    by_cases h' : r = q'
    · subst h'
      simp only [Function.update_self]
      exact List.nodup_append.mpr ⟨hout, h.nodup r, fun a ha b hb hab =>
        hne (h.unique a q r (hp.mem_iff.mpr (List.mem_append_left _ ha)) (hab ▸ hb))⟩
    · by_cases hr : r = q
      · subst hr
        simpa only [Function.update_of_ne h', Function.update_self] using hrest
      · simpa only [Function.update_of_ne h', Function.update_of_ne hr] using h.nodup r
  unique y a b ha hb := by
    rw [h.mem_shift hp hne] at ha hb
    split at ha
    · next hy =>
      rw [if_pos hy] at hb
      rw [ha, hb]
    · next hy =>
      rw [if_neg hy] at hb
      exact h.unique y a b ha hb
  parked y := by
    show s.state y = .parked ↔ _
    simp only [h.mem_shift hp hne, h.parked y]
    by_cases hy : y ∈ out
    · simp only [hy, if_true, exists_eq, iff_true]
      exact ⟨q, hp.mem_iff.mpr (List.mem_append_left _ hy)⟩
    · simp only [hy, if_false]

theorem Ok.publish (h : s.Ok) (q : Q) : (s.publish q).Ok := by
  cases hq : s.lists q with
  | nil =>
    unfold Parking.publish
    rw [hq]
    exact h
  | cons x xs =>
    refine ⟨fun r => ?_, fun y a b ha hb => ?_, fun y => ?_⟩
    · unfold Parking.publish
      simp only [hq]
      by_cases hr : r = q
      · subst hr
        simpa only [Function.update_self] using (List.nodup_cons.mp (hq ▸ h.nodup r)).2
      · simpa only [Function.update_of_ne hr] using h.nodup r
    · rw [h.mem_publish hq] at ha hb
      exact h.unique y a b ha.2 hb.2
    · simp only [h.mem_publish hq, exists_and_left, ← h.parked y]
      unfold Parking.publish
      simp only [hq]
      by_cases hy : y = x
      · simp [hy]
      · simp [hy]

omit [DecidableEq Q] in
theorem Ok.resume (h : s.Ok) (hx : s.state x ≠ .parked) : (s.resume x).Ok where
  nodup := h.nodup
  unique := h.unique
  parked y := by
    show Function.update s.state x .running y = .parked ↔ _
    by_cases hy : y = x
    · subst hy
      simp only [Function.update_self, reduceCtorEq, false_iff]
      exact fun ⟨q, hq⟩ => h.not_mem hx q hq
    · rw [Function.update_of_ne hy]
      exact h.parked y

/-! ## What a suspended fiber waits for -/

/-- `want` tells for which list a fiber is suspended, if it is. A fiber in one of the lists `wait`
is suspended for this list; the others hold fibers that have been taken out and not published. -/
structure Waiting (wait : Q → Prop) (want : X → Option Q) (s : Parking Q X) : Prop where
  ok : s.Ok
  of_mem : ∀ x q, x ∈ s.lists q → wait q → want x = some q
  suspended : ∀ x, s.state x ≠ .running ↔ want x ≠ none

namespace Waiting
variable {wait : Q → Prop} {want want' : X → Option Q} {s' : Parking Q X}

omit [DecidableEq Q] [DecidableEq X] in
theorem congr (h : s.Waiting wait want) (hw : ∀ x, want' x = want x) : s.Waiting wait want' :=
  (funext hw : want' = want) ▸ h

omit [DecidableEq Q] [DecidableEq X] in
theorem state_eq (h : s.Waiting wait want) (hx : want x = none) : s.state x = .running :=
  not_not.mp fun hne => (h.suspended x).mp hne hx

omit [DecidableEq Q] [DecidableEq X] in
theorem cases_of_want (h : s.Waiting wait want) (hx : want x = some q) :
    x ∈ s.lists q ∨ (∃ r, ¬wait r ∧ x ∈ s.lists r) ∨ s.state x = .ready := by
  cases hst : s.state x with
  | running => exact absurd hst ((h.suspended x).mpr (by rw [hx]; exact Option.some_ne_none q))
  | ready => exact .inr (.inr rfl)
  | parked =>
    obtain ⟨r, hr⟩ := (h.ok.parked x).mp hst
    by_cases hw : wait r
    · have := (h.of_mem x r hr hw).symm.trans hx
      exact .inl (Option.some.inj this ▸ hr)
    · exact .inr (.inl ⟨r, hw, hr⟩)

theorem park (h : s.Waiting wait want) (hx : want x = none) (hq : want' x = some q)
    (hother : ∀ y, y ≠ x → want' y = want y) : (s.park q x).Waiting wait want' := by
  have hpark : s.state x ≠ .parked := by rw [h.state_eq hx]; exact fun e => by cases e
  refine ⟨h.ok.park hpark, fun y r hy hr => ?_, fun y => ?_⟩
  · rw [h.ok.mem_park hpark] at hy
    split at hy
    · next e => rw [e, hq, hy]
    · next e => rw [hother y e, h.of_mem y r hy hr]
  · show Function.update s.state x .parked y ≠ .running ↔ _
    by_cases hy : y = x
    · subst hy
      rw [Function.update_self, hq]
      exact iff_of_true (fun e => by cases e) (Option.some_ne_none q)
    · rw [Function.update_of_ne hy, hother y hy, h.suspended y]

omit [DecidableEq Q] [DecidableEq X] in
theorem of_perm (h : s.Waiting wait want) (hl : ∀ q, (s'.lists q).Perm (s.lists q))
    (hs : s'.state = s.state) : s'.Waiting wait want where
  ok := by
    refine ⟨fun q => (hl q).nodup_iff.mpr (h.ok.nodup q), fun x q q' hq hq' => ?_, fun x => ?_⟩
    · exact h.ok.unique x q q' ((hl q).mem_iff.mp hq) ((hl q').mem_iff.mp hq')
    · rw [hs, h.ok.parked x]
      exact exists_congr fun q => (hl q).mem_iff.symm
  of_mem x q hx hq := h.of_mem x q ((hl q).mem_iff.mp hx) hq
  suspended x := by rw [hs, h.suspended x]

theorem parkFront (h : s.Waiting wait want) (hx : want x = none) (hq : want' x = some q)
    (hother : ∀ y, y ≠ x → want' y = want y) : (s.parkFront q x).Waiting wait want' := by
  refine (h.park hx hq hother).of_perm (fun r => ?_) rfl
  by_cases hr : r = q
  · subst hr
    simpa [Parking.parkFront, Parking.park] using (List.perm_append_singleton x (s.lists r)).symm
  · simp [Parking.parkFront, Parking.park, hr]

theorem shift (h : s.Waiting wait want) (hp : (s.lists q).Perm (out ++ rest)) (hne : q ≠ q')
    (hw : ¬wait q') : (s.shift q q' out rest).Waiting wait want := by
  refine ⟨h.ok.shift hp hne, fun y r hy hr => ?_, h.suspended⟩
  rw [h.ok.mem_shift hp hne] at hy
  split at hy
  · exact absurd (hy ▸ hr) hw
  · exact h.of_mem y r hy hr

theorem publish (h : s.Waiting wait want) (q : Q) : (s.publish q).Waiting wait want := by
  cases hl : s.lists q with
  | nil =>
    unfold Parking.publish
    rwa [hl]
  | cons x xs =>
    refine ⟨h.ok.publish q, fun y r hy hr => ?_, fun y => ?_⟩
    · exact h.of_mem y r ((h.ok.mem_publish hl).mp hy).2 hr
    · have hx : s.state x = .parked := (h.ok.parked x).mpr ⟨q, hl ▸ List.mem_cons_self ..⟩
      rw [← h.suspended y]
      unfold Parking.publish
      simp only [hl]
      by_cases hy : y = x
      · subst hy
        rw [Function.update_self, hx]
        exact iff_of_true (fun e => by cases e) fun e => by cases e
      · rw [Function.update_of_ne hy]

omit [DecidableEq Q] in
theorem resume (h : s.Waiting wait want) (hx : s.state x = .ready) (hq : want' x = none)
    (hother : ∀ y, y ≠ x → want' y = want y) : (s.resume x).Waiting wait want' := by
  have hpark : s.state x ≠ .parked := by rw [hx]; exact fun e => by cases e
  refine ⟨h.ok.resume hpark, fun y r hy hr => ?_, fun y => ?_⟩
  · have hne : y ≠ x := fun e => h.ok.not_mem hpark r (e ▸ hy)
    rw [hother y hne]
    exact h.of_mem y r hy hr
  · show Function.update s.state x .running y ≠ .running ↔ _
    by_cases hy : y = x
    · subst hy
      rw [Function.update_self, hq]
      exact iff_of_false (fun e => e rfl) fun e => e rfl
    · rw [Function.update_of_ne hy, hother y hy, h.suspended y]

end Waiting

omit [DecidableEq Q] [DecidableEq X] in
theorem initial_waiting {wait : Q → Prop} {want : X → Option Q} (hw : ∀ x, want x = none) :
    initial.Waiting wait want where
  ok := initial_ok
  of_mem _ _ h := absurd h List.not_mem_nil
  suspended x := iff_of_false (fun h => h rfl) fun h => h (hw x)

end Parking

end Cajeta.Concurrent
