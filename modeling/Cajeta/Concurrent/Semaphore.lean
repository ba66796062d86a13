import Cajeta.Lib.Transition
import Mathlib.Data.List.Nodup
import Mathlib.Data.List.Perm.Subperm
import Mathlib.Logic.Function.Basic
import Mathlib.Tactic.Common

/-!
# The semaphore

Calls of `withPermit` by any number of fibers, which can be cancelled at any time. The lock is taken
by a look that finds it free, and a look of a fiber with a pending cancellation throws; a fiber that
has parked may look again at any time.
-/

namespace Cajeta.Concurrent

/-- Where a call of `withPermit` stands. -/
inductive PermitPc where
  | idle
  /-- In `acquire`, before a look at the lock. -/
  | acquireLock
  | acquireCheck
  /-- Before `condvarWait`. -/
  | acquireWait
  | waiting
  | acquireTake
  | acquireUnlock
  | body
  /-- In `release`, before a look at the lock; the body may have thrown. -/
  | releaseLock (thrown : Bool)
  | releaseGive (thrown : Bool)
  | releaseNotify (thrown : Bool)
  | releaseUnlock (thrown : Bool)
  | ended (thrown : Bool)
deriving DecidableEq

namespace PermitPc

def locks : PermitPc → Bool
  | .acquireCheck => true
  | .acquireWait => true
  | .acquireTake => true
  | .acquireUnlock => true
  | .releaseGive _ => true
  | .releaseNotify _ => true
  | .releaseUnlock _ => true
  | _ => false

/-- The call has taken a permit and not returned it. -/
def permit : PermitPc → Bool
  | .acquireUnlock => true
  | .body => true
  | .releaseLock _ => true
  | .releaseGive _ => true
  | _ => false

/-- The call has not begun or has ended. -/
def inactive : PermitPc → Bool
  | .idle => true
  | .ended _ => true
  | _ => false

end PermitPc

/-- The semaphore with the calls `X` of the fibers `F`. -/
structure Semaphore (X F : Type) where
  count : Int
  held : Bool
  cancelWith : F → Bool
  pc : X → PermitPc

namespace Semaphore
variable {X F : Type}

def new (initial : Int) : Semaphore X F := ⟨initial, false, fun _ => false, fun _ => .idle⟩

/-- The value that `availablePermits` reads. -/
def availablePermits (s : Semaphore X F) : Int := s.count

variable [DecidableEq X] [DecidableEq F]

def goto (s : Semaphore X F) (x : X) (pc : PermitPc) : Semaphore X F :=
  { s with pc := Function.update s.pc x pc }

/-- The steps of a call `x` of the fiber `owner x`. -/
inductive Action (X F : Type) where
  | begin (x : X)
  /-- A look of `lockAcquire`. -/
  | look (x : X)
  | check (x : X)
  | wait (x : X)
  /-- The waiter is notified, or wakes up without a notification. -/
  | wake (x : X)
  | take (x : X)
  | bodyEnd (x : X) (thrown : Bool)
  | give (x : X)
  | notifyAll (x : X)
  | unlock (x : X)
  /-- A scope cancels a fiber, or another wait of it takes the cancellation. -/
  | cancel (f : F) (flag : Bool)

/-- A look at the lock: a pending cancellation is thrown, a free lock is taken, and at a held one
the fiber parks. -/
def look (owner : X → F) (s : Semaphore X F) (x : X) (next : PermitPc) : Semaphore X F :=
  if s.cancelWith (owner x) then
    { s with cancelWith := Function.update s.cancelWith (owner x) false }.goto x (.ended true)
  else if !s.held then { s with held := true }.goto x next
  else s

def step (owner : X → F) (s : Semaphore X F) : Action X F → Option (Semaphore X F)
  | .begin x => if s.pc x = .idle then some (s.goto x .acquireLock) else none
  | .look x =>
    match s.pc x with
    | .acquireLock => some (s.look owner x .acquireCheck)
    | .releaseLock thrown => some (s.look owner x (.releaseGive thrown))
    | _ => none
  | .check x =>
    if s.pc x = .acquireCheck then
      some (s.goto x (if s.count ≤ 0 then .acquireWait else .acquireTake))
    else none
  | .wait x =>
    if s.pc x = .acquireWait then some ({ s with held := false }.goto x .waiting) else none
  | .wake x => if s.pc x = .waiting then some (s.goto x .acquireLock) else none
  | .take x =>
    if s.pc x = .acquireTake then some ({ s with count := s.count - 1 }.goto x .acquireUnlock)
    else none
  | .bodyEnd x thrown => if s.pc x = .body then some (s.goto x (.releaseLock thrown)) else none
  | .give x =>
    match s.pc x with
    | .releaseGive thrown => some ({ s with count := s.count + 1 }.goto x (.releaseNotify thrown))
    | _ => none
  | .notifyAll x =>
    match s.pc x with
    | .releaseNotify thrown => some (s.goto x (.releaseUnlock thrown))
    | _ => none
  | .unlock x =>
    match s.pc x with
    | .acquireUnlock => some ({ s with held := false }.goto x .body)
    | .releaseUnlock thrown => some ({ s with held := false }.goto x (.ended thrown))
    | _ => none
  | .cancel f flag => some { s with cancelWith := Function.update s.cancelWith f flag }

abbrev Step (owner : X → F) (s : Semaphore X F) (a : Action X F) (s' : Semaphore X F) : Prop :=
  s.step owner a = some s'

/-- The look of a `release` finds no pending cancellation. -/
def Admits (owner : X → F) (s : Semaphore X F) : Action X F → Prop
  | .look x => ∀ thrown, s.pc x = .releaseLock thrown → s.cancelWith (owner x) = false
  | _ => True

/-! ## Conservation of the permits -/

variable {s s' : Semaphore X F} {owner : X → F}

/-! ### What a step does -/

/-- The lock stays as it is, or the call takes or releases it. -/
inductive LockEffect (s s' : Semaphore X F) (old new : PermitPc) : Prop where
  | stay (hh : s'.held = s.held) (hl : new.locks = old.locks)
  | take (hfree : s.held = false) (hh : s'.held = true) (hl : new.locks = true)
  | release (hold : old.locks = true) (hh : s'.held = false) (hl : new.locks = false)

/-- The permits stay as they are, or the call takes one, returns one, or loses it. -/
inductive PermitEffect (owner : X → F) (s s' : Semaphore X F) (a : Action X F) (x : X)
    (old new : PermitPc) : Prop where
  | stay (hc : s'.count = s.count) (hp : new.permit = old.permit)
    (ht : new = .acquireTake → 0 < s.count)
  | take (hold : old = .acquireTake) (hc : s'.count = s.count - 1) (hp : new.permit = true)
    (ht : new ≠ .acquireTake)
  | give (hold : old.permit = true) (hc : s'.count = s.count + 1) (hp : new.permit = false)
    (ht : new ≠ .acquireTake)
  | lose (ha : a = .look x) (hold : old = .releaseLock thrown)
    (hcancel : s.cancelWith (owner x) = true) (hc : s'.count = s.count)
    (hnew : new = .ended true)

theorem step_cases (hs : Step owner s a s') :
    (s'.pc = s.pc ∧ s'.held = s.held ∧ s'.count = s.count) ∨
      ∃ x new, s'.pc = Function.update s.pc x new ∧ LockEffect s s' (s.pc x) new ∧
        PermitEffect owner s s' a x (s.pc x) new := by
  have hlook {x : X} {old next : PermitPc} (he : s.look owner x next = s') (hx : s.pc x = old)
    (ho : old.locks = false)
      (hn : next.locks = true) (hp : next.permit = old.permit) (ht : next ≠ .acquireTake)
      (hlose : s.cancelWith (owner x) = true → PermitEffect owner s
        (({ s with cancelWith := Function.update s.cancelWith (owner x) false } :
          Semaphore X F).goto x (.ended true)) (.look x) x old (.ended true)) :
      (s'.pc = s.pc ∧ s'.held = s.held ∧ s'.count = s.count) ∨
        ∃ y new, s'.pc = Function.update s.pc y new ∧ LockEffect s s' (s.pc y) new ∧
          PermitEffect owner s s' (.look x) y (s.pc y) new := by
    subst he
    unfold look
    split
    · next hc => exact .inr ⟨x, .ended true, rfl, .stay rfl (by rw [hx, ho]; rfl), hx ▸ hlose hc⟩
    split
    · next hh =>
      rw [Bool.not_eq_true'] at hh
      exact .inr ⟨x, next, rfl, .take hh rfl hn, .stay rfl (by rw [hx, hp]) fun e => absurd e ht⟩
    · exact .inl ⟨rfl, rfl, rfl⟩
  have hif {c : Prop} [Decidable c] {t : Semaphore X F}
      (h : (if c then some t else none) = some s') :
      c ∧ t = s' := by
    split at h
    · next hc => exact ⟨hc, Option.some.inj h⟩
    · cases h
  cases a with
  | begin x =>
    obtain ⟨hx, rfl⟩ := hif hs
    exact .inr ⟨x, _, rfl, .stay rfl (by rw [hx]; rfl),
      .stay rfl (by rw [hx]; rfl) fun e => by cases e⟩
  | look x =>
    simp only [Step, step] at hs
    split at hs
    · next hx =>
      refine hlook (Option.some.inj hs) hx rfl rfl rfl (fun e => by cases e) fun _ => ?_
      exact .stay rfl rfl fun e => by cases e
    · next thrown hx =>
      refine hlook (Option.some.inj hs) hx rfl rfl rfl (fun e => by cases e) fun hc => ?_
      exact .lose rfl rfl hc rfl rfl
    · cases hs
  | check x =>
    obtain ⟨hx, rfl⟩ := hif hs
    refine .inr ⟨x, _, rfl, .stay rfl ?_, .stay rfl ?_ fun e => ?_⟩
    · rw [hx]
      split <;> rfl
    · rw [hx]
      split <;> rfl
    · split at e
      · cases e
      · next hc => exact Int.not_le.mp hc
  | wait x =>
    obtain ⟨hx, rfl⟩ := hif hs
    exact .inr ⟨x, _, rfl, .release (by rw [hx]; rfl) rfl rfl,
      .stay rfl (by rw [hx]; rfl) fun e => by cases e⟩
  | wake x =>
    obtain ⟨hx, rfl⟩ := hif hs
    exact .inr ⟨x, _, rfl, .stay rfl (by rw [hx]; rfl),
      .stay rfl (by rw [hx]; rfl) fun e => by cases e⟩
  | take x =>
    obtain ⟨hx, rfl⟩ := hif hs
    exact .inr ⟨x, _, rfl, .stay rfl (by rw [hx]; rfl), .take hx rfl rfl fun e => by cases e⟩
  | bodyEnd x thrown =>
    obtain ⟨hx, rfl⟩ := hif hs
    exact .inr ⟨x, _, rfl, .stay rfl (by rw [hx]; rfl),
      .stay rfl (by rw [hx]; rfl) fun e => by cases e⟩
  | give x =>
    simp only [Step, step] at hs
    split at hs
    · next thrown hx =>
      cases hs
      exact .inr ⟨x, _, rfl, .stay rfl (by rw [hx]; rfl),
        .give (by rw [hx]; rfl) rfl rfl fun e => by cases e⟩
    · cases hs
  | notifyAll x =>
    simp only [Step, step] at hs
    split at hs
    · next thrown hx =>
      cases hs
      exact .inr ⟨x, _, rfl, .stay rfl (by rw [hx]; rfl),
        .stay rfl (by rw [hx]; rfl) fun e => by cases e⟩
    · cases hs
  | unlock x =>
    simp only [Step, step] at hs
    split at hs
    · next hx =>
      cases hs
      exact .inr ⟨x, _, rfl, .release (by rw [hx]; rfl) rfl rfl,
        .stay rfl (by rw [hx]; rfl) fun e => by cases e⟩
    · next thrown hx =>
      cases hs
      exact .inr ⟨x, _, rfl, .release (by rw [hx]; rfl) rfl rfl,
        .stay rfl (by rw [hx]; rfl) fun e => by cases e⟩
    · cases hs
  | cancel f flag =>
    cases hs
    exact .inl ⟨rfl, rfl, rfl⟩

/-! ### Invariants -/

/-- At most one call has the lock, and then it is held. -/
structure Exclusive (s : Semaphore X F) : Prop where
  held : ∀ x, (s.pc x).locks = true → s.held = true
  unique : ∀ x y, (s.pc x).locks = true → (s.pc y).locks = true → x = y

theorem Exclusive.step (h : s.Exclusive) (hs : Step owner s a s') : s'.Exclusive := by
  rcases step_cases hs with ⟨hpc, hh, -⟩ | ⟨x, new, hpc, hl, -⟩
  · refine ⟨?_, ?_⟩ <;> rw [hpc]
    · rw [hh]
      exact h.held
    · exact h.unique
  have hother {y : X} (hy : y ≠ x) : s'.pc y = s.pc y := by rw [hpc, Function.update_of_ne hy]
  have hself : s'.pc x = new := by rw [hpc, Function.update_self]
  cases hl with
  | stay hh hl =>
    have hlocks (y : X) : (s'.pc y).locks = (s.pc y).locks := by
      by_cases hy : y = x
      · rw [hy, hself, hl]
      · rw [hother hy]
    refine ⟨fun y hy => ?_, fun y z hy hz => ?_⟩
    · rw [hlocks] at hy
      rw [hh, h.held y hy]
    · rw [hlocks] at hy hz
      exact h.unique y z hy hz
  | take hfree hh hl =>
    have honly {y : X} (hy : (s'.pc y).locks = true) : y = x := by
      by_contra hne
      rw [hother hne] at hy
      rw [h.held y hy] at hfree
      cases hfree
    exact ⟨fun _ _ => hh, fun y z hy hz => (honly hy).trans (honly hz).symm⟩
  | release hold hh hl =>
    have hnone {y : X} (hy : (s'.pc y).locks = true) : False := by
      by_cases hyx : y = x
      · rw [hyx, hself, hl] at hy
        cases hy
      · rw [hother hyx] at hy
        exact hyx (h.unique y x hy hold)
    exact ⟨fun _ hy => (hnone hy).elim, fun _ _ hy => (hnone hy).elim⟩

/-- A call that is to take a permit has seen one, and still holds the lock. -/
structure Counts (s : Semaphore X F) : Prop where
  nonneg : 0 ≤ s.count
  take : ∀ x, s.pc x = .acquireTake → 0 < s.count

theorem Counts.step (h : s.Counts) (hx : s.Exclusive) (hs : Step owner s a s') : s'.Counts := by
  rcases step_cases hs with ⟨hpc, -, hc⟩ | ⟨x, new, hpc, -, hp⟩
  · refine ⟨?_, ?_⟩ <;> rw [hc]
    · exact h.nonneg
    · rw [hpc]
      exact h.take
  have hother {y : X} (hy : y ≠ x) : s'.pc y = s.pc y := by rw [hpc, Function.update_of_ne hy]
  have hself : s'.pc x = new := by rw [hpc, Function.update_self]
  cases hp with
  | stay hc _ ht =>
    refine ⟨by rw [hc]; exact h.nonneg, fun y hy => ?_⟩
    rw [hc]
    by_cases hyx : y = x
    · exact ht (by rw [← hself, ← hyx, hy])
    · exact h.take y (by rw [← hother hyx, hy])
  | take hold hc _ ht =>
    have hpos := h.take x hold
    refine ⟨by omega, fun y hy => ?_⟩
    have hyx : y ≠ x := fun e => ht (by rw [← hself, ← e, hy])
    rw [hother hyx] at hy
    exact absurd (hx.unique y x (by rw [hy]; rfl) (by rw [hold]; rfl)) hyx
  | give _ hc _ _ =>
    have := h.nonneg
    refine ⟨by omega, fun y _ => by omega⟩
  | lose _ _ _ hc hnew =>
    refine ⟨by rw [hc]; exact h.nonneg, fun y hy => ?_⟩
    have hyx : y ≠ x := fun e => by rw [e, hself, hnew] at hy; cases hy
    rw [hc]
    exact h.take y (by rw [← hother hyx, hy])

/-- The free permits and the ones of the calls in `l` make `n`. -/
structure Permits (s : Semaphore X F) (n : Int) (l : List X) : Prop where
  nodup : l.Nodup
  mem : ∀ x, x ∈ l ↔ (s.pc x).permit = true
  sum : s.count + l.length = n

theorem Permits.step (h : s.Permits n l) (ha : Admits owner s a) (hs : Step owner s a s') :
    ∃ l, s'.Permits n l := by
  rcases step_cases hs with ⟨hpc, -, hc⟩ | ⟨x, new, hpc, -, hp⟩
  · exact ⟨l, h.nodup, by rw [hpc]; exact h.mem, by rw [hc]; exact h.sum⟩
  have hother {y : X} (hy : y ≠ x) : s'.pc y = s.pc y := by rw [hpc, Function.update_of_ne hy]
  have hself : s'.pc x = new := by rw [hpc, Function.update_self]
  cases hp with
  | stay hc hp _ =>
    refine ⟨l, h.nodup, fun y => ?_, by rw [hc]; exact h.sum⟩
    rw [h.mem y]
    by_cases hyx : y = x
    · rw [hyx, hself, hp]
    · rw [hother hyx]
  | take hold hc hp _ =>
    have hxl : x ∉ l := fun hx => by
      have := (h.mem x).mp hx
      rw [hold] at this
      cases this
    refine ⟨x :: l, List.nodup_cons.mpr ⟨hxl, h.nodup⟩, fun y => ?_, ?_⟩
    · rw [List.mem_cons, h.mem y]
      by_cases hyx : y = x
      · exact iff_of_true (.inl hyx) (by rw [hyx, hself, hp])
      · rw [hother hyx]
        exact or_iff_right hyx
    · have := h.sum
      rw [hc, List.length_cons]
      omega
  | give hold hc hp _ =>
    have hxl : x ∈ l := (h.mem x).mpr hold
    refine ⟨l.erase x, h.nodup.erase x, fun y => ?_, ?_⟩
    · rw [h.nodup.mem_erase_iff, h.mem y]
      by_cases hyx : y = x
      · refine iff_of_false (fun hy => hy.1 hyx) ?_
        rw [hyx, hself, hp]
        exact Bool.false_ne_true
      · rw [hother hyx]
        exact and_iff_right hyx
    · have hsum := h.sum
      have hlen := List.length_erase_of_mem hxl
      have hpos := List.length_pos_of_mem hxl
      rw [hc, hlen]
      omega
  | lose haction hold hcancel _ _ =>
    subst haction
    rw [ha _ hold] at hcancel
    cases hcancel

/-- If no cancellation is pending when a `release` looks at the lock, then the free permits and the
calls that hold one always make the initial count: never more bodies run, and when all calls have
ended every permit is free again. -/
theorem permits_conserved (hn : 0 ≤ n)
    (hrun : Steps (Steps.guarded (Step owner) (Admits owner)) (new n) actions s) :
    (∃ l : List X, l.Nodup ∧ (∀ x, x ∈ l ↔ (s.pc x).permit = true) ∧
      s.availablePermits + l.length = n) ∧
    (∀ l : List X, l.Nodup → (∀ x ∈ l, s.pc x = .body) → (l.length : Int) ≤ n) ∧
    ((∀ x, (s.pc x).inactive = true) → s.availablePermits = n) := by
  have hinv : s.Exclusive ∧ s.Counts ∧ ∃ l, s.Permits n l := by
    refine hrun.preserves (P := fun s => s.Exclusive ∧ s.Counts ∧ ∃ l, s.Permits n l) ?_ ?_
    · rintro s a s' ⟨ha, hs⟩ ⟨hx, hc, l, hl⟩
      exact ⟨hx.step hs, hc.step hx hs, hl.step ha hs⟩
    · refine ⟨⟨fun _ h => (by cases h), fun _ _ h => (by cases h)⟩,
        ⟨hn, fun _ h => (by cases h)⟩, [], .nil, fun x => ?_, Int.add_zero n⟩
      exact iff_of_false List.not_mem_nil fun h => by cases h
  obtain ⟨-, hc, l, hl⟩ := hinv
  have hcount := hc.nonneg
  have hsum := hl.sum
  refine ⟨⟨l, hl.nodup, hl.mem, hsum⟩, fun bodies hnodup hbody => ?_, fun hall => ?_⟩
  · have hsub : bodies ⊆ l := fun x hx => (hl.mem x).mpr (by rw [hbody x hx]; rfl)
    have hle := (List.subperm_of_subset hnodup hsub).length_le
    omega
  · have hnil : l = [] := List.eq_nil_iff_forall_not_mem.mpr fun x hx => by
      have hp := (hl.mem x).mp hx
      have hi := hall x
      cases hpc : s.pc x <;> simp [hpc, PermitPc.permit, PermitPc.inactive] at hp hi
    rw [hnil] at hsum
    exact (Int.add_zero _).symm.trans hsum

/-- Two calls for one permit. The second waits until the first has returned it, and returns it after
its body has thrown. -/
def twoCalls : List (Action Bool Bool) :=
  [.begin false, .begin true, .look false, .check false, .take false, .unlock false, .look true,
    .check true, .wait true, .bodyEnd false false, .look false, .give false, .notifyAll false,
    .unlock false, .wake true, .look true, .check true, .take true, .unlock true,
    .bodyEnd true true, .look true, .give true, .notifyAll true, .unlock true]

theorem permits_conserved_call :
    ∃ s : Semaphore Bool Bool, Steps (Step id) (new 1) twoCalls s ∧ s.pc false = .ended false ∧
      s.pc true = .ended true ∧ s.availablePermits = 1 := by
  have hrun : ∃ s, Steps (Steps.guarded (Step id) (Admits id)) (new 1) twoCalls s ∧
      s.pc false = .ended false ∧ s.pc true = .ended true := by
    exact ⟨_, .cons ⟨trivial, rfl⟩ <| .cons ⟨trivial, rfl⟩ <| .cons ⟨fun _ _ => rfl, rfl⟩ <|
      .cons ⟨trivial, rfl⟩ <| .cons ⟨trivial, rfl⟩ <| .cons ⟨trivial, rfl⟩ <|
      .cons ⟨fun _ _ => rfl, rfl⟩ <| .cons ⟨trivial, rfl⟩ <| .cons ⟨trivial, rfl⟩ <|
      .cons ⟨trivial, rfl⟩ <| .cons ⟨fun _ _ => rfl, rfl⟩ <| .cons ⟨trivial, rfl⟩ <|
      .cons ⟨trivial, rfl⟩ <| .cons ⟨trivial, rfl⟩ <| .cons ⟨trivial, rfl⟩ <|
      .cons ⟨fun _ _ => rfl, rfl⟩ <| .cons ⟨trivial, rfl⟩ <| .cons ⟨trivial, rfl⟩ <|
      .cons ⟨trivial, rfl⟩ <| .cons ⟨trivial, rfl⟩ <| .cons ⟨fun _ _ => rfl, rfl⟩ <|
      .cons ⟨trivial, rfl⟩ <| .cons ⟨trivial, rfl⟩ <| .cons ⟨trivial, rfl⟩ <| .nil, rfl, rfl⟩
  obtain ⟨s, hrun, hfirst, hsecond⟩ := hrun
  refine ⟨s, hrun.of_guarded, hfirst, hsecond,
    (permits_conserved (by decide) hrun).2.2 fun x => ?_⟩
  cases x
  · rw [hfirst]
    rfl
  · rw [hsecond]
    rfl

/-- A fiber is cancelled while its body runs: the `release` throws before it returns the permit. -/
theorem release_cancelled :
    ∃ (actions : List (Action Unit Unit)) (s : Semaphore Unit Unit),
      Steps (Step id) (new 1) actions s ∧ s.pc () = .ended true ∧ s.availablePermits = 0 := by
  refine ⟨[.begin (), .look (), .check (), .take (), .unlock (), .cancel () true, .bodyEnd () false,
    .look ()], _, .cons rfl (.cons rfl (.cons rfl (.cons rfl (.cons rfl (.cons rfl (.cons rfl
      (.cons rfl .nil))))))), rfl, rfl⟩

end Semaphore

end Cajeta.Concurrent
