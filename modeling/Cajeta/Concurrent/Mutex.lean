import Cajeta.Lib.Transition
import Mathlib.Logic.Function.Basic
import Mathlib.Tactic.Common

/-!
# Locks, condition variables and the mutex

One lock with its condition variable, used by any number of contexts: fibers, which park and can be
cancelled, and plain threads. Each section under an internal mutex is one step.
-/

namespace Cajeta.Concurrent

/-- On whose behalf a context takes the lock: an explicit acquire, one that is bound to a
`LockGuard`, or a call of the mutex, which binds a guard too. -/
inductive LockCall where
  | raw
  | guard
  | withLock
  | withLockWhen
deriving DecidableEq

/-- Where a context stands. `re` tells the acquire that ends a `condvarWait` from the first one. Of
a guard whose destructor is to run, nothing reads whether its context has the lock. -/
inductive LockState where
  | idle
  | acquiring (call : LockCall) (re : Bool)
  | parked (call : LockCall) (re : Bool)
  | inside (call : LockCall)
  | closure
  | leaving (call : LockCall)
  | waiting (call : LockCall)
  | dropping (holds : Bool)
deriving DecidableEq

/-- The context has acquired the lock and not yet released it. -/
def LockState.holds : LockState → Bool
  | .inside _ | .closure | .leaving _ => true
  | .dropping holds => holds
  | .idle | .acquiring .. | .parked .. | .waiting _ => false

/-- A published waiter looks at the lock again. -/
def LockState.unpark : LockState → LockState
  | .parked call re => .acquiring call re
  | st => st

@[simp] theorem LockState.holds_unpark (st : LockState) : st.unpark.holds = st.holds := by
  cases st <;> rfl

structure LockSystem (X : Type) where
  held : Bool
  /-- The parked fibers, the first to be woken first. -/
  waiters : List X
  /-- The fibers parked on the condition variable. -/
  condWaiters : List X
  cancelWith : X → Bool
  state : X → LockState
  /-- Whose acquire has succeeded with no release since; nothing reads it. -/
  owner : Option X

namespace LockSystem
variable {X : Type}

def initial : LockSystem X := ⟨false, [], [], fun _ => false, fun _ => .idle, none⟩

variable [DecidableEq X]

def goto (s : LockSystem X) (x : X) (st : LockState) : LockSystem X :=
  { s with state := Function.update s.state x st }

/-- Takes the first waiter off the queue and publishes it. -/
def handoff (s : LockSystem X) : LockSystem X :=
  match s.waiters with
  | [] => s
  | w :: ws => { s.goto w (s.state w).unpark with waiters := ws }

/-- `__cajeta_lock_release`. -/
def lockRelease (s : LockSystem X) : LockSystem X := { s with held := false, owner := none }.handoff

def lock (s : LockSystem X) (x : X) (call : LockCall) : LockSystem X :=
  { s.goto x (.inside call) with held := true, owner := some x }

/-- What the exception of a cancelled acquire unwinds to: a guard exists when the acquire is that of
a `condvarWait`, unless the lock was taken without one. -/
def afterThrow (call : LockCall) (re : Bool) : LockState :=
  if re && call ≠ .raw then .dropping false else .idle

/-- One section of `__cajeta_lock_acquire`. -/
def lockAcquire (fiber : X → Bool) (s : LockSystem X) (x : X) (call : LockCall) (re : Bool) :
    LockSystem X :=
  if fiber x then
    if s.cancelWith x then
      let s := { s with cancelWith := Function.update s.cancelWith x false }
      let s := if s.held then s else s.handoff
      s.goto x (afterThrow call re)
    else if !s.held then s.lock x call
    else { s.goto x (.parked call re) with waiters := s.waiters ++ [x] }
  else if !s.held then s.lock x call
  else s

inductive LockAction (X : Type) where
  | begin (x : X) (call : LockCall)
  | acquire (x : X)
  | tryAcquire (x : X)
  /-- The release of a raw acquire. -/
  | release (x : X)
  /-- The mutex calls its closure; `withLockWhen` has found its condition true. -/
  | enter (x : X)
  /-- The closure returns, its result is stored and the waiters are notified. -/
  | finish (x : X)
  /-- An exception, or the end of the scope of a guard. -/
  | unwind (x : X)
  /-- The destructor of the guard. -/
  | dropGuard (x : X)
  /-- `condvarWait` up to its release of the lock. -/
  | condWait (x : X)
  | condRelease (x : X)
  | resume (x : X)
  | notifyAll
  | cancel (x : X)
  /-- The cancellation is delivered at another place. -/
  | takeCancel (x : X)

def step (fiber : X → Bool) (s : LockSystem X) : LockAction X → Option (LockSystem X)
  | .begin x call => if s.state x = .idle then some (s.goto x (.acquiring call false)) else none
  | .acquire x =>
    match s.state x with
    | .acquiring call re => some (s.lockAcquire fiber x call re)
    | _ => none
  | .tryAcquire x =>
    if s.state x = .idle then some (if s.held then s else s.lock x .raw) else none
  | .release x =>
    if s.state x = .inside .raw then some (s.lockRelease.goto x .idle) else none
  | .enter x =>
    if s.state x = .inside .withLock ∨ s.state x = .inside .withLockWhen then
      some (s.goto x .closure)
    else none
  | .finish x =>
    if s.state x = .closure then some { s.goto x (.dropping true) with condWaiters := [] } else none
  | .unwind x =>
    match s.state x with
    | .inside call => if call = .raw then none else some (s.goto x (.dropping true))
    | .closure => some (s.goto x (.dropping true))
    | _ => none
  | .dropGuard x =>
    match s.state x with
    | .dropping _ => some (s.lockRelease.goto x .idle)
    | _ => none
  | .condWait x =>
    match s.state x with
    | .inside call =>
      if call = .withLock then none
      else some { s.goto x (.leaving call) with
        condWaiters := if fiber x then s.condWaiters ++ [x] else s.condWaiters }
    | _ => none
  | .condRelease x =>
    match s.state x with
    | .leaving call => some (s.lockRelease.goto x (.waiting call))
    | _ => none
  | .resume x =>
    match s.state x with
    | .waiting call => if x ∈ s.condWaiters then none else some (s.goto x (.acquiring call true))
    | _ => none
  | .notifyAll => some { s with condWaiters := [] }
  | .cancel x =>
    if fiber x then some { s with cancelWith := Function.update s.cancelWith x true } else none
  | .takeCancel x => some { s with cancelWith := Function.update s.cancelWith x false }

abbrev Step (fiber : X → Bool) (s : LockSystem X) (a : LockAction X) (s' : LockSystem X) : Prop :=
  s.step fiber a = some s'

/-- The action is a section of `__cajeta_lock_release`. -/
def LockAction.releases : LockAction X → Option X
  | .release x | .dropGuard x | .condRelease x => some x
  | _ => none

end LockSystem

end Cajeta.Concurrent

/-!
## Mutual exclusion

The lock has at most one holder, and only its holder releases it, as long as no guarded context is
cancelled while it takes the lock back at the end of a wait.
-/

namespace Cajeta.Concurrent.LockSystem
variable {X : Type} [DecidableEq X] {s s' : LockSystem X} {fiber : X → Bool}

theorem goto_state : (s.goto x st).state y = if y = x then st else s.state y :=
  Function.update_apply ..

@[simp] theorem goto_owner : (s.goto x st).owner = s.owner := rfl

@[simp] theorem goto_held : (s.goto x st).held = s.held := rfl

@[simp] theorem handoff_owner : s.handoff.owner = s.owner := by
  unfold handoff
  split <;> rfl

@[simp] theorem handoff_held : s.handoff.held = s.held := by
  unfold handoff
  split <;> rfl

theorem handoff_state : s.handoff.state x = s.state x ∨ s.handoff.state x = (s.state x).unpark := by
  unfold handoff
  split
  · exact .inl rfl
  · next w ws _ =>
    change (s.goto w _).state x = _ ∨ (s.goto w _).state x = _
    rw [goto_state]
    split
    · next heq =>
      subst heq
      exact .inr rfl
    · exact .inl rfl

@[simp] theorem handoff_holds : (s.handoff.state x).holds = (s.state x).holds := by
  rcases handoff_state (s := s) (x := x) with h | h
  · rw [h]
  · rw [h, LockState.holds_unpark]

theorem handoff_dropping (h : s.handoff.state x = .dropping b) : s.state x = .dropping b := by
  rcases handoff_state (s := s) (x := x) with h' | h'
  · exact h'.symm.trans h
  · rw [h] at h'
    cases hst : s.state x <;> simp_all [LockState.unpark]

/-! ## The invariant -/

/-- The context that acquired last is the one that has the lock, and no guard is without it. -/
structure Sound (s : LockSystem X) : Prop where
  owner : ∀ x, (s.state x).holds ↔ s.owner = some x
  held : s.held = s.owner.isSome
  guards : ∀ x, s.state x ≠ .dropping false

omit [DecidableEq X] in
theorem sound_initial : (initial : LockSystem X).Sound :=
  ⟨fun _ => by simp [initial, LockState.holds], rfl, fun _ => by simp [initial]⟩

theorem Sound.goto (hs : s.Sound) (hst : t.holds = (s.state x).holds)
    (hne : t ≠ .dropping false) : (s.goto x t).Sound where
  owner y := by
    rw [goto_state]
    split
    · next heq =>
      rw [heq, hst]
      exact hs.owner x
    · exact hs.owner y
  held := hs.held
  guards y := by
    rw [goto_state]
    split
    · exact hne
    · exact hs.guards y

theorem Sound.handoff (hs : s.Sound) : s.handoff.Sound where
  owner x := by rw [handoff_holds, handoff_owner, hs.owner]
  held := by rw [handoff_held, handoff_owner, hs.held]
  guards x h := hs.guards x (handoff_dropping h)

omit [DecidableEq X] in
theorem Sound.none_holds (hs : s.Sound) (hfree : ¬ s.held) (x : X) : (s.state x).holds = false := by
  have hnone : s.owner = none := by simpa [hs.held] using hfree
  simpa [hnone] using hs.owner x

theorem Sound.lock (hs : s.Sound) (hfree : ¬ s.held) (call : LockCall) : (s.lock x call).Sound where
  owner y := by
    change ((s.goto x _).state y).holds ↔ some x = some y
    rw [goto_state]
    split
    · next heq =>
      subst heq
      simp [LockState.holds]
    · next hne => simp [hs.none_holds hfree y, Ne.symm hne]
  held := rfl
  guards y := by
    change (s.goto x _).state y ≠ _
    rw [goto_state]
    split
    · simp
    · exact hs.guards y

theorem Sound.release (hs : s.Sound) (hx : (s.state x).holds) (hst : st.holds = false)
    (hne : st ≠ .dropping false) : (s.lockRelease.goto x st).Sound where
  owner y := by
    rw [goto_state]
    split
    · simp [hst, lockRelease]
    · next hyx =>
      have hy : (s.state y).holds = false := by
        rw [Bool.eq_false_iff]
        intro hy
        have hown := (hs.owner x).mp hx
        rw [(hs.owner y).mp hy, Option.some.injEq] at hown
        exact hyx hown
      simpa [lockRelease] using hy
  held := by simp [lockRelease]
  guards y := by
    rw [goto_state]
    split
    · exact hne
    · exact fun h =>
        hs.guards y (handoff_dropping (s := { s with held := false, owner := none }) h)

/-- No context with a guard finds a cancellation when it takes the lock back after a wait. -/
def TakesBackUncancelled (fiber : X → Bool) (s : LockSystem X) (a : LockAction X) : Prop :=
  ∀ x call, a = .acquire x → s.state x = .acquiring call true → call ≠ .raw → fiber x →
    s.cancelWith x = false

theorem Sound.lockAcquire (hs : s.Sound) (hx : s.state x = .acquiring call re)
    (hcancel : re → call ≠ .raw → fiber x → s.cancelWith x = false) :
    (s.lockAcquire fiber x call re).Sound := by
  have hnot : (s.state x).holds = false := by rw [hx]; rfl
  rw [LockSystem.lockAcquire]
  split
  · next hfiber =>
    split
    · next hpending =>
      have hidle : afterThrow call re = .idle := by
        rw [afterThrow, if_neg]
        intro hguard
        simp only [ne_eq, Bool.and_eq_true, decide_eq_true_eq] at hguard
        rw [hcancel hguard.1 hguard.2 hfiber] at hpending
        cases hpending
      have hs₁ : ({ s with cancelWith := Function.update s.cancelWith x false } :
          LockSystem X).Sound := ⟨hs.owner, hs.held, hs.guards⟩
      rw [hidle]
      dsimp only
      split
      · exact hs₁.goto hnot.symm (by simp)
      · exact hs₁.handoff.goto (by rw [handoff_holds]; exact hnot.symm) (by simp)
    · split
      · next hfree => exact hs.lock (by simpa using hfree) call
      · have hgoto := hs.goto (t := .parked call re) hnot.symm (by simp)
        exact ⟨hgoto.owner, hgoto.held, hgoto.guards⟩
  · split
    · next hfree => exact hs.lock (by simpa using hfree) call
    · exact hs

theorem Sound.releases (hs : s.Sound) (h : Step fiber s a s') (ha : a.releases = some x) :
    s.owner = some x := by
  cases a with
  | release y =>
    cases ha
    simp only [Step, step] at h
    split at h
    · next hx => exact (hs.owner x).mp (by rw [hx]; rfl)
    · cases h
  | dropGuard y =>
    cases ha
    simp only [Step, step] at h
    split at h
    · next b hx =>
      cases b with
      | true => exact (hs.owner x).mp (by rw [hx]; rfl)
      | false => exact absurd hx (hs.guards x)
    · cases h
  | condRelease y =>
    cases ha
    simp only [Step, step] at h
    split at h
    · next hx => exact (hs.owner x).mp (by rw [hx]; rfl)
    · cases h
  | _ => cases ha

theorem sound_step (hguard : TakesBackUncancelled fiber s a) (h : Step fiber s a s')
    (hs : s.Sound) : s'.Sound := by
  cases a with
  | begin x call =>
    simp only [Step, step, Option.ite_none_right_eq_some, Option.some.injEq] at h
    obtain ⟨hx, rfl⟩ := h
    exact hs.goto (by rw [hx]; rfl) (by simp)
  | acquire x =>
    simp only [Step, step] at h
    split at h
    · next call re hx =>
      cases h
      refine hs.lockAcquire hx ?_
      intro hre hcall hfiber
      subst hre
      exact hguard x call rfl hx hcall hfiber
    · cases h
  | tryAcquire x =>
    simp only [Step, step, Option.ite_none_right_eq_some, Option.some.injEq] at h
    obtain ⟨_, rfl⟩ := h
    split
    · exact hs
    · next hfree => exact hs.lock hfree .raw
  | release x =>
    have hown := hs.releases h rfl
    simp only [Step, step, Option.ite_none_right_eq_some, Option.some.injEq] at h
    obtain ⟨_, rfl⟩ := h
    exact hs.release ((hs.owner x).mpr hown) rfl (by simp)
  | enter x =>
    simp only [Step, step, Option.ite_none_right_eq_some, Option.some.injEq] at h
    obtain ⟨hx, rfl⟩ := h
    refine hs.goto ?_ (by simp)
    rcases hx with hx | hx <;> rw [hx] <;> rfl
  | finish x =>
    simp only [Step, step, Option.ite_none_right_eq_some, Option.some.injEq] at h
    obtain ⟨hx, rfl⟩ := h
    have hgoto := hs.goto (x := x) (t := .dropping true) (by rw [hx]; rfl) (by simp)
    exact ⟨hgoto.owner, hgoto.held, hgoto.guards⟩
  | unwind x =>
    simp only [Step, step] at h
    split at h
    · next call hx =>
      split at h
      · cases h
      · cases h
        exact hs.goto (by rw [hx]; rfl) (by simp)
    · next hx =>
      cases h
      exact hs.goto (by rw [hx]; rfl) (by simp)
    · cases h
  | dropGuard x =>
    have hown := hs.releases h rfl
    simp only [Step, step] at h
    split at h
    · cases h
      exact hs.release ((hs.owner x).mpr hown) rfl (by simp)
    · cases h
  | condWait x =>
    simp only [Step, step] at h
    split at h
    · next call hx =>
      split at h
      · cases h
      · cases h
        have hgoto := hs.goto (x := x) (t := .leaving call) (by rw [hx]; rfl) (by simp)
        exact ⟨hgoto.owner, hgoto.held, hgoto.guards⟩
    · cases h
  | condRelease x =>
    have hown := hs.releases h rfl
    simp only [Step, step] at h
    split at h
    · cases h
      exact hs.release ((hs.owner x).mpr hown) rfl (by simp)
    · cases h
  | resume x =>
    simp only [Step, step] at h
    split at h
    · next call hx =>
      split at h
      · cases h
      · cases h
        exact hs.goto (by rw [hx]; rfl) (by simp)
    · cases h
  | notifyAll =>
    cases h
    exact ⟨hs.owner, hs.held, hs.guards⟩
  | cancel x =>
    simp only [Step, step, Option.ite_none_right_eq_some, Option.some.injEq] at h
    obtain ⟨_, rfl⟩ := h
    exact ⟨hs.owner, hs.held, hs.guards⟩
  | takeCancel x =>
    cases h
    exact ⟨hs.owner, hs.held, hs.guards⟩

/-- One context has the lock at a time, the closure of the mutex runs while its caller has it, and
whoever releases it has it. -/
structure Exclusive (fiber : X → Bool) (s : LockSystem X) : Prop where
  holder : ∀ x y, (s.state x).holds → (s.state y).holds → x = y
  closure : ∀ x, s.state x = .closure → s.owner = some x ∧ s.held
  release : ∀ a s' x, Step fiber s a s' → a.releases = some x → s.owner = some x

theorem Sound.exclusive (hs : s.Sound) : Exclusive fiber s where
  holder x y hx hy := by
    have hown := (hs.owner x).mp hx
    rw [(hs.owner y).mp hy, Option.some.injEq] at hown
    exact hown.symm
  closure x hx := by
    have hown := (hs.owner x).mp (by rw [hx]; rfl)
    refine ⟨hown, ?_⟩
    rw [hs.held, hown]
    rfl
  release _ _ _ h ha := hs.releases h ha

/-- In a run where no cancellation reaches a guarded context as it takes the lock back, the lock
excludes in every state. -/
theorem lock_exclusive {as : List (LockAction X)}
    (h : Steps (Steps.guarded (Step fiber) (TakesBackUncancelled fiber)) initial as s) :
    Exclusive fiber s := by
  have hs : s.Sound :=
    Steps.preserves (P := Sound) (fun _ _ _ ha hs => sound_step ha.1 ha.2 hs) h sound_initial
  exact hs.exclusive

omit [DecidableEq X] in
theorem takesBackUncancelled_of_ne (h : ∀ x, a ≠ .acquire x) : TakesBackUncancelled fiber s a :=
  fun x _ heq => absurd heq (h x)

omit [DecidableEq X] in
theorem takesBackUncancelled_acquire (h : s.cancelWith x = false) :
    TakesBackUncancelled fiber s (.acquire x) := by
  intro y _ heq _ _ _
  cases heq
  exact h

/-- One fiber waits in the mutex for its condition. The other is cancelled inside its closure and
returns the lock to the first; its next acquire throws. -/
def handedBack : List (LockAction Nat) :=
  [.begin 0 .withLockWhen, .acquire 0, .condWait 0, .condRelease 0, .begin 1 .withLock, .acquire 1,
    .enter 1, .notifyAll, .resume 0, .acquire 0, .cancel 1, .finish 1, .dropGuard 1, .acquire 0,
    .enter 0, .begin 1 .withLock, .acquire 1]

theorem lock_exclusive_sample : ∃ s : LockSystem Nat,
    s.owner = some 0 ∧ s.state 0 = .closure ∧ s.state 1 = .idle ∧
      Exclusive (fun _ => true) s := by
  have hother : ∀ a : LockAction Nat, (∀ x, a ≠ .acquire x) → ∀ s,
      TakesBackUncancelled (fun _ => true) s a := fun _ ha _ => takesBackUncancelled_of_ne ha
  have hfirst : ∀ s : LockSystem Nat, s.state 1 = .acquiring .withLock false →
      TakesBackUncancelled (fun _ => true) s (.acquire 1) := by
    intro s hstate x call heq hcall
    cases heq
    rw [hstate] at hcall
    cases hcall
  have hrun : ∃ s, s.owner = some 0 ∧ s.state 0 = .closure ∧ s.state 1 = .idle ∧
      Steps (Steps.guarded (Step fun _ => true) (TakesBackUncancelled fun _ => true)) initial
        handedBack s :=
    ⟨_, rfl, rfl, rfl, .cons ⟨hother _ (by simp) _, rfl⟩ <|
      .cons ⟨takesBackUncancelled_acquire rfl, rfl⟩ <| .cons ⟨hother _ (by simp) _, rfl⟩ <|
      .cons ⟨hother _ (by simp) _, rfl⟩ <| .cons ⟨hother _ (by simp) _, rfl⟩ <|
      .cons ⟨takesBackUncancelled_acquire rfl, rfl⟩ <| .cons ⟨hother _ (by simp) _, rfl⟩ <|
      .cons ⟨hother _ (by simp) _, rfl⟩ <| .cons ⟨hother _ (by simp) _, rfl⟩ <|
      .cons ⟨takesBackUncancelled_acquire rfl, rfl⟩ <| .cons ⟨hother _ (by simp) _, rfl⟩ <|
      .cons ⟨hother _ (by simp) _, rfl⟩ <| .cons ⟨hother _ (by simp) _, rfl⟩ <|
      .cons ⟨takesBackUncancelled_acquire rfl, rfl⟩ <| .cons ⟨hother _ (by simp) _, rfl⟩ <|
      .cons ⟨hother _ (by simp) _, rfl⟩ <| .cons ⟨hfirst _ rfl, rfl⟩ .nil⟩
  obtain ⟨s, howner, hclosure, hidle, hsteps⟩ := hrun
  exact ⟨s, howner, hclosure, hidle, lock_exclusive hsteps⟩

/-- A fiber cancelled where it waits in the mutex: its guard releases the lock of another one, which
is inside its closure. -/
theorem not_lock_exclusive_cancelledWait :
    ¬ ∀ (as : List (LockAction Nat)) s, Steps (Step fun _ => true) initial as s →
      Exclusive (fun _ => true) s := by
  intro hall
  have hrun : ∃ s : LockSystem Nat, s.owner = some 1 ∧
      (∃ s', Step (fun _ => true) s (.dropGuard 0) s') ∧
      Steps (Step fun _ => true) initial
        [.begin 0 .withLockWhen, .acquire 0, .condWait 0, .condRelease 0, .begin 1 .withLock,
          .acquire 1, .enter 1, .cancel 0, .notifyAll, .resume 0, .acquire 0] s :=
    ⟨_, rfl, ⟨_, rfl⟩, .cons rfl <| .cons rfl <| .cons rfl <| .cons rfl <| .cons rfl <|
      .cons rfl <| .cons rfl <| .cons rfl <| .cons rfl <| .cons rfl <| .cons rfl .nil⟩
  obtain ⟨s, howner, ⟨s', hdrop⟩, hsteps⟩ := hrun
  have hrelease := (hall _ _ hsteps).release _ _ _ hdrop rfl
  rw [howner] at hrelease
  cases hrelease

end Cajeta.Concurrent.LockSystem
