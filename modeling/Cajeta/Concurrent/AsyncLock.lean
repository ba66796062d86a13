import Cajeta.Concurrent.Parking
import Cajeta.Lib.Transition

/-!
# The async lock and its condition variable

A lock with its queue of parked fibers, and a condition variable with its own, used by any number of
fibers and the program thread. What is done under an internal mutex is one step; what a party does
between two of them is a step of its own.
-/

namespace Cajeta.Concurrent.AsyncLock

inductive Party (X : Type) where
  | fiber (x : X)
  | thread
deriving DecidableEq

/-- The lists a fiber can be linked into: the wait queues, and what a party has taken out of them
and is to publish. -/
inductive Place (X : Type) where
  | lock
  | cond
  | hand (p : Party X)
deriving DecidableEq

/-- What a party does after it has published what it took. -/
inductive After where
  | user
  | condWait
deriving DecidableEq

/-- Where a party stands. -/
inductive Pc where
  | user
  /-- Before a section of the acquire; `woken` by a release or by a cancelled fiber. -/
  | top (woken : Bool)
  /-- A fiber that swaps out, or has, after it queued up for the lock. -/
  | lockSwap
  /-- The program thread waits on `released_cond`. -/
  | lockWait (signalled : Bool)
  /-- In a wait, before the release of the lock. -/
  | condRelease
  /-- A fiber that swaps out, or has, in a wait. -/
  | condSwap
  /-- The program thread waits on `main_cond`. -/
  | condWait (signalled : Bool)
  | publishing (after : After)
deriving DecidableEq

structure System (X : Type) where
  held : Bool
  fibers : Parking (Place X) X
  cancelWith : X → Bool
  pc : Party X → Pc

namespace System
variable {X : Type}

def initial : System X := ⟨false, .initial, fun _ => false, fun _ => .user⟩

variable [DecidableEq X]

def goto (s : System X) (p : Party X) (pc : Pc) : System X :=
  { s with pc := Function.update s.pc p pc }

/-- Takes the first fiber off the queue of the lock. -/
def handoff (s : System X) (p : Party X) : System X :=
  match s.fibers.lists .lock with
  | [] => s
  | w :: ws => { s with fibers := s.fibers.shift .lock (.hand p) [w] ws }

/-- `pthread_cond_signal(&l->released_cond)` -/
def signalReleased (s : System X) : System X :=
  match s.pc .thread with
  | .lockWait _ => s.goto .thread (.lockWait true)
  | _ => s

/-- `pthread_cond_broadcast(&cv->main_cond)` -/
def broadcastMain (s : System X) : System X :=
  match s.pc .thread with
  | .condWait _ => s.goto .thread (.condWait true)
  | _ => s

/-- One section of `__cajeta_lock_acquire`. A cancelled fiber publishes the one it takes, and
throws. -/
def acquireSection (s : System X) : Party X → System X
  | .fiber x =>
    if s.cancelWith x then
      let s := { s with cancelWith := Function.update s.cancelWith x false }
      let s := if s.held then s else s.handoff (.fiber x)
      s.goto (.fiber x) (.publishing .user)
    else if !s.held then { s with held := true }.goto (.fiber x) .user
    else { s with fibers := s.fibers.park .lock x }.goto (.fiber x) .lockSwap
  | .thread =>
    if s.held then s.goto .thread (.lockWait false)
    else { s with held := true }.goto .thread .user

/-- The section of `__cajeta_lock_release`. -/
def releaseSection (s : System X) (p : Party X) (after : After) : System X :=
  ({ s with held := false }.handoff p).signalReleased.goto p (.publishing after)

/-- `__cajeta_lock_try_acquire` -/
def tryAcquire (s : System X) : System X := { s with held := true }

/-- The mutex of the condition variable is free: the program thread keeps it from its call of
`__cajeta_condvar_wait` up to `pthread_cond_wait`. -/
def condMutexFree (s : System X) : Bool :=
  s.pc .thread ≠ .condRelease && s.pc .thread ≠ .publishing .condWait

/-- The part of `__cajeta_condvar_wait` before it releases the lock. -/
def condEnqueue (s : System X) : Party X → System X
  | .fiber x => { s with fibers := s.fibers.park .cond x }.goto (.fiber x) .condRelease
  | .thread => s.goto .thread .condRelease

/-- The section of `__cajeta_condvar_notify_all`. -/
def notifySection (s : System X) (p : Party X) : System X :=
  { s with fibers := s.fibers.shift .cond (.hand p) (s.fibers.lists .cond) [] }.broadcastMain.goto p
    (.publishing .user)

def published (p : Party X) : After → Pc
  | .user => .user
  | .condWait =>
    match p with
    | .fiber _ => .condSwap
    | .thread => .condWait false

inductive Step : System X → System X → Prop where
  | acquire (hp : s.pc p = .user) : Step s (s.goto p (.top false))
  | acquireSection (woken : Bool) (hp : s.pc p = .top woken) : Step s (s.acquireSection p)
  /-- A carrier runs a fiber that has been published. -/
  | lockResume (hp : s.pc (.fiber x) = .lockSwap) (hx : s.fibers.state x = .ready) :
    Step s ({ s with fibers := s.fibers.resume x }.goto (.fiber x) (.top true))
  | condResume (hp : s.pc (.fiber x) = .condSwap) (hx : s.fibers.state x = .ready) :
    Step s ({ s with fibers := s.fibers.resume x }.goto (.fiber x) (.top false))
  /-- The program thread returns from a wait, signalled or not. -/
  | lockWake (hp : s.pc .thread = .lockWait signalled) : Step s (s.goto .thread (.top true))
  | condWake (hp : s.pc .thread = .condWait signalled) : Step s (s.goto .thread (.top false))
  | tryAcquire (hp : s.pc p = .user) (hfree : s.held = false) : Step s s.tryAcquire
  | release (hp : s.pc p = .user) : Step s (s.releaseSection p .user)
  | condWait (hp : s.pc p = .user) (hm : s.condMutexFree) : Step s (s.condEnqueue p)
  | condRelease (hp : s.pc p = .condRelease) : Step s (s.releaseSection p .condWait)
  | notifyAll (hp : s.pc p = .user) (hm : s.condMutexFree) : Step s (s.notifySection p)
  | publish (hp : s.pc p = .publishing after) (hw : s.fibers.lists (.hand p) ≠ []) :
    Step s { s with fibers := s.fibers.publish (.hand p) }
  | published (hp : s.pc p = .publishing after) (hw : s.fibers.lists (.hand p) = []) :
    Step s (s.goto p (published p after))
  /-- A scope cancels a fiber, or another wait of it takes the cancellation. -/
  | cancel (x : X) (flag : Bool) :
    Step s { s with cancelWith := Function.update s.cancelWith x flag }

/-- A fiber that was taken off the queue of the lock and has not looked at the lock since. -/
def OnItsWay (s : System X) (x : X) : Prop :=
  s.pc (.fiber x) = .top true ∨ s.pc (.fiber x) = .lockSwap ∧ x ∉ s.fibers.lists .lock

def Waits (s : System X) : Party X → Prop
  | .fiber x => s.pc (.fiber x) = .publishing .condWait ∨ s.pc (.fiber x) = .condSwap
  | .thread =>
    s.pc .thread = .publishing .condWait ∨ ∃ signalled, s.pc .thread = .condWait signalled

def TakenOut (s : System X) : Party X → Prop
  | .fiber x =>
    x ∉ s.fibers.lists .cond ∧
      ((∃ p, x ∈ s.fibers.lists (.hand p)) ∨ s.fibers.state x = .ready)
  | .thread => s.pc .thread = .condWait true

end System

end Cajeta.Concurrent.AsyncLock
