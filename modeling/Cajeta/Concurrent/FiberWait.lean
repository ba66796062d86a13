import Cajeta.Concurrent.Parking
import Cajeta.Lib.Transition

/-!
# Fibers that wait for tasks and descriptors

Any number of fibers wait for tasks and for descriptors, with a deadline or without. All that are
suspended stand in one list, from which a completed task, the timer thread, the reactor and a fiber
that closes a descriptor take them. What is done under the pool mutex is one step; the fibers that
were taken are published after it, one by one.
-/

namespace Cajeta.Concurrent.FiberWait

/-- Who publishes fibers: a fiber that completed a task or closed a descriptor, or a thread. -/
inductive Publisher (X : Type) where
  | fiber (x : X)
  | timer
  | reactor
deriving DecidableEq

/-- The lists a fiber can be linked into. -/
inductive Place (X : Type) where
  | parked
  | hand (p : Publisher X)
deriving DecidableEq

/-- The flags `CAJETA_IO_READ` and `CAJETA_IO_WRITE`. -/
structure Interest where
  read : Bool
  write : Bool
deriving DecidableEq

def Interest.meets (i j : Interest) : Bool := i.read && j.read || i.write && j.write

/-- What `epoll_wait` reports of a descriptor. -/
structure Event (Fd : Type) where
  fd : Fd
  input : Bool
  output : Bool
  err : Bool
  hup : Bool
  rdhup : Bool

def Event.firedMask (ev : Event Fd) : Interest where
  read := ev.input || ev.err || ev.hup || ev.rdhup
  write := ev.output || ev.err || ev.hup

inductive Occasion (Fd : Type) where
  | report (ev : Event Fd)
  | closed (fd : Fd)

/-- A requested event or an error of the descriptor, or its closing. -/
def Occasion.Concerns (fd : Fd) (events : Interest) : Occasion Fd → Prop
  | .report ev => ev.fd = fd ∧
    (events.read ∧ ev.input ∨ events.write ∧ ev.output ∨ ev.err ∨ ev.hup ∨ ev.rdhup)
  | .closed fd' => fd' = fd

/-- `struct cajeta_timer_entry`; `id` stands for its address. -/
structure TimerEntry (X : Type) where
  deadline : Int
  fiber : X
  id : Nat

/-- `struct cajeta_io_waiter` of a fiber; `id` stands for its address. -/
structure Waiter (X Fd : Type) where
  fd : Fd
  events : Interest
  fiber : X
  stackOwned : Bool
  id : Nat

/-- The reactor compares the numbers of the descriptors. -/
def Event.hits [DecidableEq Fd] (ev : Event Fd) (w : Waiter X Fd) : Bool :=
  w.fd = ev.fd && w.events.meets ev.firedMask

/-- What a fiber waits for; a descriptor by means of a waiter record. -/
inductive Cause (T Fd : Type) where
  | task (t : T)
  | io (fd : Fd) (events : Interest) (record : Nat)

structure Timer where
  deadline : Int
  entry : Nat

/-- What a wait returns, or that it throws; `failed` when a descriptor cannot be watched. -/
inductive Outcome where
  | done
  | timeout
  | thrown
  | failed
deriving DecidableEq

/-- Where a fiber stands. -/
inductive Pc (T Fd : Type) where
  | user
  /-- In `__cajeta_task_wait`, before it looks for a pending cancellation. -/
  | taskEnter (t : T)
  /-- In `__cajeta_io_wait` or `io_wait_timed`, before the waiter is listed. -/
  | ioEnter (fd : Fd) (events : Interest) (deadline : Option Int)
  /-- Before it looks whether to go on waiting. -/
  | top (c : Cause T Fd) (e : Option Timer)
  /-- Swaps out, or has. -/
  | swap (c : Cause T Fd) (e : Option Timer)
  /-- Runs again, before it looks for a cancellation. -/
  | woken (c : Cause T Fd) (e : Option Timer)
  /-- Cancelled, before the waiter is unlisted. -/
  | withdraw (c : Cause T Fd) (e : Option Timer)
  /-- Before `__cajeta_timer_cancel`. -/
  | cancelTimer (c : Cause T Fd) (e : Timer) (r : Outcome)
  /-- The wait returns or throws. -/
  | ended (c : Cause T Fd) (e : Option Timer) (r : Outcome)
  /-- Publishes what it took at the completion of a task or the closing of a descriptor. -/
  | publishing

/-- Where a fiber that runs again stands: the wait for a descriptor without a deadline returns. -/
def Pc.resumed (c : Cause T Fd) (e : Option Timer) : Pc T Fd :=
  match c, e with
  | .io .., none => .ended c none .done
  | _, _ => .woken c e

/-- `__cajeta_timer_insert_locked` -/
def insertTimer (e : TimerEntry X) : List (TimerEntry X) → List (TimerEntry X)
  | [] => [e]
  | h :: es => if h.deadline ≤ e.deadline then h :: insertTimer e es else e :: h :: es

/-- `batch` is what the reactor has fetched and not worked through; `since x` is what happened
since the last call of `x` that waits for a descriptor. -/
structure System (X T Fd : Type) where
  done : T → Bool
  now : Int
  timers : List (TimerEntry X)
  waiters : List (Waiter X Fd)
  fired : Nat → Bool
  batch : List (Event Fd)
  next : Nat
  fibers : Parking (Place X) X
  cancelWith : X → Bool
  pc : X → Pc T Fd
  since : X → List (Occasion Fd)

namespace System
variable {X T Fd : Type}

def initial : System X T Fd where
  done _ := false
  now := 0
  timers := []
  waiters := []
  fired _ := false
  batch := []
  next := 0
  fibers := .initial
  cancelWith _ := false
  pc _ := .user
  since _ := []

/-- The condition for which the fiber waits. -/
def ready (s : System X T Fd) : Cause T Fd → Bool
  | .task t => s.done t
  | .io _ _ record => s.fired record

def expired (s : System X T Fd) : Option Timer → Bool
  | none => false
  | some e => e.deadline ≤ s.now

/-- `__cajeta_reactor_cancel_locked` -/
def unlist (s : System X T Fd) : Cause T Fd → System X T Fd
  | .task _ => s
  | .io _ _ record => { s with waiters := s.waiters.eraseP (·.id = record) }

/-- Something happens to descriptors. -/
def note (s : System X T Fd) (os : List (Occasion Fd)) : System X T Fd :=
  { s with since := fun x => os ++ s.since x }

/-- `epoll_wait` returns to the reactor, which does not hold the mutex. -/
def fetch (s : System X T Fd) (evs : List (Event Fd)) : System X T Fd :=
  { s.note (evs.map .report) with batch := evs }

variable [DecidableEq X]

def goto (s : System X T Fd) (x : X) (pc : Pc T Fd) : System X T Fd :=
  { s with pc := Function.update s.pc x pc }

/-- A wait ends; one with a deadline cancels its timer entry before. -/
def finish (s : System X T Fd) (x : X) (c : Cause T Fd) (e : Option Timer) (r : Outcome) :
    System X T Fd :=
  match e with
  | none => s.goto x (.ended c none r)
  | some e => s.goto x (.cancelTimer c e r)

/-- `__cajeta_parked_remove_locked` of a fiber that is then published, if it was parked. -/
def detach (p : Publisher X) (fibers : Parking (Place X) X) (x : X) : Parking (Place X) X :=
  if x ∈ fibers.lists .parked then
    fibers.shift .parked (.hand p) [x] ((fibers.lists .parked).erase x)
  else fibers

def clearCancel (s : System X T Fd) (x : X) : System X T Fd :=
  { s with cancelWith := Function.update s.cancelWith x false }

/-- The delivery of a pending cancellation in `__cajeta_task_wait`. -/
def taskEnterSection (s : System X T Fd) (x : X) (t : T) : System X T Fd :=
  if s.cancelWith x then (s.clearCancel x).goto x (.ended (.task t) none .thrown)
  else s.goto x (.top (.task t) none)

/-- `__cajeta_task_wait_timeout` before its loop. -/
def timedEnterSection (s : System X T Fd) (x : X) (t : T) (deadline : Int) : System X T Fd :=
  { s with
    timers := insertTimer ⟨deadline, x, s.next⟩ s.timers
    next := s.next + 1 }.goto x (.top (.task t) (some ⟨deadline, s.next⟩))

/-- `__cajeta_io_wait_timed` before its section; without a deadline it is `__cajeta_io_wait`. -/
def ioStart (s : System X T Fd) (x : X) (fd : Fd) (events : Interest) (timeoutMs : Int) :
    System X T Fd :=
  let deadline := if timeoutMs < 0 then none else some (s.now + timeoutMs * 1000000)
  { s with since := Function.update s.since x [] }.goto x (.ioEnter fd events deadline)

def ioEnterSection (s : System X T Fd) (x : X) (fd : Fd) (events : Interest)
    (deadline : Option Int) : System X T Fd :=
  let s' := { s with
    waiters := ⟨fd, events, x, deadline.isSome, s.next⟩ :: s.waiters
    fired := Function.update s.fired s.next false
    next := s.next + 1 }
  match deadline with
  | none =>
    { s' with fibers := s.fibers.parkFront .parked x }.goto x (.swap (.io fd events s.next) none)
  | some d =>
    { s' with timers := insertTimer ⟨d, x, s.next⟩ s.timers }.goto x
      (.top (.io fd events s.next) (some ⟨d, s.next⟩))

/-- One look of the loops of the waits. -/
def topSection (s : System X T Fd) (x : X) (c : Cause T Fd) (e : Option Timer) : System X T Fd :=
  if s.ready c then s.finish x c e .done
  else if s.expired e then (s.unlist c).finish x c e .timeout
  else { s with fibers := s.fibers.parkFront .parked x }.goto x (.swap c e)

/-- The look for a cancellation after the fiber was parked. -/
def wokenSection (s : System X T Fd) (x : X) (c : Cause T Fd) (e : Option Timer) : System X T Fd :=
  if s.cancelWith x then
    match c with
    | .task _ => (s.clearCancel x).finish x c e .thrown
    | .io .. => (s.clearCancel x).goto x (.withdraw c e)
  else s.goto x (.top c e)

def withdrawSection (s : System X T Fd) (x : X) (c : Cause T Fd) (e : Option Timer) :
    System X T Fd :=
  (s.unlist c).finish x c e .thrown

/-- `__cajeta_timer_cancel` -/
def cancelTimerSection (s : System X T Fd) (x : X) (c : Cause T Fd) (e : Timer) (r : Outcome) :
    System X T Fd :=
  { s with timers := s.timers.eraseP (·.id = e.entry) }.goto x (.ended c (some e) r)

/-! ## What wakes fibers -/

/-- The section of `__cajeta_task_complete`. -/
def completeSection [DecidableEq T] (s : System X T Fd) (x : X) (t : T) : System X T Fd :=
  { s with
    done := Function.update s.done t true
    fibers := s.fibers.shift .parked (.hand (.fiber x)) (s.fibers.lists .parked) [] }.goto x
      .publishing

def timerRound (s : System X T Fd) : System X T Fd :=
  { s with
    timers := s.timers.dropWhile (·.deadline ≤ s.now)
    fibers := ((s.timers.takeWhile (·.deadline ≤ s.now)).map (·.fiber)).foldl (detach .timer)
      s.fibers }

def fire (p : Publisher X) (s : System X T Fd) (w : Waiter X Fd) : System X T Fd :=
  { s with fired := Function.update s.fired w.id true, fibers := detach p s.fibers w.fiber }

/-- Unlists the waiters that are hit, and fires them in order. -/
def fireWaiters (s : System X T Fd) (p : Publisher X) (hit : Waiter X Fd → Bool) : System X T Fd :=
  (s.waiters.filter hit).foldl (fire p) { s with waiters := s.waiters.filter fun w => !hit w }

def reactorEvent [DecidableEq Fd] (s : System X T Fd) (ev : Event Fd) : System X T Fd :=
  s.fireWaiters .reactor ev.hits

/-- The section of `__cajeta_reactor_loop_body`. -/
def reactorRound [DecidableEq Fd] (s : System X T Fd) : System X T Fd :=
  { s.batch.foldl reactorEvent s with batch := [] }

/-- The section of `__cajeta_io_close_fd`. -/
def closeSection [DecidableEq Fd] (s : System X T Fd) (x : X) (fd : Fd) : System X T Fd :=
  ((s.note [.closed fd]).fireWaiters (.fiber x) (·.fd = fd)).goto x .publishing

/-- A step completes a task, works through the reactor's batch, or does something else. -/
inductive Action (X T : Type) where
  | complete (x : X) (t : T)
  | round
  | other

inductive Step [DecidableEq T] [DecidableEq Fd] :
    System X T Fd → Action X T → System X T Fd → Prop where
  | taskStart (t : T) (hp : s.pc x = .user) : Step s .other (s.goto x (.taskEnter t))
  | taskEnter (hp : s.pc x = .taskEnter t) : Step s .other (s.taskEnterSection x t)
  | timedEnter (t : T) (deadline : Int) (hp : s.pc x = .user) :
    Step s .other (s.timedEnterSection x t deadline)
  | ioStart (fd : Fd) (events : Interest) (timeoutMs : Int) (hp : s.pc x = .user) :
    Step s .other (s.ioStart x fd events timeoutMs)
  | ioEnter (hp : s.pc x = .ioEnter fd events deadline) :
    Step s .other (s.ioEnterSection x fd events deadline)
  /-- The reactor does not start, or the descriptor cannot be watched. -/
  | ioFail (hp : s.pc x = .ioEnter fd events deadline) :
    Step s .other (s.goto x (.ended (.io fd events s.next) none .failed))
  | top (hp : s.pc x = .top c e) : Step s .other (s.topSection x c e)
  /-- A carrier runs a fiber that has been published. -/
  | resume (hp : s.pc x = .swap c e) (hx : s.fibers.state x = .ready) :
    Step s .other ({ s with fibers := s.fibers.resume x }.goto x (.resumed c e))
  | woken (hp : s.pc x = .woken c e) : Step s .other (s.wokenSection x c e)
  | withdraw (hp : s.pc x = .withdraw c e) : Step s .other (s.withdrawSection x c e)
  | cancelTimer (hp : s.pc x = .cancelTimer c e r) :
    Step s .other (s.cancelTimerSection x c e r)
  | ended (hp : s.pc x = .ended c e r) : Step s .other (s.goto x .user)
  | complete (t : T) (hp : s.pc x = .user) : Step s (.complete x t) (s.completeSection x t)
  | closeFd (fd : Fd) (hp : s.pc x = .user) : Step s .other (s.closeSection x fd)
  | publish (hp : s.pc x = .publishing) (hw : s.fibers.lists (.hand (.fiber x)) ≠ []) :
    Step s .other { s with fibers := s.fibers.publish (.hand (.fiber x)) }
  | published (hp : s.pc x = .publishing) (hw : s.fibers.lists (.hand (.fiber x)) = []) :
    Step s .other (s.goto x .user)
  | timerRound (hw : s.fibers.lists (.hand .timer) = []) : Step s .other s.timerRound
  | timerPublish : Step s .other { s with fibers := s.fibers.publish (.hand .timer) }
  | reactorFetch (evs : List (Event Fd)) (hb : s.batch = [])
    (hw : s.fibers.lists (.hand .reactor) = []) : Step s .other (s.fetch evs)
  | reactorRound : Step s .round s.reactorRound
  | reactorPublish : Step s .other { s with fibers := s.fibers.publish (.hand .reactor) }
  | tick (now : Int) (hnow : s.now ≤ now) : Step s .other { s with now }
  /-- A scope cancels a fiber. -/
  | cancel (x : X) (flag : Bool) :
    Step s .other { s with cancelWith := Function.update s.cancelWith x flag }

variable [DecidableEq T] [DecidableEq Fd]

/-- The states that any interleaving reaches. -/
def Reachable (s : System X T Fd) : Prop := ∃ as, Steps Step initial as s

/-- Somebody who publishes the fibers that he took; the threads do so all the time. -/
def Publishes (s : System X T Fd) : Publisher X → Prop
  | .fiber y => s.pc y = .publishing
  | .timer => True
  | .reactor => True

def TakenOut (s : System X T Fd) (x : X) : Prop :=
  x ∉ s.fibers.lists .parked ∧
    ((∃ p, s.Publishes p ∧ x ∈ s.fibers.lists (.hand p)) ∨ s.fibers.state x = .ready)

/-- A fiber suspended in `__cajeta_io_wait`. -/
def InPlainIo (s : System X T Fd) (x : X) : Prop :=
  ∃ fd events record, s.pc x = .swap (.io fd events record) none

/-- Whoever completes a task finds no fiber suspended in `__cajeta_io_wait`, and an event of a
batch hits only waiters of calls that began before it was fetched. -/
def Guard (s : System X T Fd) : Action X T → Prop
  | .complete _ _ => ∀ y ∈ s.fibers.lists .parked, ¬s.InPlainIo y
  | .round => ∀ ev ∈ s.batch, ∀ w ∈ s.waiters, ev.hits w → .report ev ∈ s.since w.fiber
  | .other => True

end System

end Cajeta.Concurrent.FiberWait
