import Cajeta.Concurrent.Parking
import Cajeta.Lib.Transition

/-!
# The reader-writer lock

Many readers or one writer, with a queue of parked fibers for each kind and a condition variable
for the program threads. An unlock that lets somebody in wakes all of them.
-/

namespace Cajeta.Concurrent.RwLock

inductive Party (X T : Type) where
  | fiber (x : X)
  | thread (t : T)
deriving DecidableEq

/-- The lists a fiber can be linked into: the wait queues, and what a party has taken out of them
and is to publish. -/
inductive Place (X T : Type) where
  | rwait
  | wwait
  | hand (p : Party X T)
deriving DecidableEq

/-- Where a party stands. -/
inductive Pc where
  | user
  /-- In the loop of `rdlock`, before it looks at the lock again. -/
  | rdTop
  /-- A fiber that swaps out, or has. -/
  | rdSwap
  /-- A program thread in `pthread_cond_wait`. -/
  | rdWait (signalled : Bool)
  | wrTop
  | wrSwap
  | wrWait (signalled : Bool)
  | publishing
deriving DecidableEq

/-- The party is inside `wrlock` and has not acquired. -/
def Pc.writes : Pc → Bool
  | .wrTop => true
  | .wrSwap => true
  | .wrWait _ => true
  | _ => false

/-- `cajeta_async_rwlock`, with the parties and, in `reading` and `writing`, the acquires that no
unlock has followed, which nothing reads. -/
structure System (X T : Type) where
  readers : Nat
  writer : Bool
  writersWaiting : Nat
  fibers : Parking (Place X T) X
  pc : Party X T → Pc
  reading : List (Party X T)
  writing : List (Party X T)

namespace System
variable {X T : Type}

def initial : System X T := ⟨0, false, 0, .initial, fun _ => .user, [], []⟩

variable [DecidableEq X] [DecidableEq T]

def goto (s : System X T) (p : Party X T) (pc : Pc) : System X T :=
  { s with pc := Function.update s.pc p pc }

/-- A fiber parks on the queue, and a thread waits on `main_cond`. -/
def wait (s : System X T) (q : Place X T) (swap thread : Pc) : Party X T → System X T
  | .fiber x => { s with fibers := s.fibers.park q x }.goto (.fiber x) swap
  | .thread t => s.goto (.thread t) thread

/-- One section of `__cajeta_rwlock_rdlock`. -/
def rdSection (s : System X T) (p : Party X T) : System X T :=
  if !s.writer && s.writersWaiting = 0 then
    { s with readers := s.readers + 1, reading := p :: s.reading }.goto p .user
  else s.wait .rwait .rdSwap (.rdWait false) p

/-- One section of `__cajeta_rwlock_wrlock`. -/
def wrSection (s : System X T) (p : Party X T) : System X T :=
  if !s.writer && s.readers = 0 then
    { s with
      writersWaiting := s.writersWaiting - 1
      writer := true
      writing := p :: s.writing }.goto p .user
  else s.wait .wwait .wrSwap (.wrWait false) p

/-- `__cajeta_rwlock_wrlock` up to its first look at the lock. -/
def wrlock (s : System X T) (p : Party X T) : System X T :=
  { s with writersWaiting := s.writersWaiting + 1 }.wrSection p

/-- `pthread_cond_broadcast(&rw->main_cond)` -/
def signalled : Pc → Pc
  | .rdWait _ => .rdWait true
  | .wrWait _ => .wrWait true
  | pc => pc

/-- `__cajeta_rwlock_wake_all_locked` -/
def wakeAll (s : System X T) (p : Party X T) : System X T :=
  { s with
    fibers := (s.fibers.shift .rwait (.hand p) (s.fibers.lists .rwait) []).shift .wwait (.hand p)
      (s.fibers.lists .wwait) []
    pc := signalled ∘ s.pc }

/-- The section of `__cajeta_rwlock_rdunlock`. -/
def rdunlock (s : System X T) (p : Party X T) : System X T :=
  let s := { s with readers := s.readers - 1, reading := s.reading.erase p }
  let s := if s.readers = 0 then s.wakeAll p else s
  s.goto p .publishing

/-- The section of `__cajeta_rwlock_wrunlock`. -/
def wrunlock (s : System X T) (p : Party X T) : System X T :=
  ({ s with writer := false, writing := s.writing.erase p }.wakeAll p).goto p .publishing

inductive Step : System X T → System X T → Prop where
  | rdlock (hp : s.pc p = .user) : Step s (s.rdSection p)
  | rdRetry (hp : s.pc p = .rdTop) : Step s (s.rdSection p)
  | wrlock (hp : s.pc p = .user) : Step s (s.wrlock p)
  | wrRetry (hp : s.pc p = .wrTop) : Step s (s.wrSection p)
  /-- A carrier runs a fiber that has been published. -/
  | rdResume (hp : s.pc (.fiber x) = .rdSwap) (hx : s.fibers.state x = .ready) :
    Step s ({ s with fibers := s.fibers.resume x }.goto (.fiber x) .rdTop)
  | wrResume (hp : s.pc (.fiber x) = .wrSwap) (hx : s.fibers.state x = .ready) :
    Step s ({ s with fibers := s.fibers.resume x }.goto (.fiber x) .wrTop)
  /-- A thread returns from its wait, signalled or not. -/
  | rdWake (hp : s.pc (.thread t) = .rdWait b) : Step s (s.goto (.thread t) .rdTop)
  | wrWake (hp : s.pc (.thread t) = .wrWait b) : Step s (s.goto (.thread t) .wrTop)
  | rdunlock (hp : s.pc p = .user) (hr : p ∈ s.reading) : Step s (s.rdunlock p)
  | wrunlock (hp : s.pc p = .user) (hw : p ∈ s.writing) : Step s (s.wrunlock p)
  | publish (hp : s.pc p = .publishing) (hl : s.fibers.lists (.hand p) ≠ []) :
    Step s { s with fibers := s.fibers.publish (.hand p) }
  | published (hp : s.pc p = .publishing) (hl : s.fibers.lists (.hand p) = []) :
    Step s (s.goto p .user)

/-- The lock is held by nobody. -/
def Free (s : System X T) : Prop := s.writer = false ∧ s.readers = 0

/-- A party that waits and has been woken, and has not looked at the lock since. -/
def OnItsWay (s : System X T) : Party X T → Prop
  | .fiber x =>
    s.pc (.fiber x) = .rdTop ∨ s.pc (.fiber x) = .wrTop ∨
      s.pc (.fiber x) = .rdSwap ∧ x ∉ s.fibers.lists .rwait ∨
      s.pc (.fiber x) = .wrSwap ∧ x ∉ s.fibers.lists .wwait
  | .thread t =>
    s.pc (.thread t) = .rdTop ∨ s.pc (.thread t) = .wrTop ∨
      s.pc (.thread t) = .rdWait true ∨ s.pc (.thread t) = .wrWait true

/-- The states that any interleaving of the parties reaches. -/
abbrev Reachable (s : System X T) : Prop := Relation.ReflTransGen Step initial s

/-- `l` lists the callers inside `wrlock`. -/
structure Writers (s : System X T) (l : List (Party X T)) : Prop where
  nodup : l.Nodup
  mem : ∀ p, p ∈ l ↔ (s.pc p).writes
  length : s.writersWaiting = l.length

structure Counted (s : System X T) : Prop where
  readers : s.readers = s.reading.length
  writer : s.writing.length = s.writer.toNat
  alone : s.writer = true → s.readers = 0
  writers : ∃ l, s.Writers l

end System

end Cajeta.Concurrent.RwLock
