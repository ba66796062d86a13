import Cajeta.Concurrent.FiberWait

/-!
# Readiness sets

Any number of readiness sets whose members are listed with the reactor while they are armed. An
event, or the closing of the descriptor, unlists a member and puts a record into the ring of its
set; the next wait on the set arms the member again. A fiber that has parked in a wait may look at
the ring at any time. The reactor fetches its events before it takes the mutex under which all else
happens, and knows a descriptor by its number.
-/

namespace Cajeta.Concurrent.ReadySet
open FiberWait (Interest Event Occasion)

/-- `CAJETA_IO_SET_RING` -/
def ringSize : Nat := 256

/-- What a record was made from; only the history knows of it. -/
structure Cause (Fd : Type) where
  member : Nat
  /-- How often the member had been armed. -/
  arming : Nat
  interest : Interest
  occasion : Occasion Fd
  /-- What had happened since the member was armed. -/
  since : List (Occasion Fd)

/-- An entry of `ring_fd` and `ring_ev`. -/
structure Record (Fd : Type) where
  fd : Fd
  ev : Interest
  cause : Cause Fd

/-- `struct cajeta_io_set_member`. How often it was armed, whether its descriptor was closed and
what happened since it was last armed is history. -/
structure Member (S Fd : Type) where
  fd : Fd
  events : Interest
  set : S
  armed : Bool
  dead : Bool
  arming : Nat
  closed : Bool
  since : List (Occasion Fd)

/-- `struct cajeta_io_set`. The records that were put into the ring and those that were returned
from it are history. -/
structure IoSet (Fd : Type) where
  members : List Nat
  ring : List (Record Fd)
  log : List (Record Fd)
  returned : List (Record Fd)

def IoSet.push (k : IoSet Fd) (r : Record Fd) : IoSet Fd :=
  if k.ring.length < ringSize then { k with ring := k.ring ++ [r], log := k.log ++ [r] } else k

def reported (events mask : Interest) : Interest :=
  let ev : Interest := ⟨events.read && mask.read, events.write && mask.write⟩
  if ev.read || ev.write then ev else mask

/-- Members are found at their addresses. `waiters` is the list of the reactor, and `batch` what it
has fetched and not worked through. -/
structure System (S F Fd : Type) where
  heap : Nat → Member S Fd
  next : Nat
  waiters : List Nat
  batch : List (Event Fd)
  sets : S → IoSet Fd
  waiting : F → Option (S × Nat)

namespace System
variable {S F Fd : Type}

def initial (heap : Nat → Member S Fd) : System S F Fd :=
  ⟨heap, 0, [], [], fun _ => ⟨[], [], [], []⟩, fun _ => none⟩

/-- `__cajeta_io_set_arm_locked`; `accepts` tells which descriptors the kernel watches. -/
def arm (accepts : Fd → Bool) (s : System S F Fd) (id : Nat) : System S F Fd :=
  let m := s.heap id
  if m.armed || m.dead then s
  else if accepts m.fd then
    { s with
      waiters := id :: s.waiters
      heap := Function.update s.heap id
        { m with armed := true, arming := m.arming + 1, since := [] } }
  else s

/-- Something happens to descriptors. -/
def note (s : System S F Fd) (os : List (Occasion Fd)) : System S F Fd :=
  { s with heap := fun id => { s.heap id with since := os ++ (s.heap id).since } }

/-- `epoll_wait` returns to the reactor, which does not hold the mutex. -/
def fetch (s : System S F Fd) (evs : List (Event Fd)) : System S F Fd :=
  { s.note (evs.map .report) with batch := evs }

section
variable [DecidableEq S]

/-- Unlists a member and records what happened to its descriptor; `kill` when it is closing. -/
def fire (kill : Bool) (o : Occasion Fd) (mask : Interest) (s : System S F Fd) (id : Nat) :
    System S F Fd :=
  let m := s.heap id
  let r : Record Fd := ⟨m.fd, reported m.events mask, ⟨id, m.arming, m.events, o, m.since⟩⟩
  { s with
    waiters := s.waiters.erase id
    heap := Function.update s.heap id { m with armed := false, dead := m.dead || kill }
    sets := Function.update s.sets m.set ((s.sets m.set).push r) }

variable [DecidableEq Fd]

/-- The event is one of those that the member waits for, or an error. -/
def hits (s : System S F Fd) (ev : Event Fd) (id : Nat) : Bool :=
  (s.heap id).fd = ev.fd && ((s.heap id).events.meets ev.firedMask || ev.err || ev.hup)

def reactorEvent (s : System S F Fd) (ev : Event Fd) : System S F Fd :=
  (s.waiters.filter (s.hits ev)).foldl (fire false (.report ev) ev.firedMask) s

/-- The section of `__cajeta_reactor_loop_body`. -/
def reactorRound (s : System S F Fd) : System S F Fd :=
  { s.batch.foldl reactorEvent s with batch := [] }

/-- The descriptor of the members is closed. -/
def noteClosed (s : System S F Fd) (fd : Fd) : System S F Fd :=
  { s with heap := fun id => { s.heap id with
      closed := (s.heap id).closed || decide ((s.heap id).fd = fd) } }

/-- The section of `__cajeta_io_close_fd`. -/
def closeFd (s : System S F Fd) (fd : Fd) : System S F Fd :=
  ((s.waiters.filter fun id => (s.heap id).fd = fd).foldl (fire true (.closed fd) ⟨true, true⟩)
    (s.note [.closed fd])).noteClosed fd

/-- `__cajeta_io_set_add` -/
def add (s : System S F Fd) (k : S) (fd : Fd) (events : Interest) (accepts : Fd → Bool) :
    System S F Fd :=
  match (s.sets k).members.find? fun id => (s.heap id).fd = fd && !(s.heap id).dead with
  | some id =>
    arm accepts { s with heap := Function.update s.heap id { s.heap id with events } } id
  | none =>
    let s' : System S F Fd := { s with
      heap := Function.update s.heap s.next ⟨fd, events, k, false, false, 0, false, []⟩
      next := s.next + 1 }
    -- a member that cannot be armed is unlinked and freed
    if accepts fd then
      arm accepts { s' with sets := Function.update s.sets k { s.sets k with
        members := s.next :: (s.sets k).members } } s.next
    else s'

/-- `__cajeta_io_set_drop_member_locked` -/
def dropMember (k : S) (s : System S F Fd) (id : Nat) : System S F Fd :=
  let m := s.heap id
  { s with
    waiters := if m.armed then s.waiters.erase id else s.waiters
    heap := Function.update s.heap id { m with armed := false }
    sets := Function.update s.sets k { s.sets k with
      members := (s.sets k).members.erase id
      ring := (s.sets k).ring.filter fun r => r.fd ≠ m.fd } }

/-- The member that `__cajeta_io_set_remove` finds. -/
def findMember (s : System S F Fd) (k : S) (fd : Fd) : Option Nat :=
  (s.sets k).members.find? fun id => (s.heap id).fd = fd

def remove (s : System S F Fd) (k : S) (fd : Fd) : System S F Fd :=
  match s.findMember k fd with
  | some id => s.dropMember k id
  | none => s

/-- `__cajeta_io_set_destroy` -/
def destroy (s : System S F Fd) (k : S) : System S F Fd :=
  (s.sets k).members.foldl (dropMember k) s

/-- `__cajeta_io_set_drain_locked` -/
def drain (s : System S F Fd) (k : S) (cap : Nat) : System S F Fd :=
  { s with sets := Function.update s.sets k { s.sets k with
      ring := (s.sets k).ring.drop cap
      returned := (s.sets k).returned ++ (s.sets k).ring.take cap } }

def armAll (s : System S F Fd) (k : S) (accepts : Fd → Bool) : System S F Fd :=
  (s.sets k).members.foldl (arm accepts) s

variable [DecidableEq F]

def look (s : System S F Fd) (f : F) (k : S) (cap : Nat) : System S F Fd :=
  if (s.sets k).ring = [] then { s with waiting := Function.update s.waiting f (some (k, cap)) }
  else { s.drain k cap with waiting := Function.update s.waiting f none }

/-- `__cajeta_io_set_wait` up to the point where it returns or parks. -/
def wait (s : System S F Fd) (f : F) (k : S) (cap : Nat) (accepts : Fd → Bool) : System S F Fd :=
  (s.armAll k accepts).look f k cap

/-- A step closes a descriptor, drops a member, works through the reactor's batch, or does something
else. -/
inductive Action (S Fd : Type) where
  | close (fd : Fd)
  | remove (k : S) (fd : Fd)
  | round
  | other

inductive Step : System S F Fd → Action S Fd → System S F Fd → Prop where
  | add (k : S) (fd : Fd) (events : Interest) (accepts : Fd → Bool)
    (hev : events.read || events.write) : Step s .other (s.add k fd events accepts)
  | remove (k : S) (fd : Fd) : Step s (.remove k fd) (s.remove k fd)
  | destroy (k : S) : Step s .other (s.destroy k)
  | wait (k : S) (cap : Nat) (accepts : Fd → Bool) (hf : s.waiting f = none) (hcap : 0 < cap) :
    Step s .other (s.wait f k cap accepts)
  | look (hf : s.waiting f = some (k, cap)) : Step s .other (s.look f k cap)
  /-- The deadline has passed, or the wait throws. -/
  | leave (hf : s.waiting f = some (k, cap)) :
    Step s .other { s with waiting := Function.update s.waiting f none }
  | reactorFetch (evs : List (Event Fd)) (hb : s.batch = []) : Step s .other (s.fetch evs)
  | reactorRound : Step s .round s.reactorRound
  | closeFd (fd : Fd) : Step s (.close fd) (s.closeFd fd)

/-- Whoever closes a descriptor finds each member of it that is not dead armed, and room in its
ring; whoever removes a member finds no record of another one of this descriptor; and an event of a
batch hits only members that were armed before it was fetched. -/
def Guard (s : System S F Fd) : Action S Fd → Prop
  | .close fd => ∀ k, ∀ id ∈ (s.sets k).members, (s.heap id).fd = fd → (s.heap id).dead = false →
    (s.heap id).armed ∧ (s.sets k).ring.length < ringSize
  | .remove k fd => ∀ id, s.findMember k fd = some id →
    ∀ r ∈ (s.sets k).ring, r.fd = fd → r.cause.member = id
  | .round => ∀ ev ∈ s.batch, ∀ id ∈ s.waiters, s.hits ev id → .report ev ∈ (s.heap id).since
  | .other => True

def recordsOf (s : System S F Fd) (k : S) (rs : List (Record Fd)) : List (Record Fd) :=
  rs.filter fun r => r.cause.member ∈ (s.sets k).members

/-- What is expected of the sets: no record of a member is lost on the way to the waits, nor is
their order; the records are of what happened to the descriptor since the member was armed, one for
each arming; an event of a listed member is recorded, or the member is armed again by the next wait;
and a member whose descriptor was closed is reported, and never armed. -/
structure Remembers (s : System S F Fd) : Prop where
  order : ∀ k, s.recordsOf k (s.sets k).log =
    s.recordsOf k ((s.sets k).returned ++ (s.sets k).ring)
  caused : ∀ k, ∀ r ∈ (s.sets k).returned ++ (s.sets k).ring,
    r.cause.occasion ∈ r.cause.since ∧ r.cause.occasion.Concerns r.fd r.cause.interest
  once : ∀ k, (((s.sets k).returned ++ (s.sets k).ring).map
    fun r => (r.cause.member, r.cause.arming)).Nodup
  delivered : ∀ ev, ∀ id ∈ s.waiters, s.hits ev id →
    let k := (s.heap id).set
    (∃ r, r.cause.member = id ∧ r.fd = ev.fd ∧ r.ev = reported (s.heap id).events ev.firedMask ∧
      ((s.reactorEvent ev).sets k).ring = (s.sets k).ring ++ [r]) ∨
    ringSize ≤ (s.sets k).ring.length ∧ ((s.reactorEvent ev).heap id).dead = false
  rearmed : ∀ k, ∀ id ∈ (s.sets k).members, ∀ accepts, (s.heap id).dead = false →
    accepts (s.heap id).fd → ((s.armAll k accepts).heap id).armed
  closed : ∀ k, ∀ id ∈ (s.sets k).members, (s.heap id).closed →
    (s.heap id).dead ∧ (s.heap id).armed = false ∧
      ∃ r ∈ (s.sets k).returned ++ (s.sets k).ring,
        r.cause.member = id ∧ r.cause.occasion = .closed (s.heap id).fd

end

end System

end Cajeta.Concurrent.ReadySet
