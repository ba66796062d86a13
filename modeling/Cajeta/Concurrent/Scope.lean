import Cajeta.Lib.Transition
import Mathlib.Logic.Function.Basic
import Mathlib.Tactic.Common

/-!
# Scope frames

Tasks, the scope frames in which they are registered, and the exit that joins them. A party is the
program thread or the fiber of a task; what one of them does between two waits is one step.
-/

namespace Cajeta.Concurrent

abbrev TaskId := Nat

abbrev Throwable := Nat

inductive Party where
  | program
  | fiber (t : TaskId)
deriving DecidableEq

structure ScopeTask where
  done : Bool
  /-- The exception slot: what the body threw, until an `await` throws it. -/
  exception : Option Throwable
  /-- The fiber slot is not null. -/
  running : Bool
  /-- What the spawn was, and how often the task has been freed; nothing reads these. -/
  spawner : Option Party
  discarded : Bool
  freed : Nat

abbrev ScopeTasks := TaskId → ScopeTask

/-- The addresses of the fields of a task, null once the entry is deregistered. -/
structure ScopeEntry where
  doneAddr : Option TaskId
  exceptionAddr : Option TaskId
  fiberSlot : Option TaskId
  ownedTask : Option TaskId

namespace ScopeEntry

def cleared : ScopeEntry := ⟨none, none, none, none⟩

def of (t : TaskId) (owned : Bool) : ScopeEntry :=
  ⟨some t, some t, some t, if owned then some t else none⟩

def exception (tasks : ScopeTasks) (e : ScopeEntry) : Option Throwable :=
  e.exceptionAddr.bind fun t => (tasks t).exception

def dead (e : ScopeEntry) : Bool :=
  e.doneAddr.isNone && e.exceptionAddr.isNone && e.ownedTask.isNone

def finished (tasks : ScopeTasks) (e : ScopeEntry) : Bool :=
  e.ownedTask.isSome && (e.doneAddr.any fun t => (tasks t).done) && (e.exception tasks).isNone

end ScopeEntry

structure ScopeFrame where
  entries : List ScopeEntry
  cap : Nat
  /-- Every task that was registered here; nothing reads it. -/
  registered : List TaskId

/-- `__cajeta_free` of each of the tasks. -/
def ScopeTasks.free (tasks : ScopeTasks) (ts : List TaskId) : ScopeTasks := fun t =>
  { tasks t with freed := (tasks t).freed + ts.count t }

/-- `await` empties the exception slot before it throws what was in it. -/
def ScopeTasks.await (tasks : ScopeTasks) (t : TaskId) : ScopeTasks := fun u =>
  { tasks u with exception := if u = t then none else (tasks u).exception }

namespace ScopeFrame

def empty : ScopeFrame := ⟨[], 0, []⟩

/-- `__cajeta_scope_reap`. -/
def reap (tasks : ScopeTasks) (f : ScopeFrame) : ScopeTasks × ScopeFrame :=
  (tasks.free ((f.entries.filter (ScopeEntry.finished tasks)).filterMap ScopeEntry.ownedTask),
    { f with entries := f.entries.filter fun e => !e.finished tasks && !e.dead })

def grow (f : ScopeFrame) : ScopeFrame :=
  if f.entries.length = f.cap then { f with cap := if f.cap ≠ 0 then f.cap * 2 else 4 } else f

def append (f : ScopeFrame) (t : TaskId) (owned : Bool) : ScopeFrame :=
  { f with
    entries := f.entries ++ [.of t owned]
    registered := f.registered ++ [t] }

/-- `__cajeta_scope_register`, and `__cajeta_scope_register_owned` when `owned`. -/
def register (tasks : ScopeTasks) (f : ScopeFrame) (t : TaskId) (owned : Bool) :
    ScopeTasks × ScopeFrame :=
  if f.entries.length = f.cap then
    let (tasks, f) := f.reap tasks
    (tasks, f.grow.append t owned)
  else (tasks, f.append t owned)

/-- `__cajeta_scope_deregister_task`, in one frame. -/
def deregister (t : TaskId) (f : ScopeFrame) : ScopeFrame :=
  { f with entries := f.entries.map fun e => if e.doneAddr = some t then .cleared else e }

/-- `__cajeta_scope_release`. -/
def release (tasks : ScopeTasks) (f : ScopeFrame) : ScopeTasks :=
  tasks.free (f.entries.filterMap ScopeEntry.ownedTask)

end ScopeFrame

/-- Where the wait for an entry stands. -/
inductive JoinPhase where
  | next
  | loop
  | parked
deriving DecidableEq

/-- An exit under way: `mark` is how many frames the chain keeps. -/
structure ScopeExit where
  mark : Nat
  i : Nat
  phase : JoinPhase
  frameTrigger : Option Throwable
  trigger : Option Throwable
  /-- The chain at the start of the exit; nothing reads it. -/
  entered : List ScopeFrame

structure ScopeParty where
  chain : List ScopeFrame
  cancelWith : Option Throwable
  exit : Option ScopeExit
  /-- How the last exit ended, and with what exception, until the party goes on; nothing reads it.
  -/
  ended : Option (ScopeExit × Option Throwable)

structure ScopeSystem where
  tasks : ScopeTasks
  parties : Party → ScopeParty

inductive SpawnMode where
  | named
  | discarded
  | detached
deriving DecidableEq

namespace ScopeSystem

def initial : ScopeSystem :=
  ⟨fun _ => ⟨false, none, false, none, false, 0⟩, fun _ => ⟨[], none, none, none⟩⟩

def setParty (s : ScopeSystem) (p : Party) (a : ScopeParty) : ScopeSystem :=
  { s with parties := Function.update s.parties p a }

def setTask (s : ScopeSystem) (t : TaskId) (k : ScopeTask) : ScopeSystem :=
  { s with tasks := Function.update s.tasks t k }

/-- The fiber of `t` has started and not yet completed. -/
def started (s : ScopeSystem) (t : TaskId) : Bool := (s.tasks t).spawner.isSome && !(s.tasks t).done

def idle (s : ScopeSystem) (p : Party) : Bool :=
  (s.parties p).exit.isNone && match p with | .program => true | .fiber t => s.started t

/-- `__cajeta_fiber_cancel` of the fibers in the slots that are not null. -/
def cancelAll (s : ScopeSystem) (ts : List TaskId) (c : Throwable) : ScopeSystem :=
  { s with parties := fun
      | .program => s.parties .program
      | .fiber t =>
        if t ∈ ts ∧ (s.tasks t).running then { s.parties (.fiber t) with cancelWith := some c }
        else s.parties (.fiber t) }

def spawned (p : Party) (mode : SpawnMode) : ScopeTask :=
  ⟨false, none, true, some p, mode = .discarded, 0⟩

def spawn (s : ScopeSystem) (p : Party) (t : TaskId) (mode : SpawnMode) : ScopeSystem :=
  let s := s.setTask t (spawned p mode)
  let a := { s.parties p with ended := none }
  match a.chain with
  | [] => s.setParty p a
  | f :: chain =>
    if mode = .detached then s.setParty p a
    else
      let (tasks, f) := f.register s.tasks t (mode = .discarded)
      { s with tasks }.setParty p { a with chain := f :: chain }

/-- The spawner awaits a task that has completed. -/
def await (s : ScopeSystem) (p : Party) (t : TaskId) : ScopeSystem :=
  { s with tasks := s.tasks.await t }.setParty p { s.parties p with ended := none }

/-- The drop of a task that its spawner holds, awaited or not: the wait for it has returned. -/
def drop (s : ScopeSystem) (p : Party) (t : TaskId) : ScopeSystem :=
  let a := s.parties p
  { s with tasks := s.tasks.free [t] }.setParty p
    { a with chain := a.chain.map (ScopeFrame.deregister t), ended := none }

def setExit (s : ScopeSystem) (p : Party) (x : ScopeExit) : ScopeSystem :=
  s.setParty p { s.parties p with exit := some x }

def endExit (s : ScopeSystem) (p : Party) (x : ScopeExit) (raised : Option Throwable) :
    ScopeSystem :=
  s.setParty p { s.parties p with exit := none, ended := some (x, raised) }

/-- The wait throws the pending cancellation. -/
def throwCancel (s : ScopeSystem) (p : Party) (x : ScopeExit) (c : Throwable) : ScopeSystem :=
  (s.setParty p { s.parties p with cancelWith := none }).endExit p x (some c)

/-- The wait for the entry has returned: its exception, when it is the first one of the frame,
cancels the siblings behind it. -/
def joined (s : ScopeSystem) (p : Party) (x : ScopeExit) (f : ScopeFrame) (e : ScopeEntry) :
    ScopeSystem :=
  match x.frameTrigger, e.exception s.tasks with
  | none, some c =>
    (s.cancelAll ((f.entries.drop (x.i + 1)).filterMap ScopeEntry.fiberSlot) c).setExit p
      { x with i := x.i + 1, phase := .next, frameTrigger := some c }
  | _, _ => s.setExit p { x with i := x.i + 1, phase := .next }

/-- The loop over the entries looks at the next one: `__cajeta_task_wait` up to its loop. -/
def look (s : ScopeSystem) (p : Party) (x : ScopeExit) (e : ScopeEntry) : ScopeSystem :=
  if e.doneAddr = none then s.setExit p { x with i := x.i + 1 }
  else
    match (s.parties p).cancelWith with
    | some c => s.throwCancel p x c
    | none => s.setExit p { x with phase := .loop }

/-- `__cajeta_task_wait` looks at `done`. -/
def check (s : ScopeSystem) (p : Party) (x : ScopeExit) (f : ScopeFrame) (e : ScopeEntry) :
    ScopeSystem :=
  if e.doneAddr.any fun t => (s.tasks t).done then s.joined p x f e
  else s.setExit p { x with phase := .parked }

/-- `__cajeta_task_wait` behind the park. -/
def wake (s : ScopeSystem) (p : Party) (x : ScopeExit) : ScopeSystem :=
  match (s.parties p).cancelWith with
  | some c => s.throwCancel p x c
  | none => s.setExit p { x with phase := .loop }

/-- All entries of the frame are joined: it leaves the chain. -/
def pop (s : ScopeSystem) (p : Party) (x : ScopeExit) (f : ScopeFrame) (chain : List ScopeFrame) :
    ScopeSystem :=
  { s with tasks := f.release s.tasks }.setParty p { s.parties p with
    chain
    exit := some { x with i := 0, frameTrigger := none, trigger := x.trigger.or x.frameTrigger }
    ended := none }

inductive ScopeAction where
  /-- `__cajeta_scope_enter`. -/
  | enter (p : Party)
  | spawn (p : Party) (t : TaskId) (mode : SpawnMode)
  /-- The trampoline stores what the body threw. -/
  | store (t : TaskId) (c : Throwable)
  /-- `__cajeta_task_complete`. -/
  | complete (t : TaskId)
  /-- `__cajeta_fiber_cancel` from anywhere. -/
  | cancel (t : TaskId) (c : Throwable)
  /-- A wait outside an exit throws the pending cancellation. -/
  | deliver (p : Party)
  | await (p : Party) (t : TaskId)
  | drop (p : Party) (t : TaskId)
  /-- `__cajeta_scope_exit_to` a watermark that `mark` frames lie up to, and `__cajeta_scope_exit`
  with one frame less than the chain has. -/
  | beginExit (p : Party) (mark : Nat)
  | look (p : Party)
  | check (p : Party)
  | wake (p : Party)
  | pop (p : Party)
  | finish (p : Party)

/-- The exit of `p` at the frame that it works on, unless the watermark is reached. -/
def current (s : ScopeSystem) (p : Party) (phase : JoinPhase) :
    Option (ScopeExit × ScopeFrame × List ScopeFrame) :=
  match (s.parties p).exit, (s.parties p).chain with
  | some x, f :: chain =>
    if x.phase = phase ∧ chain.length + 1 ≠ x.mark then some (x, f, chain) else none
  | _, _ => none

/-- `p` has spawned the task, has not dropped it, and has waited for it. -/
def holds (s : ScopeSystem) (p : Party) (t : TaskId) : Prop :=
  s.idle p ∧ (s.tasks t).spawner = some p ∧ (s.tasks t).done ∧ !(s.tasks t).discarded ∧
    (s.tasks t).freed = 0

instance (s : ScopeSystem) (p : Party) (t : TaskId) : Decidable (s.holds p t) :=
  inferInstanceAs (Decidable (_ ∧ _))

def step (s : ScopeSystem) : ScopeAction → Option ScopeSystem
  | .enter p =>
    if s.idle p then
      some (s.setParty p
        { s.parties p with chain := .empty :: (s.parties p).chain, ended := none })
    else none
  | .spawn p t mode =>
    if s.idle p ∧ (s.tasks t).spawner = none then some (s.spawn p t mode) else none
  | .store t c =>
    if s.idle (.fiber t) then some (s.setTask t { s.tasks t with exception := some c }) else none
  | .complete t =>
    if s.idle (.fiber t) then some (s.setTask t { s.tasks t with done := true, running := false })
    else none
  | .cancel t c => some (s.cancelAll [t] c)
  | .deliver p =>
    if s.idle p then some (s.setParty p { s.parties p with cancelWith := none, ended := none })
    else none
  | .await p t => if s.holds p t then some (s.await p t) else none
  | .drop p t => if s.holds p t then some (s.drop p t) else none
  | .beginExit p mark =>
    if s.idle p then
      some (s.setParty p { s.parties p with
        exit := some ⟨mark, 0, .next, none, none, (s.parties p).chain⟩, ended := none })
    else none
  | .look p => do
    let (x, f, _) ← s.current p .next
    let e ← f.entries[x.i]?
    return s.look p x e
  | .check p => do
    let (x, f, _) ← s.current p .loop
    let e ← f.entries[x.i]?
    return s.check p x f e
  | .wake p => do
    let (x, _, _) ← s.current p .parked
    return s.wake p x
  | .pop p => do
    let (x, f, chain) ← s.current p .next
    if x.i = f.entries.length then return s.pop p x f chain else none
  | .finish p =>
    match (s.parties p).exit with
    | none => none
    | some x =>
      if (s.parties p).chain.length = x.mark ∨ (s.parties p).chain = [] then
        some (s.endExit p x x.trigger)
      else none

abbrev Step (s : ScopeSystem) (a : ScopeAction) (s' : ScopeSystem) : Prop := s.step a = some s'

end ScopeSystem

end Cajeta.Concurrent
