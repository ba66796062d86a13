import Cajeta.Lib.Transition
import Mathlib.Tactic.Common

/-!
# The drop chain of a fiber

Scope exits and throws walk one chain of drop entries with different code. The program is any
well-nested sequence of calls: a region is closed and a drop function returns only as the innermost
thing on the stack, and nobody pops an entry that an enclosing region or drop function stands on.
-/

namespace Cajeta.Memory

/-- A linked entry. Its number stands for its address; a later push gets a larger one. -/
structure DropEntry where
  id : Nat
  active : Bool
  /-- It has a drop function. -/
  dropFn : Bool
deriving DecidableEq

def DropEntry.armed (e : DropEntry) : Bool := e.active && e.dropFn

/-- What the stack of the fiber holds, of what the chain is concerned with. -/
inductive DropFrame where
  /-- Between `__cajeta_exc_push` and `__cajeta_exc_pop`, with its `drop_watermark`. -/
  | region (watermark : Option Nat)
  /-- A drop function called by `__cajeta_drop_pop_run`. -/
  | popRun (id : Nat)
  /-- The loop of `__cajeta_throw_titled`. -/
  | throwing
  /-- A drop function called by that loop. -/
  | unwinding (id : Nat)
deriving DecidableEq

inductive DropEvent where
  /-- The drop function is called. -/
  | start (id : Nat)
  /-- The entry is taken off the chain, with or without a drop function to run. -/
  | leave (id : Nat) (armed : Bool)
deriving DecidableEq

structure DropChain where
  /-- From the top on. -/
  chain : List DropEntry
  stack : List DropFrame
  next : Nat
  exited : Bool
  /-- What has happened, the latest first; nothing reads it. -/
  log : List DropEvent

namespace DropChain

def initial : DropChain := ⟨[], [], 0, false, []⟩

def ids (s : DropChain) : List Nat := s.chain.map DropEntry.id

def top (s : DropChain) : Option Nat := s.ids.head?

/-- The regions and calls from the innermost region on: what `__cajeta_exc_top_ptr` leads to. -/
def unwindTo : List DropFrame → List DropFrame
  | [] => []
  | .region w :: stack => .region w :: stack
  | _ :: stack => unwindTo stack

def runs (s : DropChain) : Bool := !s.exited && s.stack.head? ≠ some .throwing

/-- The innermost region or drop function stands on the entry. -/
def marked : List DropFrame → Nat → Bool
  | .region w :: _, i => w = some i
  | .popRun j :: _, i | .unwinding j :: _, i => j = i
  | _, _ => false

/-- `__cajeta_drop_push_flag`. -/
def pushFlag (s : DropChain) (dropFn flag : Bool) : DropChain :=
  { s with chain := ⟨s.next, flag, dropFn⟩ :: s.chain, next := s.next + 1 }

/-- `__cajeta_drop_set_flag`. -/
def setFlag (s : DropChain) (id : Nat) (flag : Bool) : DropChain :=
  { s with chain := s.chain.map fun e => if e.id = id then { e with active := flag } else e }

def markInactive (s : DropChain) (id : Nat) : DropChain := s.setFlag id false

/-- `__cajeta_drop_take_active`, with its answer. -/
def takeActive (s : DropChain) (id : Nat) : Bool × DropChain :=
  (s.chain.any fun e => e.id = id && e.active, s.setFlag id false)

/-- `*top = e->prev`. -/
def unlink (s : DropChain) (e : DropEntry) (rest : List DropEntry) : DropChain :=
  { s with chain := rest, log := .leave e.id e.armed :: s.log }

def call (s : DropChain) (id : Nat) (frame : DropFrame) : DropChain :=
  { s with stack := frame :: s.stack, log := .start id :: s.log }

inductive DropAction where
  | push (dropFn flag : Bool)
  | setFlag (id : Nat) (flag : Bool)
  | markInactive (id : Nat)
  | takeActive (id : Nat)
  | popRun
  | excPush
  | excPop
  | throw
  /-- An iteration of the loop of a throw. -/
  | unwind
  /-- A drop function returns and its caller takes the entry off the chain. -/
  | returns
deriving DecidableEq

/-- A throw looks for the innermost region; without one the process ends. -/
def throw (s : DropChain) : DropChain :=
  match unwindTo s.stack with
  | .region _ :: _ => { s with stack := .throwing :: s.stack }
  | _ => { s with exited := true }

/-- An iteration of the loop of a throw. -/
def unwind (s : DropChain) : DropChain :=
  match unwindTo s.stack, s.chain with
  | .region w :: stack, e :: rest =>
    if w = some e.id then { s with stack := .region w :: stack }
    else if e.armed then s.call e.id (.unwinding e.id)
    else s.unlink e rest
  | stack, _ => { s with stack }

def step (s : DropChain) : DropAction → Option DropChain
  | .push dropFn flag => if s.runs then some (s.pushFlag dropFn flag) else none
  | .setFlag id flag => if s.runs then some (s.setFlag id flag) else none
  | .markInactive id => if s.runs then some (s.markInactive id) else none
  | .takeActive id => if s.runs then some (s.takeActive id).2 else none
  | .popRun =>
    match s.chain with
    | [] => none
    | e :: rest =>
      if !s.runs || marked s.stack e.id then none
      else if e.armed then some (s.call e.id (.popRun e.id))
      else some (s.unlink e rest)
  | .excPush => if s.runs then some { s with stack := .region s.top :: s.stack } else none
  | .excPop =>
    match s.stack with
    | .region _ :: stack => if s.exited then none else some { s with stack }
    | _ => none
  | .throw => if s.runs then some s.throw else none
  | .unwind => if s.stack.head? = some .throwing then some s.unwind else none
  | .returns =>
    match s.stack, s.chain with
    | .popRun i :: stack, e :: rest | .unwinding i :: stack, e :: rest =>
      if s.exited || e.id ≠ i then none else some { s.unlink e rest with stack }
    | _, _ => none

abbrev Step (s : DropChain) (a : DropAction) (s' : DropChain) : Prop := s.step a = some s'

/-- How often the drop function of the entry has been called. -/
def starts (s : DropChain) (id : Nat) : Nat := s.log.count (.start id)

def running : List DropFrame → List Nat
  | .popRun i :: stack | .unwinding i :: stack => i :: running stack
  | _ :: stack => running stack
  | [] => []

end DropChain

end Cajeta.Memory
