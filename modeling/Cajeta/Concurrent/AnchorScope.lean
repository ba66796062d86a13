import Cajeta.Lib.Transition
import Mathlib.Logic.Function.Basic
import Mathlib.Tactic.Common

/-!
# Component scopes

One scope with its slot table, from its creation to its end. The scope of a method activation counts
the frames and inherited copies that use the table; that of an instance ends with its object. What
happens under the lock of the table is one step.
-/

namespace Cajeta.Concurrent

/-- A component of the scope, built once its instance is there. Its number stands for its address.
-/
structure AnchorSlot (X K I : Type) where
  id : Nat
  component : K
  inst : Option I
  /-- The fiber that builds it; a plain thread has none. -/
  builder : Option X
  /-- The context that builds or has built it; nothing reads it. -/
  claimant : X

/-- How far an acquire has come. `waited` is the epoch it last waited in, and the slot it waited
for, which nothing reads. -/
inductive AnchorOp (K : Type) where
  | idle
  /-- About to load the table. -/
  | resolving (k : K)
  /-- No table was there; about to put one there. -/
  | creating (k : K)
  /-- About to look for the component. -/
  | acquiring (k : K) (waited : Option (Nat × Nat))
  | waiting (k : K) (waited : Nat × Nat)
deriving DecidableEq

structure AnchorScope (X K I : Type) where
  present : Bool
  refs : Nat
  epoch : Nat
  /-- The newest first. -/
  slots : List (AnchorSlot X K I)
  /-- The contexts that have a frame of the scope, or a copy of one. -/
  frames : List X
  op : X → AnchorOp K
  /-- The slots that a context is building, the innermost build first. -/
  claims : X → List Nat
  entered : Bool
  ended : Bool
  next : Nat
  /-- What has been published, given up and dropped, the latest first; nothing reads it. -/
  published : List (Nat × I)
  abandoned : List Nat
  dropped : List (Nat × I)

inductive AnchorAction (X I K : Type) where
  /-- `__cajeta_anchor_enter`. -/
  | enter (x : X)
  /-- `__cajeta_anchor_snapshot` for a structured child. -/
  | inherit (x child : X)
  | acquire (x : X) (k : K)
  /-- The next step of the acquire. -/
  | advance (x : X)
  /-- A plain thread wakes up with nothing to wake it. -/
  | spurious (x : X)
  | publish (x : X) (inst : I)
  /-- A throw unwinds the build. -/
  | abandon (x : X)
  /-- A frame ends, or a finished child gives up its copy. -/
  | leave (x : X)
  /-- The object of an instance scope is dropped. -/
  | dropObject

/-- What an acquire answers. -/
inductive AnchorEvent (I : Type) where
  | none
  | found (inst : I)
  /-- The caller is to build the component. -/
  | build
  /-- The build it waited for failed. -/
  | failed
  /-- The caller is building it already. -/
  | cycle

namespace AnchorScope
variable {X K I : Type}

def initial : AnchorScope X K I :=
  ⟨false, 0, 0, [], [], fun _ => .idle, fun _ => [], false, false, 0, [], [], []⟩

/-- `__cajeta_anchor_table_at` where it finds no table. -/
def create (s : AnchorScope X K I) : AnchorScope X K I :=
  if s.present then s else { s with present := true, refs := 1 }

/-- `__cajeta_anchor_table_end`. -/
def tableEnd (s : AnchorScope X K I) : AnchorScope X K I :=
  { s with
    slots := []
    ended := true
    dropped := (s.slots.filterMap fun t => t.inst.map (t.id, ·)).reverse }

/-- `__cajeta_anchor_table_release`. -/
def tableRelease (s : AnchorScope X K I) : AnchorScope X K I :=
  if s.refs = 1 then { s.tableEnd with refs := 0 } else { s with refs := s.refs - 1 }

/-- Everybody who waits looks again. -/
def wake (s : AnchorScope X K I) : AnchorScope X K I :=
  { s with op := fun x =>
      match s.op x with
      | .waiting k waited => .acquiring k (some waited)
      | op => op }

variable [DecidableEq X]

def setOp (s : AnchorScope X K I) (x : X) (op : AnchorOp K) : AnchorScope X K I :=
  { s with op := Function.update s.op x op }

def setClaims (s : AnchorScope X K I) (x : X) (claims : List Nat) : AnchorScope X K I :=
  { s with claims := Function.update s.claims x claims }

variable [DecidableEq K]

/-- What `__cajeta_anchor_acquire_in` does while it has the lock; `self` is the current fiber. -/
def acquireIn (s : AnchorScope X K I) (self : Option X) (x : X) (k : K)
    (waited : Option (Nat × Nat)) : AnchorScope X K I × AnchorEvent I :=
  match s.slots.find? (·.component = k) with
  | some slot =>
    match slot.inst with
    | some inst => (s.setOp x .idle, .found inst)
    | none =>
      if slot.builder = self then (s.setOp x .idle, .cycle)
      else (s.setOp x (.waiting k (s.epoch, slot.id)), .none)
  | none =>
    if waited.any (·.1 ≠ s.epoch) then (s.setOp x .idle, .failed)
    else
      ({ (s.setOp x .idle).setClaims x (s.next :: s.claims x) with
        slots := ⟨s.next, k, none, self, x⟩ :: s.slots
        next := s.next + 1 }, .build)

/-- `__cajeta_anchor_publish_in` on the innermost build. -/
def publishIn (s : AnchorScope X K I) (x : X) (id : Nat) (claims : List Nat) (inst : I) :
    AnchorScope X K I :=
  { (s.setClaims x claims).wake with
    slots := s.slots.map fun t => if t.id = id then { t with inst := some inst, builder :=
      none } else t
    published := (id, inst) :: s.published }

/-- `__cajeta_anchor_abandon` of the innermost build. -/
def abandonIn (s : AnchorScope X K I) (x : X) (id : Nat) (claims : List Nat) : AnchorScope X K I :=
  { (s.setClaims x claims).wake with
    slots := s.slots.eraseP (·.id = id)
    epoch := s.epoch + 1
    abandoned := id :: s.abandoned }

/-- A scope of a method (`method`) or of an instance, used by fibers and plain threads. -/
def step (method : Bool) (fiber : X → Bool) (s : AnchorScope X K I) :
    AnchorAction X I K → Option (AnchorScope X K I × AnchorEvent I)
  | .enter x =>
    -- each activation of a method has a scope of its own
    if s.ended || method && s.entered then none
    else some ({ s with frames := x :: s.frames, entered := true }, .none)
  | .inherit x child =>
    if x ∈ s.frames ∧ fiber child then
      if method then
        some ({ s.create with frames := child :: s.frames, refs := s.create.refs + 1 }, .none)
      else some ({ s with frames := child :: s.frames }, .none)
    else none
  | .acquire x k =>
    if x ∈ s.frames ∧ s.op x = .idle then some (s.setOp x (.resolving k), .none) else none
  | .advance x =>
    match s.op x with
    | .resolving k =>
      some (s.setOp x (if s.present then .acquiring k none else .creating k), .none)
    | .creating k => some (s.create.setOp x (.acquiring k none), .none)
    | .acquiring k waited => some (s.acquireIn (if fiber x then some x else none) x k waited)
    | _ => none
  | .spurious x =>
    match s.op x with
    | .waiting k waited =>
      if fiber x then none else some (s.setOp x (.acquiring k (some waited)), .none)
    | _ => none
  | .publish x inst =>
    match s.op x, s.claims x with
    | .idle, id :: claims => some (s.publishIn x id claims inst, .none)
    | _, _ => none
  | .abandon x =>
    match s.op x, s.claims x with
    | .idle, id :: claims => some (s.abandonIn x id claims, .none)
    | _, _ => none
  | .leave x =>
    -- what a context does in a scope is over when its last frame ends
    if x ∈ s.frames ∧ s.op x = .idle ∧ (x ∈ s.frames.erase x ∨ s.claims x = []) then
      let s := { s with frames := s.frames.erase x }
      some (if method && s.present then s.tableRelease else s, .none)
    else none
  | .dropObject =>
    if method || s.ended || !s.frames.isEmpty then none
    else some ({ s.tableEnd with refs := 0 }, .none)

abbrev Step (method : Bool) (fiber : X → Bool) (s : AnchorScope X K I)
    (l : AnchorAction X I K × AnchorEvent I) (s' : AnchorScope X K I) : Prop :=
  s.step method fiber l.1 = some (s', l.2)

def Builds (s : AnchorScope X K I) (x : X) (k : K) : Prop :=
  ∃ t ∈ s.slots, t.component = k ∧ t.inst = none ∧ t.id ∈ s.claims x

end AnchorScope

end Cajeta.Concurrent
