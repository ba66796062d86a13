import Cajeta.Lib.Transition
import Mathlib.Logic.Function.Basic

/-!
# The session registry

A slot for each name that a script has bound. Binding a name again runs the drop function of the
old value while its slot still holds it, and so does the sweep that ends the session. A drop
function is arbitrary code: it may call every operation again, on any name, or leave by a throw.
So the operations that wait for a drop function form a stack, and what happens next is up to the
code that runs.
-/

namespace Cajeta.Memory.Session

abbrev Value := Nat

structure Slot where
  /-- The owned copy of the name, null once it is freed. -/
  name : Option String
  obj : Option Value
  /-- There is a drop function. -/
  drop : Bool
deriving DecidableEq, Repr

/-- An operation in the middle of a drop function, with the pointer to its slot: the array the
pointer is into, and the index. -/
inductive Frame where
  | bind (name : String) (gen idx : Nat) (old obj : Value) (drop : Bool)
  | sweep (gen idx : Nat) (old : Value)
deriving DecidableEq, Repr

namespace Frame

def gen : Frame → Nat
  | .bind _ gen .. | .sweep gen .. => gen

def idx : Frame → Nat
  | .bind _ _ idx .. | .sweep _ idx _ => idx

/-- The value whose drop function runs. -/
def old : Frame → Value
  | .bind _ _ _ old .. | .sweep _ _ old => old

/-- The value that is still to be put into the slot. -/
def pending : Frame → Option Value
  | .bind _ _ _ _ obj _ => some obj
  | .sweep .. => none

/-- The name that is bound again. -/
def rebound : Frame → Option String
  | .bind name .. => some name
  | .sweep .. => none

end Frame

inductive Event where
  | bound (name : String) (v : Value) (drop : Bool)
  /-- A drop function starts, at the rebind of the name or in the sweep. -/
  | started (v : Value) (rebound : Option String)
  | disarmed (v : Value)
deriving DecidableEq, Repr

/-- Why the program has no meaning any more. -/
inductive Fault where
  /-- A name was compared that has been freed. -/
  | freedName
  /-- A slot was written that has moved. -/
  | movedSlot
deriving DecidableEq, Repr

structure System where
  /-- The cells of the array that were written at least once. -/
  slots : List Slot := []
  len : Nat := 0
  cap : Nat := 0
  /-- Which array the slots are in. -/
  gen : Nat := 0
  stack : List Frame := []
  fault : Option Fault := none
  /-- The values whose titles were handed in. -/
  handed : List Value := []
  log : List Event := []
  /-- The last value bound to each name. -/
  last : String → Option Value := fun _ => none
  /-- The names since the registry was empty, in the order they were first bound in. -/
  first : List String := []

def find (name : String) : List Slot → Except Fault (Option Nat)
  | [] => .ok none
  | slot :: slots =>
    match slot.name with
    | none => .error .freedName
    | some n => if n = name then .ok (some 0) else (find name slots).map (·.map (· + 1))

namespace System

def held (s : System) (i : Nat) : Option Value := (s.slots[i]?).bind (·.obj)

/-- `cajeta_session_find`. -/
def lookup (s : System) (name : String) : Except Fault (Option Nat) :=
  find name (s.slots.take s.len)

def fail (s : System) (fault : Fault) : System := { s with fault := some fault }

def record (s : System) (e : Event) : System := { s with log := s.log ++ [e] }

/-- The drop function of a value starts, and the operation waits for it. -/
def start (s : System) (f : Frame) : System :=
  { s.record (.started f.old f.rebound) with stack := f :: s.stack }

/-- A slot takes a new occupant. -/
def install (s : System) (i : Nat) (name : String) (v : Value) (drop : Bool) : System :=
  { s.record (.bound name v drop) with
    slots := s.slots.modify i fun slot => { slot with obj := some v, drop }
    last := Function.update s.last name (some v) }

/-- The array is grown, and is moved or not. -/
def grow (s : System) (moved : Bool) : System :=
  if s.len = s.cap then
    { s with
      cap := if s.cap = 0 then 8 else s.cap * 2
      gen := if moved then s.gen + 1 else s.gen }
  else s

def append (s : System) (name : String) (v : Value) (drop : Bool) : System :=
  let slot : Slot := ⟨some name, some v, drop⟩
  { s.record (.bound name v drop) with
    slots := if s.len < s.slots.length then s.slots.set s.len slot else s.slots ++ [slot]
    len := s.len + 1
    last := Function.update s.last name (some v)
    first := s.first ++ [name] }

/-- What a drop function has to be called for. -/
def owed (s : System) (i : Nat) : Option Value :=
  (s.slots[i]?).bind fun slot => if slot.drop then slot.obj else none

/-- A slot that is found takes the value, after the drop function of its own if there is one. -/
def rebind (s : System) (i : Nat) (name : String) (v : Value) (drop : Bool) : System :=
  match s.owed i with
  | some old => s.start (.bind name s.gen i old v drop)
  | none => s.install i name v drop

/-- `__cajeta_session_bind`, with whether the array moves if it is grown. -/
def bind (s : System) (name : String) (v : Value) (drop moved : Bool) : System :=
  let s := { s with handed := v :: s.handed }
  match s.lookup name with
  | .error fault => s.fail fault
  | .ok (some i) => s.rebind i name v drop
  | .ok none => (s.grow moved).append name v drop

/-- `__cajeta_session_bind_value`: nothing without a source, else a box that is freed is bound. -/
def bindValue (s : System) (name : String) (src : Bool) (size : Int) (box : Value)
    (moved : Bool) : System :=
  if src ∧ 0 < size then s.bind name box true moved else s

def quiet (s : System) (i : Nat) (name : String) : System :=
  { s with
    slots := s.slots.modify i fun slot => { slot with obj := none, drop := false }
    last := Function.update s.last name none
    log := s.log ++ (s.held i).toList.map .disarmed }

def disarm (s : System) (name : String) : System :=
  match s.lookup name with
  | .error fault => s.fail fault
  | .ok none => s
  | .ok (some i) => s.quiet i name

def get (s : System) (name : String) : Except Fault (Option Value) :=
  (s.lookup name).map fun i => i.bind s.held

def count (s : System) : Nat := s.len

def clear (s : System) (i : Nat) : System :=
  { s with
    slots := s.slots.modify i fun _ => ⟨none, none, false⟩
    last := ((s.slots[i]?).bind (·.name)).elim s.last fun name => Function.update s.last name none }

/-- `__cajeta_session_drop_all` from the slot below `i` down. -/
def sweep (s : System) : Nat → System
  | 0 => { s with len := 0, first := [] }
  | i + 1 =>
    match s.owed i with
    | some old => s.start (.sweep s.gen i old)
    | none => sweep (s.clear i) i

def dropAll (s : System) : System := s.sweep s.len

/-- The drop function that runs returns, and the operation that waits for it goes on. -/
def ret (s : System) : System :=
  match s.stack with
  | [] => s
  | f :: stack =>
    let s := { s with stack }
    if f.gen ≠ s.gen then s.fail .movedSlot
    else match f with
      | .bind name _ i _ v drop => s.install i name v drop
      | .sweep _ i _ => (s.clear i).sweep i

/-- The drop function that runs is left by a throw, and with it the operation. -/
def throw (s : System) : System := { s with stack := s.stack.tail }

end System

inductive Action where
  | bind (name : String) (v : Value) (drop moved : Bool)
  | bindValue (name : String) (src : Bool) (size : Int) (box : Value) (moved : Bool)
  | disarm (name : String)
  | get (name : String)
  | count
  | dropAll
  | ret
  | throw
deriving DecidableEq, Repr

namespace System

def exec (s : System) : Action → System
  | .bind name v drop moved => s.bind name v drop moved
  | .bindValue name src size box moved => s.bindValue name src size box moved
  | .disarm name => s.disarm name
  | .get name =>
    match s.get name with
    | .error fault => s.fail fault
    | .ok _ => s
  | .count => s
  | .dropAll => s.dropAll
  | .ret => s.ret
  | .throw => s.throw

/-- What the code that runs may do: a title is handed in at most once, and only a drop function
returns or is left. -/
def Enabled (s : System) : Action → Prop
  | .bind _ v _ _ => v ∉ s.handed
  | .bindValue _ _ _ box _ => box ∉ s.handed
  | .ret | .throw => s.stack ≠ []
  | _ => True

instance (s : System) : (a : Action) → Decidable (s.Enabled a)
  | .bind _ v _ _ => inferInstanceAs (Decidable (v ∉ s.handed))
  | .bindValue _ _ _ box _ => inferInstanceAs (Decidable (box ∉ s.handed))
  | .ret | .throw => inferInstanceAs (Decidable (s.stack ≠ []))
  | .disarm _ | .get _ | .count | .dropAll => .isTrue trivial

def Step (s : System) (a : Action) (s' : System) : Prop :=
  s.fault = none ∧ s.Enabled a ∧ s' = s.exec a

def initial : System := {}

end System

end Cajeta.Memory.Session
