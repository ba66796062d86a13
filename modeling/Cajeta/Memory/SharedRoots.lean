import Cajeta.Lib.Transition
import Mathlib.Logic.Function.Basic
import Mathlib.Tactic.Common

/-!
# Shared roots

The buffers of strings and arrays, the table that counts the stakes in a shared one, and the values
that look at them: owners, views with a stake, and borrows.
-/

namespace Cajeta.Memory.SharedRoots

inductive Place where
  | heap
  | arena
  | static
deriving DecidableEq

/-- A buffer with its count word's sign bit and its entry in the shared table. -/
structure Root where
  place : Place
  bit : Bool
  stakes : Option Nat
  /-- It is in the live set: a claim succeeds. -/
  live : Bool
  /-- How often it has been freed; nothing reads it. -/
  freed : Nat

namespace Root

def fresh (place : Place) : Root := ⟨place, false, none, place = .heap, 0⟩

/-- `caj_shared_promote_locked`; `grow` tells whether the table has or gets room. -/
def promote (grow : Bool) (stakes : Nat) (r : Root) : Root :=
  match r.stakes with
  | some rc => { r with stakes := some (rc + stakes - 1) }
  | none => { r with bit := true, stakes := if grow then some stakes else none }

def retain (r : Root) : Root := { r with stakes := r.stakes.map (· + 1) }

/-- The claim in the live set, and the `free` of who wins it. -/
def claimFree (r : Root) : Root :=
  if r.live then { r with live := false, freed := r.freed + 1 } else r

/-- `__cajeta_shared_release` and the `free` behind it. -/
def release (r : Root) : Root :=
  match r.stakes with
  | none => r
  | some rc =>
    if 0 < rc - 1 then { r with stakes := some (rc - 1) } else { r with stakes := none }.claimFree

/-- `__cajeta_free_array`, which asks `__cajeta_shared_owner_drop`. -/
def ownerDrop (r : Root) : Root := if r.bit then r.release else r.claimFree

/-- `__cajeta_slice_retain`. -/
def sliceRetain (r : Root) : Root := if r.bit then r.retain else r

/-- `__cajeta_slice_release`. -/
def sliceRelease (r : Root) : Root := if r.bit then r.release else r

end Root

abbrev RootId := Nat

/-- The tag bits of a string in pointer form; one with none of them owns its root. -/
structure StringTag where
  shared : Bool
  borrow : Bool
  static : Bool
deriving DecidableEq

namespace StringTag

def owned : StringTag := ⟨false, false, false⟩

def stake : StringTag := ⟨true, false, false⟩

end StringTag

/-- The longest inline string. -/
def inlineCap : Nat := 12

/-- Up to this many bytes an escape copies. -/
def copySmall : Nat := 256

inductive Value where
  | array (root : RootId)
  | inline
  | string (len : Nat) (tag : StringTag) (root : RootId)
  /-- `staked` tells whether it took a stake; nothing reads it. -/
  | slice (root : RootId) (len : Nat) (staked : Bool)

def Value.owner : Value → Option RootId
  | .array r => some r
  | .inline => none
  | .string _ tag r => if tag = .owned then some r else none
  | .slice .. => none

def Value.stake : Value → Option RootId
  | .array _ => none
  | .inline => none
  | .string _ tag r => if tag = .stake then some r else none
  | .slice r _ staked => if staked then some r else none

structure Heap where
  roots : RootId → Root
  next : RootId
  /-- Every value that was made, until it is dropped. -/
  values : List (Option Value)

namespace Heap

def initial : Heap := ⟨fun _ => .fresh .heap, 0, []⟩

def value (m : Heap) (i : Nat) : Option Value := m.values[i]?.join

def modify (m : Heap) (r : RootId) (f : Root → Root) : Heap :=
  { m with roots := Function.update m.roots r (f (m.roots r)) }

def push (m : Heap) (v : Value) : Heap := { m with values := m.values ++ [some v] }

def make (m : Heap) (root : Root) (v : RootId → Value) : Heap :=
  { m with roots := Function.update m.roots m.next root, next := m.next + 1 }.push (v m.next)

/-- A view may be used while its root lives: the escape rules of the language. -/
def usable (m : Heap) (r : RootId) : Bool :=
  (m.roots r).place ≠ .heap || (m.roots r).live

def newArray (m : Heap) (arena : Bool) : Heap :=
  m.make (.fresh (if arena then .arena else .heap)) .array

def newString (m : Heap) (len : Nat) (place : Place) : Heap :=
  if len ≤ inlineCap then m.push .inline
  else m.make (.fresh place) fun r =>
    .string len (if place = .static then ⟨false, false, true⟩ else .owned) r

/-- `__cajeta_string_slice`. -/
def stringSlice (m : Heap) (v : Value) (len : Nat) (grow : Bool) : Option Heap :=
  match v with
  | .inline => some (m.push .inline)
  | .string _ tag r =>
    if !m.usable r then none
    else if len ≤ inlineCap then some (m.push .inline)
    else if !tag.static ∧ (m.roots r).place = .arena then
      some (m.make (.fresh .heap) (.string len .owned))
    else if tag.static then some (m.push (.string len ⟨false, false, true⟩ r))
    else if tag.shared then some ((m.modify r Root.retain).push (.string len .stake r))
    else some ((m.modify r (Root.promote grow 2)).push (.string len .stake r))
  | _ => none

/-- `__cajeta_string_slice_borrow`. -/
def stringSliceBorrow (m : Heap) (v : Value) (len : Nat) : Option Heap :=
  match v with
  | .inline => some (m.push .inline)
  | .string _ tag r =>
    if !m.usable r then none
    else if len ≤ inlineCap then some (m.push .inline)
    else some (m.push (.string len ⟨false, true, tag.static⟩ r))
  | _ => none

/-- `__cajeta_string_resolve`. -/
def stringResolve (m : Heap) (v : Value) (grow : Bool) : Option Heap :=
  match v with
  | .inline => some (m.push .inline)
  | .string len tag r =>
    if !m.usable r then none
    else if tag.static then some (m.push (.string len ⟨false, false, true⟩ r))
    else if (m.roots r).place = .arena ∨ len ≤ copySmall then
      some (m.make (.fresh .heap) (.string len .owned))
    else some ((m.modify r (Root.promote grow 2)).push (.string len .stake r))
  | _ => none

def sliceOf (m : Heap) (v : Value) (len : Nat) : Option Heap :=
  match v with
  | .array r | .slice r _ _ => if m.usable r then some (m.push (.slice r len false)) else none
  | _ => none

/-- The bits of a slice are copied, then `__cajeta_slice_retain`. -/
def sliceCopy (m : Heap) (v : Value) : Option Heap :=
  match v with
  | .slice r len staked => some ((m.modify r Root.sliceRetain).push (.slice r len staked))
  | _ => none

/-- The bits of a slice are copied to where it escapes, then `__cajeta_slice_resolve`. -/
def sliceResolve (m : Heap) (v : Value) (elemSize : Nat) (grow : Bool) : Option Heap :=
  match v with
  | .slice r len _ =>
    if !m.usable r then none
    else if len = 0 ∨ elemSize = 0 then some (m.push (.slice r len false))
    else if (m.roots r).place = .arena ∨ len * elemSize ≤ copySmall then
      some (m.make ((Root.fresh .heap).promote grow 1) fun r => .slice r len true)
    else some ((m.modify r (Root.promote grow 2)).push (.slice r len true))
  | _ => none

def dropRoot (m : Heap) : Value → Heap
  | .array r => m.modify r Root.ownerDrop
  | .inline => m
  | .string _ tag r =>
    if tag.borrow || tag.static then m
    else if tag.shared then m.modify r Root.release
    else m.modify r Root.ownerDrop
  | .slice r _ _ => m.modify r Root.sliceRelease

def drop (m : Heap) (i : Nat) (v : Value) : Heap :=
  let m := m.dropRoot v
  { m with values := m.values.set i none }

inductive Action where
  | newArray (arena : Bool)
  | newString (len : Nat) (place : Place)
  | stringSlice (i : Nat) (len : Nat) (grow : Bool)
  | stringSliceBorrow (i : Nat) (len : Nat)
  | stringResolve (i : Nat) (grow : Bool)
  | sliceOf (i : Nat) (len : Nat)
  | sliceCopy (i : Nat)
  | sliceResolve (i : Nat) (elemSize : Nat) (grow : Bool)
  | drop (i : Nat)

def step (m : Heap) : Action → Option Heap
  | .newArray arena => some (m.newArray arena)
  | .newString len place => some (m.newString len place)
  | .stringSlice i len grow => do m.stringSlice (← m.value i) len grow
  | .stringSliceBorrow i len => do m.stringSliceBorrow (← m.value i) len
  | .stringResolve i grow => do m.stringResolve (← m.value i) grow
  | .sliceOf i len => do m.sliceOf (← m.value i) len
  | .sliceCopy i => do m.sliceCopy (← m.value i)
  | .sliceResolve i elemSize grow => do m.sliceResolve (← m.value i) elemSize grow
  | .drop i => do return m.drop i (← m.value i)

abbrev Step (m : Heap) (a : Action) (m' : Heap) : Prop := m.step a = some m'

def owners (m : Heap) (r : RootId) : Nat := m.values.countP fun v => v.bind Value.owner = some r

def views (m : Heap) (r : RootId) : Nat := m.values.countP fun v => v.bind Value.stake = some r

/-- How many live values hold a stake in the root. -/
def holders (m : Heap) (r : RootId) : Nat := m.owners r + m.views r

end Heap

end Cajeta.Memory.SharedRoots
