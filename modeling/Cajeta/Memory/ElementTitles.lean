import Cajeta.Lib.Slots
import Cajeta.Lib.TitledSlots
import Cajeta.Lib.Transition

/-!
# Titles of array elements

One bit a slot says whether the array owns the object in it. A local array keeps the bits in a
sidecar that is allocated at the first owned store; other arrays have them behind their slots.
Arrays of arrays have twins of the routines, which release an element in another way.
-/

namespace Cajeta.Memory
open TitledSlots

/-- `caj_arr_count_masked`: the count without the shared bit. -/
def countMasked (word : BitVec 64) : Nat := (word &&& ~~~BitVec.twoPow 64 63).toNat

/-- How an element is released. -/
inductive Release where
  | virtualDrop
  | freeArray
  | tailArrayDropFree
deriving DecidableEq

structure ElementDrop where
  how : Release
  obj : Nat
deriving DecidableEq

def Release.drops (how : Release) (o : Option Nat) : List ElementDrop :=
  (o.map (ElementDrop.mk how)).toList

/-! ## Bits behind the slots -/

/-- An array of `__cajeta_new_array_header_bits`. Objects are numbers; a null slot is empty. -/
structure TailArray where
  word : BitVec 64
  slots : List (Option Nat)
  bits : List (BitVec 8)
  slots_length : slots.length = countMasked word
  bits_length : bits.length = (countMasked word + 7) / 8

namespace TailArray

def create (word : BitVec 64) : TailArray where
  word := word
  slots := .replicate (countMasked word) none
  bits := .replicate ((countMasked word + 7) / 8) 0
  slots_length := List.length_replicate
  bits_length := List.length_replicate

def count (t : TailArray) : Nat := countMasked t.word

def slot (t : TailArray) (i : Nat) : Option Nat := t.slots[i]?.join

def bit (t : TailArray) (i : Nat) : Bool := Bitmap.get t.bits i

def setBit (t : TailArray) (i : Nat) (v : Bool) : TailArray :=
  { t with bits := Bitmap.put t.bits i v, bits_length := by rw [Bitmap.length_put, t.bits_length] }

def setSlot (t : TailArray) (i : Nat) (o : Option Nat) : TailArray :=
  { t with slots := t.slots.set i o, slots_length := by rw [List.length_set, t.slots_length] }

/-- A store with a release of the displaced element. The stored value's own slot keeps its title. -/
def storeWith (how : Release) (t : TailArray) (idx : Nat) (obj : Option Nat) (owned : BitVec 64) :
    TailArray × List ElementDrop :=
  if t.count ≤ idx then (t, [])
  else
    let old := t.slot idx
    let dropped := if old ≠ obj ∧ t.bit idx then how.drops old else []
    let owned :=
      if old = obj ∧ old ≠ none ∧ owned.getLsbD 0 = false then t.bit idx else owned.getLsbD 0
    ((t.setBit idx owned).setSlot idx obj, dropped)

/-- `__cajeta_tail_elem_take_flag`. -/
def elemTakeFlag (t : TailArray) (idx : Nat) : TailArray × Bool :=
  if t.count ≤ idx then (t, false) else (t.setBit idx false, t.bit idx)

def dropOneWith (how : Release) (t : TailArray) (idx : Nat) : TailArray × List ElementDrop :=
  if t.count ≤ idx then (t, [])
  else if t.bit idx then ((t.setBit idx false).setSlot idx none, how.drops (t.slot idx))
  else (t, [])

/-- The walk from `i` over `rem` slots. -/
def dropWalkFrom (how : Release) (t : TailArray) (i : Nat) :
    (rem : Nat) → TailArray × List ElementDrop
  | 0 => (t, [])
  | rem + 1 =>
    if t.bit i then
      let walked := dropWalkFrom how ((t.setBit i false).setSlot i none) (i + 1) rem
      (walked.1, how.drops (t.slot i) ++ walked.2)
    else dropWalkFrom how t (i + 1) rem

/-- `__cajeta_tail_elem_store`. -/
def elemStore : TailArray → Nat → Option Nat → BitVec 64 → TailArray × List ElementDrop :=
  storeWith .virtualDrop

/-- `__cajeta_tail_elem_drop_one`. -/
def elemDropOne : TailArray → Nat → TailArray × List ElementDrop := dropOneWith .virtualDrop

/-- `__cajeta_tail_elem_drop_walk`. -/
def elemDropWalk (t : TailArray) : TailArray × List ElementDrop :=
  dropWalkFrom .virtualDrop t 0 t.count

/-- `caj_arrelem_release`. -/
def arrelemRelease (innerKind : Int) : Release :=
  if innerKind = 1 then .tailArrayDropFree else .freeArray

/-- `__cajeta_tail_arrelem_store`. -/
def arrelemStore (innerKind : Int) :
    TailArray → Nat → Option Nat → BitVec 64 → TailArray × List ElementDrop :=
  storeWith (arrelemRelease innerKind)

/-- `__cajeta_tail_arrelem_drop_one`. -/
def arrelemDropOne (innerKind : Int) : TailArray → Nat → TailArray × List ElementDrop :=
  dropOneWith (arrelemRelease innerKind)

/-- `__cajeta_tail_arrelem_drop_walk`. -/
def arrelemDropWalk (innerKind : Int) (t : TailArray) : TailArray × List ElementDrop :=
  dropWalkFrom (arrelemRelease innerKind) t 0 t.count

end TailArray

/-! ## Bits in a sidecar -/

/-- The bits of a sidecar, for an array of `n` slots. -/
structure OwnedBits (n : Nat) where
  cap : Nat
  bytes : List (BitVec 8)
  length_eq : bytes.length = (cap + 7) / 8
  le_cap : n ≤ cap

def OwnedBits.put {n : Nat} (b : OwnedBits n) (i : Nat) (v : Bool) : OwnedBits n :=
  { b with bytes := Bitmap.put b.bytes i v, length_eq := by rw [Bitmap.length_put, b.length_eq] }

/-- What `caj_arr_bit_put` allocates. -/
def OwnedBits.create (n cap : Nat) (h : n ≤ cap) : OwnedBits n where
  cap := cap
  bytes := .replicate ((cap + 7) / 8) 0
  length_eq := List.length_replicate
  le_cap := h

structure SidecarArray where
  arr : Nat
  word : BitVec 64
  slots : List (Option Nat)
  stride : Nat
  header : Nat
  ownedBits : Option (OwnedBits (countMasked word))
  slots_length : slots.length = countMasked word
  stride_pos : 0 < stride

namespace SidecarArray

def create (arr : Nat) (word : BitVec 64) (stride header : Nat) (h : 0 < stride) :
    SidecarArray where
  arr := arr
  word := word
  slots := .replicate (countMasked word) none
  stride := stride
  header := header
  ownedBits := none
  slots_length := List.length_replicate
  stride_pos := h

def count (s : SidecarArray) : Nat := countMasked s.word

def slot (s : SidecarArray) (i : Nat) : Option Nat := s.slots[i]?.join

def setSlot (s : SidecarArray) (i : Nat) (o : Option Nat) : SidecarArray :=
  { s with slots := s.slots.set i o, slots_length := by rw [List.length_set, s.slots_length] }

def slotAddress (s : SidecarArray) (i : Nat) : Nat := s.arr + s.header + i * s.stride

/-- `caj_arr_slot_index`. -/
def slotIndex (s : SidecarArray) (slot : Nat) : Nat := (slot - (s.arr + s.header)) / s.stride

/-- `caj_arr_bit_get`. -/
def bitGet (s : SidecarArray) (idx : Nat) : Bool :=
  s.ownedBits.any fun b => idx < b.cap && Bitmap.get b.bytes idx

/-- `caj_arr_bit_put`; `calloc` tells whether the host has memory for the bits. -/
def bitPut (s : SidecarArray) (calloc : Bool) (idx : Nat) (v : Bool) : SidecarArray :=
  match s.ownedBits with
  | some b => if idx < b.cap then { s with ownedBits := some (b.put idx v) } else s
  | none =>
    if v && calloc then
      let b := OwnedBits.create (countMasked s.word) (max (countMasked s.word) (idx + 1))
        (Nat.le_max_left ..)
      { s with ownedBits := some (b.put idx v) }
    else s

/-- `__cajeta_class_array_elem_set_owned` at the address of slot `i`. -/
def elemSetOwned (s : SidecarArray) (calloc : Bool) (i : Nat) (obj : Option Nat) :
    SidecarArray × List ElementDrop :=
  let idx := s.slotIndex (s.slotAddress i)
  let old := s.slot i
  let dropped := if old ≠ obj ∧ s.bitGet idx then Release.virtualDrop.drops old else []
  ((s.bitPut calloc idx true).setSlot i obj, dropped)

/-- `__cajeta_class_array_elem_set_alias`. -/
def elemSetAlias (s : SidecarArray) (calloc : Bool) (i : Nat) (obj : Option Nat) :
    SidecarArray × List ElementDrop :=
  let idx := s.slotIndex (s.slotAddress i)
  let old := s.slot i
  let dropped := if old ≠ obj ∧ s.bitGet idx then Release.virtualDrop.drops old else []
  let v := if old = obj ∧ old ≠ none then s.bitGet idx else false
  ((s.bitPut calloc idx v).setSlot i obj, dropped)

/-- `__cajeta_class_array_elem_take`. -/
def elemTake (s : SidecarArray) (i : Nat) : SidecarArray × Option Nat :=
  let idx := s.slotIndex (s.slotAddress i)
  if s.bitGet idx then
    match s.slot i with
    | none => (s, none)
    | some v => (s.bitPut false idx false, some v)
  else (s, none)

/-- `__cajeta_class_array_owned_drop`; `active` tells that the array was not moved away. -/
def ownedDrop (s : SidecarArray) (active : Bool) : SidecarArray × List ElementDrop :=
  let dropped :=
    match s.ownedBits with
    | none => []
    | some b =>
      if active then
        (List.range (min s.count b.cap)).flatMap fun i =>
          if Bitmap.get b.bytes i then Release.virtualDrop.drops (s.slot i) else []
      else []
  ({ s with ownedBits := none }, dropped)

end SidecarArray

inductive ElementArray where
  | sidecar (s : SidecarArray)
  | tail (t : TailArray)
  /-- The elements are arrays. -/
  | arrelem (innerKind : Int) (t : TailArray)

namespace ElementArray

def count : ElementArray → Nat
  | .sidecar s => s.count
  | .tail t | .arrelem _ t => t.count

def slot : ElementArray → Nat → Option Nat
  | .sidecar s => s.slot
  | .tail t | .arrelem _ t => t.slot

def bit : ElementArray → Nat → Bool
  | .sidecar s => s.bitGet
  | .tail t | .arrelem _ t => t.bit

/-- The object that a slot owns. -/
def holds (a : ElementArray) (i : Nat) : Option Nat := if a.bit i then a.slot i else none

def records (calloc : Bool) : ElementArray → Bool
  | .sidecar s => s.ownedBits.isSome || calloc
  | .tail _ | .arrelem _ _ => true

/-- The word of a store that takes the title, or does not. -/
def ownedWord (owned : Bool) : BitVec 64 := if owned then 1 else 0

def store (a : ElementArray) (i : Nat) (obj : Option Nat) (owned calloc : Bool) :
    ElementArray × List ElementDrop :=
  match a with
  | .sidecar s =>
    (if owned then s.elemSetOwned calloc i obj else s.elemSetAlias calloc i obj).map .sidecar id
  | .tail t => (t.elemStore i obj (ownedWord owned)).map .tail id
  | .arrelem k t => (t.arrelemStore k i obj (ownedWord owned)).map (.arrelem k) id

/-- A take, and the object whose title is out. -/
def take (a : ElementArray) (i : Nat) : ElementArray × Option Nat :=
  match a with
  | .sidecar s => (s.elemTake i).map .sidecar id
  | .tail t => (.tail (t.elemTakeFlag i).1, if (t.elemTakeFlag i).2 then t.slot i else none)
  | .arrelem k t =>
    (.arrelem k (t.elemTakeFlag i).1, if (t.elemTakeFlag i).2 then t.slot i else none)

def dropOne (a : ElementArray) (i : Nat) : Option (ElementArray × List ElementDrop) :=
  match a with
  | .sidecar _ => none
  | .tail t => some ((t.elemDropOne i).map .tail id)
  | .arrelem k t => some ((t.arrelemDropOne k i).map (.arrelem k) id)

/-- The teardown of an array that was not moved away. -/
def teardown (a : ElementArray) : ElementArray × List ElementDrop :=
  match a with
  | .sidecar s => (s.ownedDrop true).map .sidecar id
  | .tail t => t.elemDropWalk.map .tail id
  | .arrelem k t => (t.arrelemDropWalk k).map (.arrelem k) id

inductive Fresh : ElementArray → Prop where
  | sidecar : Fresh (.sidecar (.create arr word stride header h))
  | tail : Fresh (.tail (.create word))
  | arrelem : Fresh (.arrelem k (.create word))

end ElementArray

inductive ElementAction where
  /-- `calloc` tells whether the host has memory for a sidecar's bits. -/
  | store (i : Nat) (obj : Option Nat) (owned calloc : Bool)
  | take (i : Nat)
  | dropOne (i : Nat)
deriving DecidableEq

/-- The store hands over the title of the object. -/
inductive ElementAction.Hands (x : Nat) : ElementAction → Prop where
  | store (i : Nat) (calloc : Bool) : Hands x (.store i (some x) true calloc)

/-- A sidecar's bits find memory. -/
inductive ElementAction.Allocates : ElementAction → Prop where
  | store : Allocates (.store i obj owned true)
  | take : Allocates (.take i)
  | dropOne : Allocates (.dropOne i)

structure ElementRun where
  array : ElementArray
  titles : Ledger Nat Nat

namespace ElementRun

def start (a : ElementArray) : ElementRun := ⟨a, .initial⟩

def dropped (s : ElementRun) (a : ElementArray) (drops : List ElementDrop) : ElementRun :=
  ⟨a, s.titles.dropAll (drops.map ElementDrop.obj)⟩

/-- The title of an object is handed over with slot `i`. -/
def received (s : ElementRun) (i : Nat) (records : Bool) : Option Nat → ElementRun
  | none => s
  | some x => { s with titles := s.titles.move x (if records then .held i else .lost) }

def store (s : ElementRun) (i : Nat) (obj : Option Nat) (owned calloc : Bool) : ElementRun :=
  let stored := s.array.store i obj owned calloc
  let s' := s.dropped stored.1 stored.2
  if owned then s'.received i (s.array.records calloc) obj else s'

def take (s : ElementRun) (i : Nat) : ElementRun :=
  let taken := s.array.take i
  match taken.2 with
  | none => { s with array := taken.1 }
  | some x => ⟨taken.1, s.titles.move x .outside⟩

/-- Steps at slots of the array. A title is handed over that is outside of the array, or again with
the slot that holds it. -/
inductive Step : ElementRun → ElementAction → ElementRun → Prop where
  | store (i : Nat) (obj : Option Nat) (owned calloc : Bool) : i < s.array.count →
    (owned = true → ∀ x, obj = some x →
      s.titles.place x = .outside ∨ s.titles.place x = .held i) →
    Step s (.store i obj owned calloc) (s.store i obj owned calloc)
  | take (i : Nat) : i < s.array.count → Step s (.take i) (s.take i)
  | dropOne (i : Nat) : i < s.array.count → s.array.dropOne i = some result →
    Step s (.dropOne i) (s.dropped result.1 result.2)

def teardown (s : ElementRun) : ElementRun :=
  s.dropped s.array.teardown.1 s.array.teardown.2

end ElementRun

end Cajeta.Memory
