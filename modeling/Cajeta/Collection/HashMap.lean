import Cajeta.Lib.BitMask
import Cajeta.Lib.Probe
import Mathlib.Data.Finset.Card
import Mathlib.Data.Finset.Range

/-!
# `cajeta.collection.HashMap`

The dense SwissTable: one control byte per slot, `EMPTY`, `DELETED` or the 7-bit fragment of a
stored key's hash, with the first 16 bytes repeated past the end so that 16 bytes can be loaded at
any slot. A probe compares a whole group of control bytes at once and walks on with a triangular
stride until a group holds an `EMPTY`.

Each probe loop runs on fuel and answers `none` when it has not ended by then. Ownership titles of
keys and values are left out: the values are what is modelled.
-/

namespace Cajeta.Collection

structure MapEntry (K V : Type) where
  key : K
  val : V
  deriving Inhabited

def emptyCtrl : UInt8 := 0x80
def deletedCtrl : UInt8 := 0xFE

/-- A full slot has the top bit clear. -/
def isFull (b : UInt8) : Bool := b < 0x80

structure HashMap (K V : Type) where
  slots : Array (MapEntry K V)
  /-- `cap + 16` bytes, the last 16 mirroring the first. -/
  ctrl : Array UInt8
  cap : Nat
  sizeCount : Nat
  /-- Full and deleted slots. -/
  usedSlots : Nat

/-- The 7-bit fragment of a hash that the control byte of its slot holds. -/
def h2Of (h : UInt64) : UInt8 := ((h >>> 57) &&& 0x7F).toUInt8

/-- The 16 control bytes from `pos` on, by lane. -/
def vload16 (ctrl : Array UInt8) (pos lane : Nat) : UInt8 := ctrl.getD (pos + lane) 0

/-- Bit `i` says whether lane `i` is `b`. -/
def eqMask (g : Nat → UInt8) (b : UInt8) : Nat := BitMask.ofPred 16 fun lane => g lane == b

/-- The index of the lowest set bit of a mask of 16 lanes. -/
def ctz64 (mask : Nat) : Nat := BitMask.ctz 16 mask

/-- Where `put` ends up. -/
inductive PutSlot where
  /-- The slot that holds the key already. -/
  | existing (i : Nat)
  /-- The first slot of the probe that was free. -/
  | vacant (i : Nat)

namespace HashMap
variable {K V : Type} [Inhabited K] [Inhabited V]

def slot (m : HashMap K V) (i : Nat) : MapEntry K V := m.slots.getD i default

def ctrlAt (m : HashMap K V) (i : Nat) : UInt8 := m.ctrl.getD i 0

/-- A table of `cap` empty slots. -/
def fresh (cap : Nat) : HashMap K V where
  slots := Array.replicate cap default
  ctrl := Array.replicate (cap + 16) emptyCtrl
  cap := cap
  sizeCount := 0
  usedSlots := 0

/-- Doubles `c` until it reaches the requested capacity. -/
def roundCapacity (initialCapacity : Int) : (fuel c : Nat) → Option Nat
  | 0, _ => none
  | fuel + 1, c => if (c : Int) < initialCapacity then roundCapacity initialCapacity fuel (c * 2)
    else some c

/-- The doubling goes from 16 to `2 ^ 62`. Past that the 64-bit product wraps to a negative number
and then to 0, and the constructor does not return. -/
def new (initialCapacity : Int) : Option (HashMap K V) :=
  (roundCapacity initialCapacity 59 16).map fresh

/-- Writes a control byte, and its copy when the slot is one of the first 16. -/
def setCtrl (m : HashMap K V) (i : Nat) (b : UInt8) : HashMap K V :=
  let ctrl := m.ctrl.setIfInBounds i b
  { m with ctrl := if i < 16 then ctrl.setIfInBounds (m.cap + i) b else ctrl }

/-- Stores an entry in a slot that was free. -/
def occupy (m : HashMap K V) (i : Nat) (key : K) (value : V) (h2 : UInt8) : HashMap K V :=
  let m := { m with slots := m.slots.setIfInBounds i ⟨key, value⟩ }
  let m := m.setCtrl i h2
  { m with sizeCount := m.sizeCount + 1 }

/-- Replaces the value of a full slot; the key that is stored stays. -/
def replace (m : HashMap K V) (i : Nat) (value : V) : HashMap K V :=
  { m with slots := m.slots.setIfInBounds i { m.slot i with val := value } }

/-- Overwrites the key of a full slot with the zero of its type and leaves a tombstone. -/
def bury (m : HashMap K V) (i : Nat) : HashMap K V :=
  let m := { m with slots := m.slots.setIfInBounds i { m.slot i with key := default } }
  let m := m.setCtrl i deletedCtrl
  { m with sizeCount := m.sizeCount - 1 }

section
variable [BEq K]

/-- The first slot of the group at `pos` whose control byte is in the mask and that holds `key`. -/
def matchIn (m : HashMap K V) (key : K) (pos mm : Nat) : Option Nat :=
  BitMask.findSome (fun lane =>
    let i := (pos + lane) &&& (m.cap - 1)
    if (m.slot i).key == key then some i else none) 16 16 mm

def findSlotLoop (m : HashMap K V) (key : K) (h2 : UInt8) :
    (fuel pos stride : Nat) → Option (Option Nat)
  | 0, _, _ => none
  | fuel + 1, pos, stride =>
    let g := vload16 m.ctrl pos
    match m.matchIn key pos (eqMask g h2) with
    | some i => some (some i)
    | none =>
      -- An `EMPTY` in the group proves absence.
      if eqMask g emptyCtrl ≠ 0 then some none
      else
        let stride := stride + 16
        findSlotLoop m key h2 fuel ((pos + stride) &&& (m.cap - 1)) stride

/-- The slot that holds `key`. -/
def findSlot [Hashable K] (m : HashMap K V) (key : K) : Option (Option Nat) :=
  let h := hash key
  m.findSlotLoop key (h2Of h) m.cap (h.toNat &&& (m.cap - 1)) 0

/-- The first slot of the group at `pos` that is empty or deleted. -/
def freeIn (m : HashMap K V) (pos : Nat) : Option Nat :=
  let g := vload16 m.ctrl pos
  let free := eqMask g emptyCtrl ||| eqMask g deletedCtrl
  if free ≠ 0 then some ((pos + ctz64 free) &&& (m.cap - 1)) else none

def putLoop (m : HashMap K V) (key : K) (h2 : UInt8) :
    (fuel pos stride : Nat) → (insertAt : Option Nat) → Option PutSlot
  | 0, _, _, _ => none
  | fuel + 1, pos, stride, insertAt =>
    let g := vload16 m.ctrl pos
    match m.matchIn key pos (eqMask g h2) with
    | some i => some (.existing i)
    | none =>
      let insertAt := insertAt.orElse fun _ => m.freeIn pos
      -- A group with an `EMPTY` has a free slot, so there is an insertion point by now.
      if eqMask g emptyCtrl ≠ 0 then insertAt.map .vacant
      else
        let stride := stride + 16
        putLoop m key h2 fuel ((pos + stride) &&& (m.cap - 1)) stride insertAt

end

/-- The first empty slot of the probe that starts at `pos`. -/
def placeLoop (m : HashMap K V) : (fuel pos stride : Nat) → Option Nat
  | 0, _, _ => none
  | fuel + 1, pos, stride =>
    let emptyM := eqMask (vload16 m.ctrl pos) emptyCtrl
    if emptyM ≠ 0 then some ((pos + ctz64 emptyM) &&& (m.cap - 1))
    else
      let stride := stride + 16
      placeLoop m fuel ((pos + stride) &&& (m.cap - 1)) stride

section
variable [Hashable K]

/-- Moves an entry into the table under construction: its keys are unique, so none is compared. -/
def reinsert (m : HashMap K V) (e : MapEntry K V) : Option (HashMap K V) := do
  let h := hash e.key
  let i ← m.placeLoop m.cap (h.toNat &&& (m.cap - 1)) 0
  return m.occupy i e.key e.val (h2Of h)

/-- Doubles the capacity and drops every tombstone. -/
def resize (m : HashMap K V) : Option (HashMap K V) := do
  let t ← (List.range m.cap).foldlM
    (fun t s => if isFull (m.ctrlAt s) then t.reinsert (m.slot s) else some t)
    (fresh (m.cap * 2))
  return { t with usedSlots := t.sizeCount }

variable [BEq K]

def put (m : HashMap K V) (key : K) (value : V) : Option (HashMap K V) := do
  let h := hash key
  match ← m.putLoop key (h2Of h) m.cap (h.toNat &&& (m.cap - 1)) 0 none with
  | .existing i => return m.replace i value
  | .vacant i =>
    let stored := m.occupy i key value (h2Of h)
    if m.ctrlAt i = emptyCtrl then
      let grown := { stored with usedSlots := stored.usedSlots + 1 }
      if grown.usedSlots * 4 > grown.cap * 3 then grown.resize else return grown
    else return stored

/-- The zero of the value type on a miss. -/
def get (m : HashMap K V) (key : K) : Option V := do
  match ← m.findSlot key with
  | some i => return (m.slot i).val
  | none => return default

def containsKey (m : HashMap K V) (key : K) : Option Bool := do
  return (← m.findSlot key).isSome

def remove (m : HashMap K V) (key : K) : Option (V × HashMap K V) := do
  match ← m.findSlot key with
  | some i => return ((m.slot i).val, m.bury i)
  | none => return (default, m)

def count (m : HashMap K V) : Nat := m.sizeCount

end
end HashMap

inductive Op (K V : Type) where
  | put (key : K) (value : V)
  | remove (key : K)
  | get (key : K)
  | containsKey (key : K)
  | count

/-- What a call returns. -/
inductive Ret (V : Type) where
  | unit
  | value (v : V)
  | bool (b : Bool)
  | int (n : Nat)
  deriving DecidableEq

namespace HashMap
variable {K V : Type} [Inhabited K] [Inhabited V] [Hashable K] [BEq K]

def call (m : HashMap K V) : Op K V → Option (Ret V × HashMap K V)
  | .put key value => (m.put key value).map fun m => (.unit, m)
  | .remove key => (m.remove key).map fun (v, m) => (.value v, m)
  | .get key => (m.get key).map fun v => (.value v, m)
  | .containsKey key => (m.containsKey key).map fun b => (.bool b, m)
  | .count => some (.int m.count, m)

/-- The answers of a sequence of calls, and the table it leaves. -/
def calls (m : HashMap K V) : List (Op K V) → Option (List (Ret V) × HashMap K V)
  | [] => some ([], m)
  | op :: ops => do
    let (ret, m) ← m.call op
    let (rets, m) ← m.calls ops
    return (ret :: rets, m)

example : (new 3 : Option (HashMap Nat Nat)).bind (fun m =>
    (m.calls [.put 7 1, .put 8 2, .put 7 3, .remove 8, .get 7, .get 8, .count]).map (·.1)) =
    some [.unit, .unit, .unit, .value 2, .value 3, .value 0, .int 1] := by decide +kernel

end HashMap
end Cajeta.Collection

/-!
## The invariant of `HashMap`

A table is well formed when its control bytes describe its slots, no key occupies two slots, the
tail mirrors the head, and every key can be reached: no group before its own on its probe holds an
`EMPTY`. Storing into a vacant slot of a key's probe and turning a full slot into a tombstone keep
that, the latter because a tombstone is not an `EMPTY`.
-/

namespace Cajeta.Collection.HashMap
variable {K V : Type} {m m' : HashMap K V}

theorem isFull_h2Of (h : UInt64) : isFull (h2Of h) = true := by
  have hle : (h >>> 57 &&& 0x7F).toNat ≤ 0x7F := by
    rw [UInt64.toNat_and]
    exact Nat.and_le_right
  simp only [isFull, decide_eq_true_eq, UInt8.lt_iff_toNat_lt, h2Of, UInt64.toNat_toUInt8]
  refine Nat.lt_of_le_of_lt (Nat.mod_le _ _) (Nat.lt_of_le_of_lt hle (by decide))

theorem DELETED_ne_EMPTY : deletedCtrl ≠ emptyCtrl := by decide

theorem ne_EMPTY_of_isFull (h : isFull b = true) : b ≠ emptyCtrl := by
  rintro rfl
  cases h

/-- How many slots have a control byte that satisfies `p`. -/
def tally (m : HashMap K V) (p : UInt8 → Bool) : Nat :=
  ((Finset.range m.cap).filter fun i => p (m.ctrlAt i) = true).card

theorem exists_of_tally_lt (h : m.tally p < m.cap) : ∃ i < m.cap, p (m.ctrlAt i) = false := by
  by_contra hno
  have : ∀ i ∈ Finset.range m.cap, p (m.ctrlAt i) = true := fun i hi => by
    by_contra hp
    exact hno ⟨i, Finset.mem_range.mp hi, by simpa using hp⟩
  rw [tally, Finset.filter_true_of_mem this, Finset.card_range] at h
  omega

theorem tally_congr (hcap : m'.cap = m.cap)
    (h : ∀ j < m.cap, p (m'.ctrlAt j) = p (m.ctrlAt j)) : m'.tally p = m.tally p := by
  rw [tally, tally, hcap]
  congr 1
  refine Finset.filter_congr fun j hj => ?_
  rw [h j (Finset.mem_range.mp hj)]

theorem tally_succ (hcap : m'.cap = m.cap) (hi : i < m.cap)
    (hsame : ∀ j < m.cap, j ≠ i → m'.ctrlAt j = m.ctrlAt j) (hp : p (m.ctrlAt i) = false)
    (hp' : p (m'.ctrlAt i) = true) : m'.tally p = m.tally p + 1 := by
  have hins : (Finset.range m'.cap).filter (fun j => p (m'.ctrlAt j) = true) =
      insert i ((Finset.range m.cap).filter fun j => p (m.ctrlAt j) = true) := by
    ext j
    simp only [Finset.mem_filter, Finset.mem_range, Finset.mem_insert, hcap]
    by_cases hj : j = i
    · subst hj; simp [hi, hp']
    · constructor
      · rintro ⟨hlt, h⟩; exact .inr ⟨hlt, hsame j hlt hj ▸ h⟩
      · rintro (h | ⟨hlt, h⟩)
        · exact absurd h hj
        · exact ⟨hlt, (hsame j hlt hj).symm ▸ h⟩
  rw [tally, tally, hins, Finset.card_insert_of_notMem (by simp [hp])]

/-- The sizes of the two arrays, and the mirrored tail. -/
structure Shaped (m : HashMap K V) : Prop where
  cap_pow : ∃ k, m.cap = 16 * 2 ^ k
  slots_size : m.slots.size = m.cap
  ctrl_size : m.ctrl.size = m.cap + 16
  mirror : ∀ i < 16, m.ctrlAt (m.cap + i) = m.ctrlAt i

/-- The slot in lane `j` of the group a probe for the hash `h` visits after `t` steps. -/
def probeSlot (m : HashMap K V) (h : UInt64) (t j : Nat) : Nat :=
  (Probe.pos m.cap 16 h.toNat t + j) % m.cap

namespace Shaped

theorem sixteen_le (hm : Shaped m) : 16 ≤ m.cap := by
  obtain ⟨k, hk⟩ := hm.cap_pow
  have := Nat.two_pow_pos k
  omega

theorem cap_pos (hm : Shaped m) : 0 < m.cap := Nat.lt_of_lt_of_le (by decide) hm.sixteen_le

theorem and_mask (hm : Shaped m) (x : Nat) : x &&& (m.cap - 1) = x % m.cap := by
  obtain ⟨k, hk⟩ := hm.cap_pow
  have : m.cap = 2 ^ (k + 4) := by rw [hk, pow_add, Nat.mul_comm]; rfl
  rw [this, Nat.and_two_pow_sub_one_eq_mod]

theorem probeSlot_lt (hm : Shaped m) : m.probeSlot h t j < m.cap := Nat.mod_lt _ hm.cap_pos

theorem start (hm : Shaped m) (h : UInt64) :
    h.toNat &&& (m.cap - 1) = Probe.pos m.cap 16 h.toNat 0 := by
  rw [hm.and_mask, Probe.pos_zero]

theorem step (hm : Shaped m) (h : UInt64) (t : Nat) :
    (Probe.pos m.cap 16 h.toNat t + (16 * t + 16)) &&& (m.cap - 1) =
      Probe.pos m.cap 16 h.toNat (t + 1) := by
  rw [hm.and_mask, Probe.pos_succ, Nat.mul_succ]

theorem vload16 (hm : Shaped m) (hj : j < 16) :
    vload16 m.ctrl (Probe.pos m.cap 16 h t) j = m.ctrlAt ((Probe.pos m.cap 16 h t +
      j) % m.cap) := by
  have hlt : Probe.pos m.cap 16 h t < m.cap := Probe.pos_lt hm.cap_pos
  have h16 := hm.sixteen_le
  change m.ctrlAt _ = _
  by_cases hin : Probe.pos m.cap 16 h t + j < m.cap
  · rw [Nat.mod_eq_of_lt hin]
  · obtain ⟨d, hd⟩ := Nat.exists_eq_add_of_le (Nat.le_of_not_lt hin)
    rw [hd, hm.mirror d (by omega), Nat.add_mod_left, Nat.mod_eq_of_lt (by omega)]

theorem exists_group (hm : Shaped m) (hi : i < m.cap) (h : UInt64) :
    ∃ t < m.cap, ∃ j < 16, m.probeSlot h t j = i := by
  obtain ⟨k, hk⟩ := hm.cap_pow
  rw [hk] at hi
  obtain ⟨t, ht, j, hj, heq⟩ := Probe.exists_window (h := h.toNat) (by decide : 0 < 16) hi
  have := Nat.two_pow_pos k
  exact ⟨t, by omega, j, hj, by rw [probeSlot, hk]; exact heq⟩

end Shaped

theorem eqMask_eq_zero (hm : Shaped m) :
    eqMask (vload16 m.ctrl (Probe.pos m.cap 16 h.toNat t)) b = 0 ↔
      ∀ j < 16, m.ctrlAt (m.probeSlot h t j) ≠ b := by
  rw [eqMask, BitMask.ofPred_eq_zero]
  refine forall₂_congr fun j hj => ?_
  rw [hm.vload16 hj, beq_eq_false_iff_ne, probeSlot]

/-- The slot `i` is on the probe for `h`, and no group before its own holds an `EMPTY`. -/
def OnChain (m : HashMap K V) (h : UInt64) (i : Nat) : Prop :=
  ∃ t j, j < 16 ∧ i = m.probeSlot h t j ∧
    ∀ t' < t, ∀ j < 16, m.ctrlAt (m.probeSlot h t' j) ≠ emptyCtrl

/-- The slot `i` is free and a key with the hash `h` may be stored in it. -/
structure Vacant (m : HashMap K V) (h : UInt64) (i : Nat) : Prop where
  lt : i < m.cap
  notFull : isFull (m.ctrlAt i) = false
  onChain : m.OnChain h i

section
variable [BEq K] [Inhabited K] [Inhabited V]

/-- No full slot holds `key`. -/
def Absent (m : HashMap K V) (key : K) : Prop :=
  ∀ i < m.cap, isFull (m.ctrlAt i) = true → ((m.slot i).key == key) = false

/-- The slot `i` holds `key`. -/
structure Holds (m : HashMap K V) (key : K) (i : Nat) : Prop where
  lt : i < m.cap
  full : isFull (m.ctrlAt i) = true
  beq : ((m.slot i).key == key) = true

structure WF [Hashable K] (m : HashMap K V) : Prop extends Shaped m where
  byte : ∀ i < m.cap, m.ctrlAt i = emptyCtrl ∨ m.ctrlAt i = deletedCtrl ∨
    m.ctrlAt i = h2Of (hash (m.slot i).key)
  /-- No key occupies two slots. -/
  unique : ∀ i < m.cap, ∀ j < m.cap, isFull (m.ctrlAt i) = true → isFull (m.ctrlAt j) = true →
    ((m.slot i).key == (m.slot j).key) = true → i = j
  /-- A tombstone never cuts the probe of a live key, and neither does an `EMPTY`. -/
  chain : ∀ i < m.cap, isFull (m.ctrlAt i) = true → m.OnChain (hash (m.slot i).key) i
  size : m.sizeCount = m.tally isFull

/-- The invariant of the tables a program can hold: a well-formed table at most three quarters of
whose slots are not `EMPTY`. -/
structure Inv [Hashable K] (m : HashMap K V) : Prop extends WF m where
  used : m.usedSlots = m.tally (· != emptyCtrl)
  load : m.usedSlots * 4 ≤ m.cap * 3

theorem Inv.exists_EMPTY [Hashable K] (hm : Inv m) : ∃ i < m.cap, m.ctrlAt i = emptyCtrl := by
  have hload := hm.load
  rw [hm.used] at hload
  obtain ⟨i, hi, hp⟩ := exists_of_tally_lt (m := m) (p := (· != emptyCtrl)) (by
    have := hm.cap_pos
    omega)
  exact ⟨i, hi, by simpa using hp⟩

end
end Cajeta.Collection.HashMap
