import Cajeta.Lib.Cells
import Cajeta.Lib.Probe
import Cajeta.Lib.Result
import Mathlib.Data.Nat.Bitwise

/-!
# The members of a JSON object

An object keeps its members in the order of their insertion. Lookups scan them while there are few,
and probe an index that is built when it is needed from sixteen members on.
-/

namespace Cajeta.Codec.Json

open Cells

/-- A key, the `keyLen` bytes of its buffer, and its value. -/
structure Member (V : Type) where
  key : List UInt8
  value : V
  deriving DecidableEq

/-- `members` are the live parts of `keys`, `keyLens` and `values`, `cap` is the length of these
arrays. A slot of the index holds the number of a member; `-1` is `none`. -/
structure JsonObject (V : Type) where
  members : List (Member V)
  cap : Int
  slots : Option (List (Option Nat))
  slotMask : Nat
  slotCount : Nat
  deriving DecidableEq

/-- How a call ends that does not return. -/
inductive ObjectFault where
  | outOfBounds
  | nullSlots
  | negativeSize
  | outOfFuel
  deriving DecidableEq

abbrev Outcome := Except ObjectFault

def bytesAgree : List UInt8 → List UInt8 → Bool
  | x :: xs, y :: ys => if x ≠ y then false else bytesAgree xs ys
  | _, _ => true

def keyEquals (k key : List UInt8) : Bool :=
  if k.length ≠ key.length then false else bytesAgree k key

/-- FNV-1a over the key bytes. -/
def hashKey (key : List UInt8) : UInt32 :=
  key.foldl (fun h b => (h ^^^ b.toUInt32) * 16777619) 0x811C9DC5

namespace JsonObject
variable {V : Type}

def new : JsonObject V :=
  { members := [], cap := 8, slots := none, slotMask := 0, slotCount := 0 }

def sizeCount (o : JsonObject V) : Nat := o.members.length

/-- The loop that doubles the number of slots, in 32 bits. -/
def slotCapacity : (fuel : Nat) → (sizeCount : Nat) → (capS : Int) → Outcome Int
  | 0, _, _ => .error .outOfFuel
  | fuel + 1, sizeCount, capS =>
    if capS < i32 (sizeCount * 2) then slotCapacity fuel sizeCount (i32 (capS * 2)) else .ok capS

/-- The loop that stores member `e` at the end of its probe, unless an earlier one has its key. -/
def place (members : List (Member V)) (mask e : Nat) (key : List UInt8) :
    (fuel : Nat) → (slot : Nat) → (t : List (Option Nat)) → Outcome (List (Option Nat))
  | 0, _, _ => .error .outOfFuel
  | fuel + 1, slot, t => do
    match ← .orThrow t[slot]? .outOfBounds with
    | none => return t.set slot (some e)
    | some cur =>
      let m ← .orThrow members[cur]? .outOfBounds
      if keyEquals m.key key then return t
      else place members mask e key fuel ((slot + 1) &&& mask) t

/-- The loop over the members from `e` on. -/
def placeAll (members : List (Member V)) (mask : Nat) :
    (rest : List (Member V)) → (e : Nat) → (t : List (Option Nat)) → Outcome (List (Option Nat))
  | [], _, t => return t
  | m :: rest, e, t => do
    let slot := (hashKey m.key).toNat &&& mask
    let t ← place members mask e m.key (t.length + 1) slot t
    placeAll members mask rest (e + 1) t

/-- `heap int32[n]`, filled with `-1`. -/
def allocate (n : Int) : Outcome (List (Option Nat)) :=
  if n < 0 then .error .negativeSize else .ok (.replicate n.toNat none)

def buildIndex (o : JsonObject V) : Outcome (JsonObject V) := do
  let capS ← slotCapacity 64 o.sizeCount 16
  let t ← allocate capS
  let mask := (capS - 1).toNat
  let t ← placeAll o.members mask o.members 0 t
  return { o with slots := some t, slotMask := mask, slotCount := o.sizeCount }

/-- The loop that follows the probe. -/
def probe (o : JsonObject V) (slots : List (Option Nat)) (key : List UInt8) :
    (fuel : Nat) → (slot : Nat) → Outcome (Option V)
  | 0, _ => .error .outOfFuel
  | fuel + 1, slot => do
    match ← .orThrow slots[slot]? .outOfBounds with
    | none => return none
    | some e =>
      let m ← .orThrow o.members[e]? .outOfBounds
      if keyEquals m.key key then return some m.value
      else probe o slots key fuel ((slot + 1) &&& o.slotMask)

/-- The loop over the members. -/
def scan (key : List UInt8) : List (Member V) → Option V
  | [] => none
  | m :: rest => if keyEquals m.key key then some m.value else scan key rest

def get (o : JsonObject V) (key : List UInt8) : Outcome (JsonObject V × Option V) := do
  if o.sizeCount ≥ 16 then
    let o ← (if o.slots = none ∨ o.slotCount ≠ o.sizeCount then o.buildIndex else pure o)
    let slots ← .orThrow o.slots .nullSlots
    let v ← o.probe slots key (slots.length + 1) ((hashKey key).toNat &&& o.slotMask)
    return (o, v)
  else return (o, scan key o.members)

def grow (o : JsonObject V) : Outcome (JsonObject V) :=
  if i32 (o.cap * 2) < 0 then .error .negativeSize
  else .ok { o with cap := i32 (o.cap * 2) }

def put (o : JsonObject V) (key : List UInt8) (v : V) : Outcome (JsonObject V) := do
  let o ← (if o.sizeCount ≥ o.cap then o.grow else pure o)
  .require (o.sizeCount < o.cap) .outOfBounds
  return { o with members := o.members ++ [⟨key, v⟩] }

inductive Call (V : Type) where
  | put (key : List UInt8) (v : V)
  | get (key : List UInt8)
  deriving DecidableEq

def run : JsonObject V → List (Call V) → Outcome (List (Option V))
  | _, [] => return []
  | o, .put key v :: calls => do run (← o.put key v) calls
  | o, .get key :: calls => do
    let (o, v) ← o.get key
    return v :: (← run o calls)

end JsonObject

def firstMatch (members : List (Member V)) (key : List UInt8) : Option V :=
  (members.find? (·.key = key)).map (·.value)

def scanned : List (Member V) → List (JsonObject.Call V) → List (Option V)
  | _, [] => []
  | members, .put key v :: calls => scanned (members ++ [⟨key, v⟩]) calls
  | members, .get key :: calls => firstMatch members key :: scanned members calls

end Cajeta.Codec.Json
