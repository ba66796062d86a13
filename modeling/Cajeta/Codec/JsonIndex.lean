import Cajeta.Codec.JsonReader
import Cajeta.Lib.Cells

/-!
# The structural index of JSON

The index of a buffer holds the positions of its brackets, colons and commas outside strings, of
the quotes that open strings, and of the first bytes of scalars. One scan finds them byte by byte,
another in blocks of sixteen bytes. The walk over the index finds the end of a value.
-/

namespace Cajeta.Codec.Json

open Cells

/-- How a call ends that does not return. -/
inductive IndexFault where
  | text
  | index
  | negativeSize
  | outOfFuel
  deriving DecidableEq

abbrev Indexing := Except IndexFault

def isWs (c : UInt8) : Bool := c = 32 || c = 9 || c = 10 || c = 13

def isStruct (c : UInt8) : Bool :=
  c = 123 || c = 125 || c = 91 || c = 93 || c = 58 || c = 44

/-- What a scan carries from byte to byte. -/
structure Flags where
  inStr : Bool
  prevVal : Bool
  pend : Bool
  deriving DecidableEq

namespace JsonIndex

/-- `idx[cnt] = (int32) i; cnt = cnt + 1;` on an array of `cap` entries, the first of which have
been stored so. -/
def push (cap : Nat) (idx : List Int) (i : Nat) : Indexing (List Int) :=
  if 0 ≤ i32 idx.length ∧ i32 idx.length < cap then .ok (idx ++ [i32 i]) else .error .index

/-- The loop of `scalarAppend`. -/
def scalarLoop (b : List UInt8) (stop cap : Nat) :
    (fuel : Nat) → (i : Nat) → Flags → (idx : List Int) → Indexing (List Int × Flags)
  | 0, _, _, _ => .error .outOfFuel
  | fuel + 1, i, f, idx =>
    if i < stop then do
      let c ← .orThrow b[i]? .text
      if f.inStr then
        if c = backslash then
          if i + 1 ≥ stop then scalarLoop b stop cap fuel stop { f with pend := true } idx
          else scalarLoop b stop cap fuel (i + 2) f idx
        else if c = quote then scalarLoop b stop cap fuel (i + 1) { f with inStr := false } idx
        else scalarLoop b stop cap fuel (i + 1) f idx
      else if c = quote then do
        let idx ← push cap idx i
        scalarLoop b stop cap fuel (i + 1) { f with inStr := true, prevVal := false } idx
      else if isStruct c then do
        let idx ← push cap idx i
        scalarLoop b stop cap fuel (i + 1) { f with prevVal := false } idx
      else if isWs c then scalarLoop b stop cap fuel (i + 1) { f with prevVal := false } idx
      else if !f.prevVal then do
        let idx ← push cap idx i
        scalarLoop b stop cap fuel (i + 1) { f with prevVal := true } idx
      else scalarLoop b stop cap fuel (i + 1) { f with prevVal := true } idx
    else return (idx, f)

def scalarAppend (b : List UInt8) (start stop cap : Nat) (f : Flags) (idx : List Int) :
    Indexing (List Int × Flags) :=
  if f.pend then scalarLoop b stop cap (stop + 1) (start + 1) { f with pend := false } idx
  else scalarLoop b stop cap (stop + 1) start f idx

/-- The bytes in memory from the buffer's first on, those of the buffer among them. `vload16`
does not check that it stays in the buffer. -/
structure Memory (b : List UInt8) where
  byte : Nat → UInt8
  holds : ∀ i c, b[i]? = some c → byte i = c

/-- `Cajeta.vload16(b, p)`, lane by lane. -/
def vload16 (mem : Memory b) (p : Nat) (lane : Nat) : UInt8 := mem.byte (p + lane)

def eqMask (v : Nat → UInt8) (c : UInt8) : Nat := BitMask.ofPred 16 fun i => v i = c

/-- `~x` on the sixteen low bits. -/
def not16 (x : Nat) : Nat := 65535 ^^^ x

/-- The significant bytes of a block without a backslash, and what is carried behind it. -/
def scanBlock (v : Nat → UInt8) (instr pval : Bool) : Nat × Bool × Bool :=
  let qm := eqMask v quote
  let ws := eqMask v 32 ||| eqMask v 9 ||| eqMask v 10 ||| eqMask v 13
  let structM := eqMask v 123 ||| eqMask v 125 ||| eqMask v 91 ||| eqMask v 93 ||| eqMask v 58 |||
    eqMask v 44
  let carry := if instr then 65535 else 0
  let vb0 := if pval then 1 else 0
  let pf := BitMask.prefixXor16 qm &&& 65535
  let inStr := (carry ^^^ (pf <<< 1)) &&& 65535
  let openQ := qm &&& not16 inStr &&& 65535
  let valueB := (not16 ws &&& not16 structM &&& not16 qm &&& not16 inStr) &&& 65535
  let vbPrev := ((valueB <<< 1) ||| vb0) &&& 65535
  let scalarStart := valueB &&& not16 vbPrev &&& 65535
  let sig := ((structM &&& not16 inStr) ||| openQ ||| scalarStart) &&& 65535
  let par := (pf >>> 15) &&& 1
  (sig, ((carry &&& 1) ^^^ par) &&& 1 ≠ 0, (valueB >>> 15) &&& 1 ≠ 0)

def blockLoop (b : List UInt8) (mem : Memory b) (stop cap : Nat) :
    (fuel : Nat) → (p : Nat) → Flags → (idx : List Int) → Indexing (List Int)
  | 0, _, _, _ => .error .outOfFuel
  | fuel + 1, p, f, idx =>
    if p + 16 ≤ stop then
      let v := vload16 mem p
      if eqMask v 92 ≠ 0 ∨ f.pend then do
        let (idx, f) ← scalarAppend b p (p + 16) cap f idx
        blockLoop b mem stop cap fuel (p + 16) f idx
      else do
        let (sig, instr, pval) := scanBlock v f.inStr f.prevVal
        let idx ← ((BitMask.toList 16 16 sig).map (p + ·)).foldlM (push cap) idx
        blockLoop b mem stop cap fuel (p + 16) ⟨instr, pval, f.pend⟩ idx
    else do
      let (idx, _) ← scalarAppend b p stop cap f idx
      return idx

/-- The entries come back; as many as `cnt`. -/
def buildRange (b : List UInt8) (mem : Memory b) (start stop cap : Nat) : Indexing (List Int) :=
  blockLoop b mem stop cap (stop + 1) start ⟨false, false, false⟩ []

def build (b : List UInt8) (mem : Memory b) (n cap : Nat) : Indexing (List Int) :=
  buildRange b mem 0 n cap

end JsonIndex

end Cajeta.Codec.Json
