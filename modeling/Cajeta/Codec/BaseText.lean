import Cajeta.Lib.Cells
import Cajeta.Lib.Result

/-!
# Base64 and Base32

Bytes to text and back, by regrouping their bits in a 32-bit accumulator. Sizes are computed in
`int32` and wrap; indices stay within arrays of such sizes. An array of negative size and an access
outside an array end the program.
-/

namespace Cajeta.Codec

open Cells

/-- How a call ends that does not return. -/
inductive CodecFault where
  | raised (message : String) (offset : Nat)
  | negativeSize
  | outOfBounds
  | outOfFuel
  deriving DecidableEq

abbrev Coding := Except CodecFault

namespace BaseText

def byteAt (data : List UInt8) (i : Nat) : Coding UInt8 := .orThrow data[i]? .outOfBounds

/-- `out[o] = c`. -/
def store (out : List UInt8) (o : Nat) (c : UInt8) : Coding (List UInt8) :=
  if o < out.length then .ok (out.set o c) else .error .outOfBounds

/-- `heap int8[size]`. -/
def allocate (size : Int) : Coding (List UInt8) :=
  if size < 0 then .error .negativeSize else .ok (List.replicate size.toNat 0)

/-- `(int32) len`, or 0 when that is negative. -/
def count (len : Int) : Nat := (i32 len).toNat

/-- `((int32) c) & 0xff`. -/
def unsigned (c : UInt8) : BitVec 32 := c.toBitVec.setWidth 32

/-- `(acc >> shift) & (2^width - 1)`. -/
def field (width : Nat) (acc : BitVec 32) (shift : Nat) : Nat :=
  (acc.sshiftRight shift &&& BitVec.ofNat 32 (2 ^ width - 1)).toNat

def padding : UInt8 := 61

/-- The loop that strips trailing `=`. -/
def stripPadding (data : List UInt8) : (stripped : Nat) → Coding Nat
  | 0 => return 0
  | stripped + 1 => do
    if (← byteAt data stripped) = padding then stripPadding data stripped else return stripped + 1

/-- What the two decoders do not share. -/
structure Decoder where
  /-- The bits of a symbol. -/
  width : Nat
  /-- The value of a symbol, or `none` for -1. -/
  symbol : UInt8 → Option Nat
  truncated : (stripped : Nat) → Bool
  /-- What is kept of the accumulator after a symbol. -/
  mask : (acc : BitVec 32) → (bits : Nat) → BitVec 32
  truncatedMessage : String
  invalidMessage : String

namespace Decoder

/-- The loop over the symbols; `count` of them are left. -/
def loop (d : Decoder) (data : List UInt8) :
    (count i : Nat) → (acc : BitVec 32) → (bits : Nat) → (out : List UInt8) → (o : Nat) →
      Coding (List UInt8)
  | 0, _, _, _, out, _ => return out
  | count + 1, i, acc, bits, out, o => do
    let c ← byteAt data i
    match d.symbol c with
    | none => .error (.raised d.invalidMessage i)
    | some s =>
      let acc := acc <<< d.width ||| BitVec.ofNat 32 s
      let bits := bits + d.width
      if bits ≥ 8 then
        let bits := bits - 8
        let out ← store out o (.ofNat (field 8 acc bits))
        d.loop data count (i + 1) (d.mask acc bits) bits out (o + 1)
      else d.loop data count (i + 1) (d.mask acc bits) bits out o

def decodeBytes (d : Decoder) (data : List UInt8) (len : Int) : Coding (List UInt8) := do
  let stripped ← stripPadding data (count len)
  if d.truncated stripped then .error (.raised d.truncatedMessage stripped)
  else
    let outLen := (i32 (stripped * d.width)).tdiv 8
    let out ← allocate outLen
    d.loop data stripped 0 0 0 out 0

end Decoder

end BaseText

open BaseText

namespace Base64

def sextetToChar (v : Nat) (urlSafe : Bool) : UInt8 :=
  if v < 26 then .ofNat (65 + v)
  else if v < 52 then .ofNat (97 + (v - 26))
  else if v < 62 then .ofNat (48 + (v - 52))
  else if v = 62 then if urlSafe then 45 else 43
  else if urlSafe then 95 else 47

def charToSextet (c : UInt8) : Option Nat :=
  if c ≥ 65 ∧ c ≤ 90 then some (c.toNat - 65)
  else if c ≥ 97 ∧ c ≤ 122 then some (c.toNat - 97 + 26)
  else if c ≥ 48 ∧ c ≤ 57 then some (c.toNat - 48 + 52)
  else if c = 43 ∨ c = 45 then some 62
  else if c = 47 ∨ c = 95 then some 63
  else none

/-- `out[o] = sextetToChar((v >> shift) & 0x3f, urlSafe)`. -/
def putSextet (urlSafe : Bool) (v : BitVec 32) (shift : Nat) (out : List UInt8) (o : Nat) :
    Coding (List UInt8) :=
  store out o (sextetToChar (field 6 v shift) urlSafe)

/-- The loop over whole groups, from the group at `i` on. -/
def wholeGroups (data : List UInt8) (n : Nat) (urlSafe : Bool) :
    (fuel i o : Nat) → (out : List UInt8) → Coding (Nat × Nat × List UInt8)
  | 0, _, _, _ => .error .outOfFuel
  | fuel + 1, i, o, out =>
    if i + 3 ≤ n then do
      let b0 := unsigned (← byteAt data i)
      let b1 := unsigned (← byteAt data (i + 1))
      let b2 := unsigned (← byteAt data (i + 2))
      let v := b0 <<< 16 ||| b1 <<< 8 ||| b2
      let out ← putSextet urlSafe v 18 out o
      let out ← putSextet urlSafe v 12 out (o + 1)
      let out ← putSextet urlSafe v 6 out (o + 2)
      let out ← putSextet urlSafe v 0 out (o + 3)
      wholeGroups data n urlSafe fuel (i + 3) (o + 4) out
    else return (i, o, out)

def encodeInto (data : List UInt8) (len : Int) (urlSafe pad : Bool) : Coding (List UInt8) := do
  let n := count len
  let fullGroups := n / 3
  let rem := n - fullGroups * 3
  let outLen := i32 (fullGroups * 4)
  let outLen :=
    if rem = 1 then i32 (outLen + if pad then 4 else 2)
    else if rem = 2 then i32 (outLen + if pad then 4 else 3)
    else outLen
  let out ← allocate outLen
  let (i, o, out) ← wholeGroups data n urlSafe (n + 1) 0 0 out
  if rem = 1 then
    let b0 := unsigned (← byteAt data i)
    let v := b0 <<< 16
    let out ← putSextet urlSafe v 18 out o
    let out ← putSextet urlSafe v 12 out (o + 1)
    if pad then
      let out ← store out (o + 2) padding
      store out (o + 3) padding
    else return out
  else if rem = 2 then
    let b0 := unsigned (← byteAt data i)
    let b1 := unsigned (← byteAt data (i + 1))
    let v := b0 <<< 16 ||| b1 <<< 8
    let out ← putSextet urlSafe v 18 out o
    let out ← putSextet urlSafe v 12 out (o + 1)
    let out ← putSextet urlSafe v 6 out (o + 2)
    if pad then store out (o + 3) padding else return out
  else return out

/-- The accumulator keeps what has been shifted out of the pending bits. -/
def decoder : Decoder where
  width := 6
  symbol := charToSextet
  truncated stripped := stripped % 4 = 1
  mask acc _ := acc
  truncatedMessage := "base64: truncated final quantum"
  invalidMessage := "base64: invalid character"

def decodeBytes (data : List UInt8) (len : Int) : Coding (List UInt8) :=
  decoder.decodeBytes data len

end Base64

namespace Base32

def quintetToChar (v : Nat) : UInt8 := if v < 26 then .ofNat (65 + v) else .ofNat (50 + (v - 26))

def charToQuintet (c : UInt8) : Option Nat :=
  if c ≥ 65 ∧ c ≤ 90 then some (c.toNat - 65)
  else if c ≥ 97 ∧ c ≤ 122 then some (c.toNat - 97)
  else if c ≥ 50 ∧ c ≤ 55 then some (26 + (c.toNat - 50))
  else none

/-- `acc & ((1 << bits) - 1)`. -/
def lowBits (acc : BitVec 32) (bits : Nat) : BitVec 32 := acc &&& ((1 : BitVec 32) <<< bits - 1)

/-- The loop that writes the quintets of the accumulator. -/
def drain (acc : BitVec 32) :
    (fuel bits : Nat) → (out : List UInt8) → (o : Nat) → Coding (Nat × List UInt8 × Nat)
  | 0, _, _, _ => .error .outOfFuel
  | fuel + 1, bits, out, o =>
    if bits ≥ 5 then do
      let bits := bits - 5
      let out ← store out o (quintetToChar (field 5 acc bits))
      drain acc fuel bits out (o + 1)
    else return (bits, out, o)

/-- The loop over the bytes; `count` of them are left. -/
def encodeLoop (data : List UInt8) :
    (count i : Nat) → (acc : BitVec 32) → (bits : Nat) → (out : List UInt8) → (o : Nat) →
      Coding (BitVec 32 × Nat × List UInt8 × Nat)
  | 0, _, acc, bits, out, o => return (acc, bits, out, o)
  | count + 1, i, acc, bits, out, o => do
    let acc := acc <<< 8 ||| unsigned (← byteAt data i)
    let bits := bits + 8
    let (bits, out, o) ← drain acc (bits + 1) bits out o
    encodeLoop data count (i + 1) (lowBits acc bits) bits out o

/-- The loop `while (o < outLen)`; `count` characters are left. -/
def fillPadding : (count : Nat) → (out : List UInt8) → (o : Nat) → Coding (List UInt8)
  | 0, out, _ => return out
  | count + 1, out, o => do fillPadding count (← store out o padding) (o + 1)

def encode (data : List UInt8) (len : Int) (pad : Bool) : Coding (List UInt8) := do
  let n := count len
  let chars := (i32 (i32 (n * 8) + 4)).tdiv 5
  let outLen := if pad then i32 ((i32 (chars + 7)).tdiv 8 * 8) else chars
  let out ← allocate outLen
  let (acc, bits, out, o) ← encodeLoop data n 0 0 0 out 0
  if bits > 0 then
    let out ← store out o (quintetToChar (field 5 (acc <<< (5 - bits)) 0))
    fillPadding (outLen.toNat - (o + 1)) out (o + 1)
  else fillPadding (outLen.toNat - o) out o

def decoder : Decoder where
  width := 5
  symbol := charToQuintet
  truncated stripped := stripped % 8 = 1 || stripped % 8 = 3 || stripped % 8 = 6
  mask := lowBits
  truncatedMessage := "base32: truncated final quantum"
  invalidMessage := "base32: character outside the alphabet"

def decodeBytes (data : List UInt8) (len : Int) : Coding (List UInt8) :=
  decoder.decodeBytes data len

end Base32

end Cajeta.Codec
