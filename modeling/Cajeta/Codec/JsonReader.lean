import Cajeta.Lib.BitMask
import Cajeta.Lib.Bytes
import Cajeta.Lib.Result

/-!
# The JSON tokenizer

The spans that the tokenizer records, as the code finds them: eight bytes a step with masks over a
64-bit word, then byte by byte. Every read of the input is checked.
-/

namespace Cajeta.Codec.Json

open Bytes Wrapping

/-- The cursor over the valid bytes of the input, and the span of the current token. -/
structure JsonReader where
  input : List UInt8
  pos : Nat
  tokenStart : Nat
  tokenEnd : Nat
  deriving DecidableEq

/-- How a call ends that does not return. A thrown `JsonParseException` has its message and its
offset, and leaves the reader as it then is. -/
inductive JsonFault where
  | parse (message : String) (offset : Nat) (reader : JsonReader)
  | outOfBounds
  | outOfFuel
  deriving DecidableEq

abbrev Scan := Except JsonFault

def byteAt (input : List UInt8) (p : Nat) : Scan UInt8 := .orThrow input[p]? .outOfBounds

/-- `Cajeta.loadU64(input, p)`. -/
def loadU64 (input : List UInt8) (p : Nat) : Scan UInt64 :=
  if p + 8 ≤ input.length then .ok (.ofNat (readLE 8 input p)) else .error .outOfBounds

/-- `Cajeta.ctz64(m) >> 3`. -/
def lowestByte (m : UInt64) : Nat := BitMask.ctz 64 m.toNat / 8

def ones : UInt64 := 0x0101010101010101
def high : UInt64 := 0x8080808080808080

def quote : UInt8 := 34
def backslash : UInt8 := 92

/-- `(x - ones) & (~x) & high`. -/
def zeroBytes (x : UInt64) : UInt64 := (x - ones) &&& ~~~x &&& high

def quotesAndBackslashes (w : UInt64) : UInt64 :=
  zeroBytes (w ^^^ 0x2222222222222222) ||| zeroBytes (w ^^^ 0x5C5C5C5C5C5C5C5C)

namespace JsonReader

def byteCount (r : JsonReader) : Nat := r.input.length

def unterminated (r : JsonReader) : Scan JsonReader :=
  .error (.parse "unterminated string" r.byteCount { r with pos := r.byteCount })

def closeString (r : JsonReader) (p : Nat) : JsonReader := { r with tokenEnd := p, pos := p + 1 }

/-- The loop over the last bytes. -/
def stringTail : (fuel : Nat) → JsonReader → (p : Nat) → Scan JsonReader
  | 0, _, _ => .error .outOfFuel
  | fuel + 1, r, p =>
    if p < r.byteCount then do
      let c ← byteAt r.input p
      if c = quote then return r.closeString p
      else if c = backslash then
        if p + 2 > r.byteCount then r.unterminated else stringTail fuel r (p + 2)
      else stringTail fuel r (p + 1)
    else r.unterminated

/-- The loop over words. -/
def stringWords : (fuel : Nat) → JsonReader → (p : Nat) → Scan JsonReader
  | 0, _, _ => .error .outOfFuel
  | fuel + 1, r, p =>
    if p + 8 ≤ r.byteCount then do
      let m := quotesAndBackslashes (← loadU64 r.input p)
      if m ≠ 0 then
        let p := p + lowestByte m
        let c ← byteAt r.input p
        if c = quote then return r.closeString p
        else if p + 2 > r.byteCount then r.unterminated
        else stringWords fuel r (p + 2)
      else stringWords fuel r (p + 8)
    else stringTail (r.byteCount + 1) r p

def scanStringSpan (r : JsonReader) : Scan JsonReader :=
  stringWords (r.byteCount + 1) { r with tokenStart := r.pos + 1 } (r.pos + 1)

end JsonReader

def isDigit (c : UInt8) : Bool := 48 ≤ c && c ≤ 57

/-- One of `.`, `e`, `E`, `+` and `-`. -/
def isSpecial (c : UInt8) : Bool := c = 46 || c = 101 || c = 69 || c = 43 || c = 45

def nonDigits (w : UInt64) : UInt64 :=
  let ge30 := (w + 0x5050505050505050) &&& high
  let gt39 := (w + 0x4646464646464646) &&& high
  let digit := ge30 &&& ~~~gt39 &&& high
  ~~~digit &&& high

/-- The loop that skips a run of digits, eight bytes a step. -/
def skipDigits : (fuel : Nat) → (input : List UInt8) → (p : Nat) → Scan Nat
  | 0, _, _ => .error .outOfFuel
  | fuel + 1, input, p =>
    if p + 8 ≤ input.length then do
      let nd := nonDigits (← loadU64 input p)
      if nd = 0 then skipDigits fuel input (p + 8) else return p + lowestByte nd
    else return p

namespace JsonReader

def endNumber (r : JsonReader) (p : Nat) : JsonReader := { r with tokenEnd := p, pos := p }

def numberLoop : (fuel : Nat) → JsonReader → (p : Nat) → Scan JsonReader
  | 0, _, _ => .error .outOfFuel
  | fuel + 1, r, p => do
    let p ← skipDigits (r.byteCount + 1) r.input p
    if p ≥ r.byteCount then return r.endNumber p
    let c ← byteAt r.input p
    if isDigit c || isSpecial c then numberLoop fuel r (p + 1) else return r.endNumber p

def scanNumberSpan (r : JsonReader) : Scan JsonReader :=
  numberLoop (r.byteCount + 1) { r with tokenStart := r.pos } (r.pos + 1)

end JsonReader

def minus : UInt8 := 45
def zero : UInt8 := 48

/-- `(int32) c`, of a signed byte. -/
def signed (c : UInt8) : Int := c.toInt8.toInt

/-- The loop over leading zeros; `count` bytes of the token are left. -/
def skipZeros : (count : Nat) → (input : List UInt8) → (i : Nat) → Scan Nat
  | 0, _, i => return i
  | count + 1, input, i => do
    if (← byteAt input i) = zero then skipZeros count input (i + 1) else return i

def limitDigits : List Int := [9, 2, 2, 3, 3, 7, 2, 0, 3, 6, 8, 5, 4, 7, 7, 5, 8, 0, 7]

/-- The loop that compares nineteen digits with the limit, from the `k`-th on. -/
def withinLimit (input : List UInt8) (negative : Bool) (i : Nat) :
    (k : Nat) → (lim : List Int) → Scan Bool
  | _, [] => return true
  | k, l :: lim => do
    let d := signed (← byteAt input (i + k)) - 48
    let l := if negative && k = 18 then 8 else l
    if d < l then return true
    else if d > l then return false
    else withinLimit input negative i (k + 1) lim

namespace JsonReader

def currentNumberFitsInt64 (r : JsonReader) : Scan Bool := do
  let negative ←
    if r.tokenStart < r.tokenEnd then
      let c ← byteAt r.input r.tokenStart
      pure (c == minus)
    else pure false
  let i := if negative then r.tokenStart + 1 else r.tokenStart
  let i ← skipZeros (r.tokenEnd - i) r.input i
  let digits := r.tokenEnd - i
  if digits < 19 then return true
  else if digits > 19 then return false
  else withinLimit r.input negative i 0 limitDigits

def raise (r : JsonReader) (message : String) (offset : Nat) : Scan α :=
  .error (.parse message offset r)

/-- The digit chain, in unsigned arithmetic; `count` bytes of the token are left. -/
def accumulate (r : JsonReader) (limit : UInt64) : (count i : Nat) → (acc : UInt64) → Scan UInt64
  | 0, _, acc => return acc
  | count + 1, i, acc => do
    let c ← byteAt r.input i
    let d := c.toUInt64 - 48
    let limitDiv10 := limit / 10
    let limitMod10 := limit - limitDiv10 * 10
    if c < 48 || c > 57 then r.raise "non-integer number (v1 doesn't parse floats)" i
    else if acc > limitDiv10 || acc = limitDiv10 && d > limitMod10 then
      r.raise "number out of int64 range" r.tokenStart
    else accumulate r limit count (i + 1) (acc * 10 + d)

def currentNumberAsInt64 (r : JsonReader) : Scan Int := do
  if r.tokenStart ≥ r.tokenEnd then r.raise "empty number token" r.tokenStart
  else
    let c ← byteAt r.input r.tokenStart
    let negative := c == minus
    let i := if negative then r.tokenStart + 1 else r.tokenStart
    if negative ∧ i ≥ r.tokenEnd then r.raise "bare '-' is not a number" r.tokenStart
    else
      let limit := if negative then 9223372036854775808 else 9223372036854775807
      let acc ← r.accumulate limit (r.tokenEnd - i) i 0
      if negative then
        if acc = 9223372036854775808 then return i64 (i64 (-9223372036854775807) - 1)
        else return i64 (-i64 acc.toNat)
      else return i64 acc.toNat

end JsonReader

end Cajeta.Codec.Json
