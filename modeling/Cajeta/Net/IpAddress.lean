import Cajeta.Lib.Result
import Mathlib.Data.Vector.Defs

/-!
# IP addresses and their text

Parsing and printing an address as the code does both: over the bytes of the text, with an index
that every read checks, and into arrays of sixteen bytes whose writes are checked too.
-/

namespace Cajeta.Net

/-- Why a parse did not return an address. The loop of an IPv6 text has fuel, one for each byte. -/
inductive Fault where
  | malformed (reason : String) (position : Int)
  | outOfBounds
  | outOfFuel
  deriving DecidableEq

abbrev Parse := Except Fault

inductive AddressFamily where
  | v4 | v6
  deriving DecidableEq

/-- The sixteen octets of an address, in network byte order. IPv4 has the first four. -/
abbrev Octets := Vector UInt8 16

structure IpAddress where
  family : AddressFamily := .v4
  octets : Octets := Vector.replicate 16 0
  deriving DecidableEq

def IpAddress.isV4 (a : IpAddress) : Bool := a.family = .v4

def IpAddress.used (a : IpAddress) : List UInt8 :=
  a.octets.toList.take (if a.isV4 then 4 else 16)

def IpAddress.equals (a other : IpAddress) : Bool :=
  a.family = other.family && a.used = other.used

def malformed (reason : String) (position : Int) : Parse α := .error (.malformed reason position)

def byteAt (b : List UInt8) (i : Nat) : Parse UInt8 := .orThrow b[i]? .outOfBounds

/-- `octets[k] = v`. -/
def write (octets : Octets) (k : Nat) (v : UInt8) : Parse Octets :=
  if h : k < 16 then .ok (octets.set k v) else .error .outOfBounds

def colon : UInt8 := 58
def dot : UInt8 := 46

def decDigit (c : UInt8) : Option Nat := if 48 ≤ c ∧ c ≤ 57 then some (c.toNat - 48) else none

def hexDigit (c : UInt8) : Option Nat :=
  if 48 ≤ c ∧ c ≤ 57 then some (c.toNat - 48)
  else if 97 ≤ c ∧ c ≤ 102 then some (c.toNat - 97 + 10)
  else if 65 ≤ c ∧ c ≤ 70 then some (c.toNat - 65 + 10)
  else none

/-- The octet that is being filled, its value and digits so far, and the ones before it. -/
structure V4State where
  octet : Nat := 0
  value : Nat := 0
  digits : Nat := 0
  octets : Octets := Vector.replicate 16 0

def V4State.digit (st : V4State) (i d : Nat) : Parse V4State :=
  let st := { st with value := st.value * 10 + d, digits := st.digits + 1 }
  if st.digits > 3 ∨ st.value > 255 then malformed "IPv4 octet out of range (0..255)" i
  else .ok st

def V4State.next (st : V4State) (i : Nat) : Parse V4State :=
  if st.digits = 0 then malformed "empty IPv4 octet" i
  else if st.octet ≥ 3 then malformed "too many IPv4 octets" i
  else do
    let octets ← write st.octets st.octet (UInt8.ofNat st.value)
    return { octet := st.octet + 1, octets }

def V4State.read (st : V4State) (i : Nat) (c : UInt8) : Parse V4State :=
  match decDigit c with
  | some d => st.digit i d
  | none => if c = dot then st.next i else malformed "illegal character in IPv4 address" i

def parseV4Loop (b : List UInt8) (last i : Nat) (st : V4State) : Parse V4State :=
  if i < last then do
    let c ← byteAt b i
    let st ← st.read i c
    parseV4Loop b last (i + 1) st
  else return st
termination_by last - i

/-- The dotted quad in `b[begin, last)`. -/
def parseV4 (b : List UInt8) (begin last : Nat) : Parse IpAddress := do
  let st ← parseV4Loop b last begin {}
  if st.digits = 0 then malformed "IPv4 address ends without a final octet" last
  else if st.octet ≠ 3 then malformed "IPv4 address needs exactly four octets" last
  else do
    let octets ← write st.octets 3 (UInt8.ofNat st.value)
    return { family := .v4, octets }

/-! ## Parsing IPv6 -/

/-- Where a group ends, with its value and its digits, and whether it turned out to be a quad. -/
structure GroupScan where
  i : Nat
  hexVal : Nat
  hexDigits : Nat
  sawDot : Bool

def scanGroup (b : List UInt8) (last groupStart i hexVal hexDigits : Nat) : Parse GroupScan :=
  if i < last then do
    let c ← byteAt b i
    if c = colon then return ⟨i, hexVal, hexDigits, false⟩
    else if c = dot then return ⟨i, hexVal, hexDigits, true⟩
    else
      match hexDigit c with
      | none => malformed "illegal character in IPv6 group" i
      | some h =>
        if hexDigits + 1 > 4 then malformed "IPv6 group has more than 4 hex digits" groupStart
        else scanGroup b last groupStart (i + 1) ((hexVal <<< 4) ||| h) (hexDigits + 1)
  else return ⟨i, hexVal, hexDigits, false⟩
termination_by last - i

/-- What stands before a `::` is gathered in `head`, what stands after it in `tail`. -/
structure V6State where
  i : Nat
  head : Octets := Vector.replicate 16 0
  tail : Octets := Vector.replicate 16 0
  headLen : Nat := 0
  tailLen : Nat := 0
  sawDoubleColon : Bool := false
  inTail : Bool := false

def writeAll (octets : Octets) (k : Nat) : List UInt8 → Parse Octets
  | [] => .ok octets
  | v :: vs => do
    let octets ← write octets k v
    writeAll octets (k + 1) vs

/-- Puts octets where the next ones go. -/
def V6State.put (st : V6State) (vs : List UInt8) : Parse V6State :=
  if st.inTail then do
    let tail ← writeAll st.tail st.tailLen vs
    return { st with tail, tailLen := st.tailLen + vs.length }
  else do
    let head ← writeAll st.head st.headLen vs
    return { st with head, headLen := st.headLen + vs.length }

/-- A group of sixteen bits, for which there must be room. -/
def V6State.putGroup (st : V6State) (groupStart hexVal : Nat) : Parse V6State :=
  if (if st.inTail then st.tailLen else st.headLen) + 2 > 16 then
    malformed "IPv6 address has too many groups" groupStart
  else st.put [UInt8.ofNat ((hexVal >>> 8) &&& 0xff), UInt8.ofNat (hexVal &&& 0xff)]

/-- The `::`, of which there may be one. -/
def V6State.compress (st : V6State) (i consumed : Nat) : Parse V6State :=
  if st.sawDoubleColon then malformed "IPv6 address has more than one '::'" i
  else return { st with sawDoubleColon := true, inTail := true, i := i + consumed }

def colonAt (b : List UInt8) (last i : Nat) : Parse Bool :=
  if i < last then do
    let c ← byteAt b i
    return c = colon
  else return false

def endGroup (b : List UInt8) (last i : Nat) (st : V6State) : Parse V6State := do
  let here ← colonAt b last i
  if here then do
    let next ← colonAt b last (i + 1)
    if next then st.compress i 2
    else if i + 1 ≥ last then malformed "IPv6 address may not end with a single ':'" i
    else return { st with i := i + 1 }
  else return { st with i }

def parseGroup (b : List UInt8) (last : Nat) (st : V6State) : Parse V6State := do
  let g ← scanGroup b last st.i st.i 0 0
  if g.sawDot then do
    let v4 ← parseV4 b st.i last
    let st ← st.put (v4.octets.toList.take 4)
    return { st with i := last }
  else if g.hexDigits = 0 then do
    let here ← colonAt b last g.i
    if here then st.compress g.i 1 else malformed "empty IPv6 group" st.i
  else do
    let st ← st.putGroup st.i g.hexVal
    endGroup b last g.i st

def parseV6Loop (b : List UInt8) (last : Nat) : Nat → V6State → Parse V6State
  | 0, st => if st.i < last then .error .outOfFuel else return st
  | fuel + 1, st =>
    if st.i < last then do
      let st ← parseGroup b last st
      parseV6Loop b last fuel st
    else return st

/-- A text that starts with a colon starts with `::`. -/
def leadingColons (b : List UInt8) (begin last : Nat) : Parse V6State := do
  let here ← colonAt b last begin
  if here then do
    let next ← colonAt b last (begin + 1)
    if next then return { i := begin + 2, sawDoubleColon := true, inTail := true }
    else malformed "IPv6 address may not start with a single ':'" begin
  else return { i := begin }

/-- The head at the front, the tail at the end, and zeros between them. -/
def assemble (st : V6State) (begin last : Nat) : Parse IpAddress :=
  let total := st.headLen + st.tailLen
  if st.sawDoubleColon ∧ total ≥ 16 then
    malformed "IPv6 '::' must compress at least one zero group" begin
  else if ¬st.sawDoubleColon ∧ total ≠ 16 then
    malformed "IPv6 address must have exactly 8 groups (or use '::')" last
  else do
    let octets ← writeAll (Vector.replicate 16 0) 0 (st.head.toList.take st.headLen)
    let octets ← writeAll octets (16 - st.tailLen) (st.tail.toList.take st.tailLen)
    return { family := .v6, octets }

/-- The IPv6 literal in `b[begin, last)`. -/
def parseV6 (b : List UInt8) (begin last : Nat) : Parse IpAddress := do
  let st ← leadingColons b begin last
  let st ← parseV6Loop b last (last - begin) st
  assemble st begin last

def detect (b : List UInt8) (n i : Nat) (firstColon firstDot : Option Nat) :
    Parse (Option Nat × Option Nat) :=
  if i < n then do
    let c ← byteAt b i
    detect b n (i + 1) (if c = colon ∧ firstColon.isNone then some i else firstColon)
      (if c = dot ∧ firstDot.isNone then some i else firstDot)
  else return (firstColon, firstDot)
termination_by n - i

def IpAddress.parse : Option (List UInt8) → Parse IpAddress
  | none => malformed "null IP address input" (-1)
  | some b =>
    if b.length = 0 then malformed "empty IP address" (-1)
    else do
      let (firstColon, firstDot) ← detect b b.length 0 none none
      if firstColon.isSome then parseV6 b 0 b.length
      else if firstDot.isSome then parseV4 b 0 b.length
      else malformed "not an IP address (no '.' or ':')" 0

def writeDecimal (value : Nat) : List UInt8 :=
  if value ≥ 100 then
    [UInt8.ofNat (48 + value / 100), UInt8.ofNat (48 + value / 10 % 10),
      UInt8.ofNat (48 + value % 10)]
  else if value ≥ 10 then [UInt8.ofNat (48 + value / 10), UInt8.ofNat (48 + value % 10)]
  else [UInt8.ofNat (48 + value)]

def hexChar (nibble : Nat) : UInt8 :=
  if nibble < 10 then UInt8.ofNat (48 + nibble) else UInt8.ofNat (97 + (nibble - 10))

/-- A group in lowercase hex, leading zeros suppressed. -/
def writeGroup (v : Nat) : List UInt8 :=
  let n0 := (v >>> 12) &&& 0xf
  let n1 := (v >>> 8) &&& 0xf
  let n2 := (v >>> 4) &&& 0xf
  let n3 := v &&& 0xf
  (if n0 ≠ 0 then [hexChar n0] else []) ++
    (if n0 ≠ 0 ∨ n1 ≠ 0 then [hexChar n1] else []) ++
    (if n0 ≠ 0 ∨ n1 ≠ 0 ∨ n2 ≠ 0 then [hexChar n2] else []) ++ [hexChar n3]

/-- Each item but the first has the separator before it. -/
def joinWith (sep : UInt8) : List (List UInt8) → List UInt8
  | [] => []
  | x :: xs => x ++ xs.flatMap (sep :: ·)

/-- The longest run of zero groups so far, and the one that is going on. -/
structure ZeroRun where
  bestStart : Option Nat := none
  bestLen : Nat := 0
  curStart : Option Nat := none
  curLen : Nat := 0

def ZeroRun.read (r : ZeroRun) (gi : Nat) (isZero : Bool) : ZeroRun :=
  if isZero then
    let r := match r.curStart with
      | none => { r with curStart := some gi, curLen := 1 }
      | some _ => { r with curLen := r.curLen + 1 }
    if r.curLen > r.bestLen then { r with bestLen := r.curLen, bestStart := r.curStart } else r
  else { r with curStart := none, curLen := 0 }

/-- The run to collapse: where it starts and how long it is. A run of one group stays. -/
def collapsed (zeros : List Bool) : Option (Nat × Nat) :=
  let r := zeros.zipIdx.foldl (fun r x => r.read x.2 x.1) ({} : ZeroRun)
  if r.bestLen < 2 then none else r.bestStart.map (·, r.bestLen)

/-- The sixteen-bit groups of octets. -/
def groupsOf : List UInt8 → List Nat
  | hi :: lo :: rest => ((hi.toNat <<< 8) ||| lo.toNat) :: groupsOf rest
  | _ => []

def formatV6 (groups : List Nat) : List UInt8 :=
  match collapsed (groups.map (· = 0)) with
  | none => joinWith colon (groups.map writeGroup)
  | some (start, len) =>
    joinWith colon ((groups.take start).map writeGroup) ++ [colon, colon] ++
      joinWith colon ((groups.drop (start + len)).map writeGroup)

def IpAddress.toString (a : IpAddress) : List UInt8 :=
  if a.isV4 then joinWith dot (a.used.map fun v => writeDecimal v.toNat)
  else formatV6 (groupsOf a.octets.toList)

end Cajeta.Net
