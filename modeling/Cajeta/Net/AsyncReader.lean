import Cajeta.Lib.Cells
import Cajeta.Lib.Ring
import Cajeta.Lib.Transition
import Cajeta.Lib.Bytes

/-!
# The buffered reader

A ring holds the bytes that a socket read brought and no caller has taken yet. The reader takes
from the ring and goes to the socket only when the ring is empty. How many bytes a socket read
brings is up to the network.
-/

namespace Cajeta.Net

structure RingBuffer where
  data : List UInt8
  cap : Nat
  head : Nat
  tail : Nat
  size : Nat

namespace RingBuffer

def make (capacity : Nat) : RingBuffer := ⟨List.replicate capacity 0, capacity, 0, 0, 0⟩

def free (r : RingBuffer) : Nat := r.cap - r.size

/-- The index behind `i`, round the end. -/
def next (r : RingBuffer) (i : Nat) : Nat := if i + 1 = r.cap then 0 else i + 1

/-- The loop of `write` with `left` bytes to go, `none` if it leaves an array. -/
def writeFrom (r : RingBuffer) (src : List UInt8) (off : Nat) : (left : Nat) → Option RingBuffer
  | 0 => some r
  | left + 1 => do
    let b ← src[off]?
    if r.tail < r.data.length then
      writeFrom { r with data := r.data.set r.tail b, tail := r.next r.tail } src (off + 1) left
    else none

def write (r : RingBuffer) (src : List UInt8) (srcOff len : Nat) : Option (Nat × RingBuffer) := do
  let n := min len (r.cap - r.size)
  let r ← r.writeFrom src srcOff n
  return (n, { r with size := r.size + n })

/-- The loop of `read` with `left` bytes to go, behind the bytes that were copied out. -/
def readFrom (r : RingBuffer) (out : List UInt8) : (left : Nat) → Option (List UInt8 × RingBuffer)
  | 0 => some (out, r)
  | left + 1 => do
    let b ← r.data[r.head]?
    readFrom { r with head := r.next r.head } (out ++ [b]) left

def read (r : RingBuffer) (len : Nat) : Option (List UInt8 × RingBuffer) := do
  let n := min len r.size
  let (out, r) ← r.readFrom [] n
  return (out, { r with size := r.size - n })

end RingBuffer

/-- What the peer still sends, and into how large reads the network cuts it. -/
structure ByteChannel where
  rest : List UInt8
  cuts : Nat → Nat
  reads : Nat

/-- At least one byte and at most `want`, nothing only at the end. -/
def ByteChannel.readAsync (s : ByteChannel) (want : Nat) : List UInt8 × ByteChannel :=
  let n := min (s.cuts s.reads + 1) want
  (s.rest.take n, { s with rest := s.rest.drop n, reads := s.reads + 1 })

/-! ## The reader -/

structure AsyncReader where
  stream : ByteChannel
  buf : RingBuffer
  /-- What a socket read fills before the bytes go to the ring. -/
  fill : List UInt8
  cap : Nat
  eof : Bool
  chunkSize : Nat

inductive Call where
  | read (length : Int)
  | readExact (length : Int)
  | readUntil (delimiter : UInt8) (maxBytes : Int)
  | next

/-- The bytes that a call delivers, and how it ends. -/
inductive Answer where
  | bytes (out : List UInt8)
  /-- `readExact` raises, after what was there was copied. -/
  | raised (out : List UInt8)
  | chunk (piece : Option (List UInt8))

namespace AsyncReader

def make (stream : ByteChannel) (capacity : Int) : AsyncReader :=
  let c := if capacity < 1 then 1 else capacity.toNat
  ⟨stream, .make c, List.replicate c 0, c, false, c⟩

def fillFromSocket (r : AsyncReader) : Option (Nat × AsyncReader) :=
  if r.eof then some (0, r)
  else
    let room := r.buf.free
    if room = 0 then some (0, r)
    else
      let want := if room > r.cap then r.cap else room
      let (got, stream) := r.stream.readAsync want
      let r := { r with stream, fill := Bytes.patch r.fill 0 got }
      if got.length = 0 then some (0, { r with eof := true })
      else do
        let (_, buf) ← r.buf.write r.fill 0 got.length
        return (got.length, { r with buf })

/-- `read` goes to the socket if nothing is staged. -/
def refill (r : AsyncReader) : Option AsyncReader :=
  if r.buf.size = 0 then r.fillFromSocket.map (·.2) else some r

def read (r : AsyncReader) (length : Int) : Option (List UInt8 × AsyncReader) :=
  if length ≤ 0 then some ([], r)
  else do
    let r ← r.refill
    if r.buf.size = 0 then some ([], r)
    else
      let (out, buf) ← r.buf.read length.toNat
      return (out, { r with buf })

/-- The loop of `readExact` behind the bytes that were copied. -/
def readExactFrom (length : Int) : (fuel : Nat) → AsyncReader → (out : List UInt8) →
    Option (Answer × AsyncReader)
  | 0, _, _ => none
  | fuel + 1, r, out =>
    if out.length < length then do
      let (got, r) ← r.read (length - out.length)
      if got.length = 0 then some (.raised out, r)
      else readExactFrom length fuel r (out ++ got)
    else some (.bytes out, r)

def readExact (r : AsyncReader) (length : Int) : Option (Answer × AsyncReader) :=
  readExactFrom length (length.toNat + 1) r []

/-- The array is doubled when it is full; an array of a negative length ends the program. -/
def grow (accLen : Nat) (accCap : Int) : Option Int :=
  if accLen ≥ accCap then
    let newCap := Cells.i32 (accCap * 2)
    if newCap < 0 then none else some newCap
  else some accCap

/-- The loop of `readUntil` with the bytes `acc` in an array of `accCap`. -/
def readUntilFrom (delimiter : UInt8) (maxBytes : Int) : (fuel : Nat) → AsyncReader →
    (acc : List UInt8) → (accCap : Int) → Option (Answer × AsyncReader)
  | 0, _, _, _ => none
  | fuel + 1, r, acc, accCap => do
    let (one, r) ← r.read 1
    match one[0]? with
    | none => some (.bytes acc, r)
    | some b =>
      let accCap ← grow acc.length accCap
      if acc.length < accCap then
        let acc := acc ++ [b]
        if b = delimiter then some (.bytes acc, r)
        else if 0 < maxBytes ∧ maxBytes ≤ acc.length then some (.bytes acc, r)
        else readUntilFrom delimiter maxBytes fuel r acc accCap
      else none

/-- What the peer sent and no caller has taken yet. -/
def rest (r : AsyncReader) : List UInt8 :=
  Ring.items r.buf.data r.buf.head r.buf.size ++ r.stream.rest

def readUntil (r : AsyncReader) (delimiter : UInt8) (maxBytes : Int) :
    Option (Answer × AsyncReader) :=
  readUntilFrom delimiter maxBytes (r.rest.length + 1) r [] 64

def next (r : AsyncReader) : Option (Answer × AsyncReader) := do
  let (got, r) ← r.read r.chunkSize
  if got.length = 0 then return (.chunk none, r)
  else return (.chunk (some got), r)

/-- `none` if the call reads or writes outside of an array, or ends the program. -/
def exec (r : AsyncReader) : Call → Option (Answer × AsyncReader)
  | .read length => (r.read length).map fun (out, r) => (.bytes out, r)
  | .readExact length => r.readExact length
  | .readUntil delimiter maxBytes => r.readUntil delimiter maxBytes
  | .next => r.next

/-- A call that returns or raises. -/
def Step (r : AsyncReader) (label : Call × Answer) (r' : AsyncReader) : Prop :=
  r.exec label.1 = some (label.2, r')

end AsyncReader

end Cajeta.Net
