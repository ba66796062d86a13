import Cajeta.Lib.BitMask
import Cajeta.Lib.Slots
import Mathlib.Data.Int.Init

/-!
# CSV

The writer, the structural index and the reader. Counts and positions that the code keeps in an
`int32` are wrapped where they are stored; an access outside an array ends the program.
-/

namespace Cajeta.Codec.Csv

/-- The conversion to `int32`. -/
def int32 (x : Int) : Int := x.bmod (2 ^ 32)

def comma : UInt8 := 44
def quote : UInt8 := 34
def newline : UInt8 := 10
def carriageReturn : UInt8 := 13

structure CsvWriter where
  buf : List UInt8
  len : Nat
  atRowStart : Bool

namespace CsvWriter

def new : CsvWriter := ⟨List.replicate 64 0, 0, true⟩

/-- The loop `while (newCap < need) { newCap = newCap * 2; }`, which need not end. -/
def growCap : (fuel : Nat) → (newCap need : Int) → Option Int
  | 0, _, _ => none
  | fuel + 1, newCap, need =>
    if newCap < need then growCap fuel (int32 (newCap * 2)) need else some newCap

def ensure (fuel : Nat) (w : CsvWriter) (extra : Nat) : Option CsvWriter :=
  let need := int32 (w.len + extra)
  let cap := int32 w.buf.length
  if need ≤ cap then some w
  else do
    let newCap ← growCap fuel (int32 (cap * 2)) need
    return { w with buf := w.buf.take w.len ++ List.replicate (newCap.toNat - w.len) 0 }

def put (fuel : Nat) (w : CsvWriter) (c : UInt8) : Option CsvWriter := do
  let w ← w.ensure fuel 1
  let buf ← Slots.store w.buf w.len c
  return { w with buf, len := w.len + 1 }

def putAll (fuel : Nat) (w : CsvWriter) (cs : List UInt8) : Option CsvWriter :=
  cs.foldlM (put fuel) w

/-- The field has to be quoted. -/
def needsQuote (value : List UInt8) : Bool :=
  value.any fun c => c = comma || c = quote || c = newline || c = carriageReturn

def escape (c : UInt8) : List UInt8 := if c = quote then [quote, quote] else [c]

/-- What the loops up to `vn = (int32) value.count()` read of a field. -/
def readOf (value : List UInt8) : List UInt8 := value.take (int32 value.length).toNat

def writeField (fuel : Nat) (w : CsvWriter) (value : List UInt8) : Option CsvWriter := do
  let w ← if w.atRowStart then some w else w.put fuel comma
  let w := { w with atRowStart := false }
  let value := readOf value
  if needsQuote value then
    let w ← w.put fuel quote
    let w ← w.putAll fuel (value.flatMap escape)
    w.put fuel quote
  else w.putAll fuel value

def endRow (fuel : Nat) (w : CsvWriter) : Option CsvWriter := do
  let w ← w.put fuel newline
  return { w with atRowStart := true }

def toBytes (w : CsvWriter) : List UInt8 := w.buf.take w.len

/-- The program of the round trip: `writeField` for each field of a row, then `endRow`. -/
def writeRow (fuel : Nat) (w : CsvWriter) (row : List (List UInt8)) : Option CsvWriter := do
  let w ← row.foldlM (writeField fuel) w
  w.endRow fuel

def writeRows (fuel : Nat) (rows : List (List (List UInt8))) : Option CsvWriter :=
  rows.foldlM (writeRow fuel) new

end CsvWriter

/-- The array that an access falls outside of. -/
inductive CsvFault where
  | text
  | index
  | span
  | size
deriving DecidableEq

/-- `b[i]`. -/
def byteAt (b : List UInt8) (i : Int) : Except CsvFault UInt8 :=
  if i < 0 then throw .text
  else
    match b[i.toNat]? with
    | some c => return c
    | none => throw .text

/-- `a[n] = x; n = n + 1;` on an array whose first entries, as many as the `int32` count `n` says,
have been stored so. -/
def append (fault : CsvFault) (cap : Nat) (xs : List α) (x : α) : Except CsvFault (List α) :=
  if 0 ≤ int32 xs.length ∧ int32 xs.length < cap then return xs ++ [x] else throw fault

namespace CsvIndex

/-- `vload16` and `eqMask`. -/
def eqMask (v : List UInt8) (c : UInt8) : Nat := BitMask.ofPred 16 fun i => v[i]? = some c

/-- The structural bytes of a block, and whether a quoted field goes on behind it. -/
def scanBlock (inq : Bool) (v : List UInt8) : Nat × Bool :=
  let qm := eqMask v quote
  let cm := eqMask v comma
  let nm := eqMask v newline
  let carry := if inq then 65535 else 0
  let pf := BitMask.prefixXor16 qm &&& 65535
  let inStr := (carry ^^^ (pf <<< 1)) &&& 65535
  -- `& ~inStr & 65535`
  let sig := (cm ||| nm) &&& (65535 ^^^ inStr)
  let par := (pf >>> 15) &&& 1
  (sig, ((carry &&& 1) ^^^ par) &&& 1 ≠ 0)

def appendAll (cap : Nat) (idx : List Int) (positions : List Int) : Except CsvFault (List Int) :=
  positions.foldlM (append .index cap) idx

/-- The loop over whole blocks, from `p` on. -/
def buildBlocks (b : List UInt8) (cap : Nat) (inq : Bool) (p : Nat) (idx : List Int) :
    (blocks : Nat) → Except CsvFault (List Int × Bool)
  | 0 => return (idx, inq)
  | blocks + 1 => do
    let (sig, inq') := scanBlock inq ((b.drop p).take 16)
    let idx ← appendAll cap idx ((BitMask.toList 16 16 sig).map fun i => int32 (p + i : Nat))
    buildBlocks b cap inq' (p + 16) idx blocks

def tailAppend (b : List UInt8) (cap : Nat) (inq : Bool) (idx : List Int) (i : Nat) :
    (rem : Nat) → Except CsvFault (List Int)
  | 0 => return idx
  | rem + 1 => do
    let c ← byteAt b i
    if c = quote then tailAppend b cap (!inq) idx (i + 1) rem
    else if !inq && (c = comma || c = newline) then
      let idx ← append .index cap idx (int32 i)
      tailAppend b cap inq idx (i + 1) rem
    else tailAppend b cap inq idx (i + 1) rem

def build (b : List UInt8) (cap : Nat) : Except CsvFault (List Int) := do
  let blocks := b.length / 16
  let (idx, inq) ← buildBlocks b cap false 0 [] blocks
  tailAppend b cap inq idx (16 * blocks) (b.length % 16)

end CsvIndex

/-! ## The reader -/

structure CsvReader where
  buf : List UInt8
  /-- What is in use of the index; the reader's `cnt` is its length as an `int32`. -/
  idx : List Int
  di : Nat
  pos : Int
  /-- What is in use of `fStart` and `fEnd`. -/
  spans : List (Int × Int)

namespace CsvReader

/-- The length of the index and of the arrays of spans. -/
def cap (b : List UInt8) : Nat := b.length + 16

def new (b : List UInt8) : Except CsvFault CsvReader := do
  let idx ← CsvIndex.build b (cap b)
  return ⟨b, idx, 0, 0, []⟩

def cnt (r : CsvReader) : Int := int32 r.idx.length

/-- The end of a field before the delimiter at `dpos`: a carriage return before a newline is not
part of it. -/
def fieldEnd (r : CsvReader) (fieldStart dpos : Int) (dc : UInt8) : Except CsvFault Int :=
  if dc = newline ∧ fieldStart < dpos then do
    let c ← byteAt r.buf (dpos - 1)
    return if c = carriageReturn then dpos - 1 else dpos
  else return dpos

/-- The loop over the fields of a row; `rem` is how many entries of the index are left. -/
def rowLoop (r : CsvReader) (di : Nat) (fieldStart : Int) (spans : List (Int × Int)) :
    (rem : Nat) → Except CsvFault CsvReader
  | 0 => do
    let spans ← append .span (cap r.buf) spans (fieldStart, (r.buf.length : Int))
    return { r with di, pos := r.buf.length, spans }
  | rem + 1 =>
    match r.idx[di]? with
    | none => throw .index
    | some dpos => do
      let dc ← byteAt r.buf dpos
      let fend ← r.fieldEnd fieldStart dpos dc
      let spans ← append .span (cap r.buf) spans (fieldStart, fend)
      if dc = newline then return { r with di := di + 1, pos := dpos + 1, spans }
      else rowLoop r (di + 1) (dpos + 1) spans rem

/-- Whether there is another row, and the reader behind it. -/
def nextRow (r : CsvReader) : Except CsvFault (Bool × CsvReader) :=
  if r.cnt ≤ r.di ∧ (r.buf.length : Int) ≤ r.pos then return (false, r)
  else do
    let r ← r.rowLoop r.di r.pos [] (r.cnt - r.di).toNat
    return (true, r)

/-- `b[s..e)`, byte by byte. -/
def readRange (b : List UInt8) (s e : Int) : Except CsvFault (List UInt8) :=
  (List.range (e - s).toNat).mapM fun k : Nat => byteAt b (s + k)

/-- Collapses doubled quotes. -/
def unquote : List UInt8 → List UInt8
  | [] => []
  | [c] => [c]
  | c :: d :: cs => if c = quote ∧ d = quote then quote :: unquote cs else c :: unquote (d :: cs)

def quoted (b : List UInt8) (s e : Int) : Except CsvFault Bool :=
  if 2 ≤ e - s then do
    let first ← byteAt b s
    let last ← byteAt b (e - 1)
    return first = quote && last = quote
  else return false

def field (r : CsvReader) (i : Nat) : Except CsvFault (List UInt8) :=
  match r.spans[i]? with
  | none => throw .span
  | some (s, e) => do
    if ← quoted r.buf s e then
      let bytes ← readRange r.buf (s + 1) (e - 1)
      return unquote bytes
    else if int32 (e - s) < 0 then throw .size
    else readRange r.buf s (s + int32 (e - s))

def fields (r : CsvReader) : Except CsvFault (List (List UInt8)) :=
  (List.range r.spans.length).mapM r.field

/-- The program of the round trip: all rows up to the end of input. -/
def readRows : (fuel : Nat) → CsvReader → Except CsvFault (Option (List (List (List UInt8))))
  | 0, _ => return none
  | fuel + 1, r => do
    let (more, r) ← r.nextRow
    if more then
      let row ← r.fields
      let rows ← readRows fuel r
      return rows.map (row :: ·)
    else return some []

end CsvReader

end Cajeta.Codec.Csv
