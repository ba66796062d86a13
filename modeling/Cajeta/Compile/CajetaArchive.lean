import Mathlib.Data.Nat.Digits.Defs
import Cajeta.Lib.Bytes
import Cajeta.Lib.Result
import Cajeta.Lib.Substring

/-!
# The `.cja` archive

`writeToStream` lays out a header, the manifest, the entries and a trailing index, and patches the
header once the place of the index is known. `readFromBytes` reads the manifest fields back with a
substring scanner and then one entry after another up to the index. The compression library is the
parameter `Zstd`.
-/

namespace Cajeta.Compile
open Except Substring Bytes

abbrev ByteString := List UInt8

/-- The bytes of a string literal. -/
def ascii (s : String) : ByteString := s.toList.map fun c => UInt8.ofNat c.toNat

def quote : UInt8 := 0x22

inductive Kind where
  | cja
  | uber
  deriving DecidableEq

inductive Compression where
  | none
  | zstd
  deriving DecidableEq

structure DepSummary where
  name : ByteString
  version : ByteString
  includedEntryCount : UInt32 := 0
  deriving DecidableEq

structure CajetaArchiveEntry where
  /-- Path-like, with `/` separators. -/
  name : ByteString
  originTag : UInt8 := 0
  /-- The enumeration of kinds is open: the reader casts whatever byte it finds. -/
  kindTag : UInt8 := 0
  data : ByteString
  deriving DecidableEq

structure CajetaArchive where
  name : ByteString
  version : ByteString
  kind : Kind
  entries : List CajetaArchiveEntry := []
  deps : List DepSummary := []
  sourceArchiveName : ByteString := []
  rawManifest : ByteString := []
  compression : Compression := .zstd
  compressionLevel : Int := 3

/-- What the archive uses of the zstd library. -/
structure Zstd where
  compress : (level : Int) → (src : ByteString) → Except String ByteString
  /-- The size a frame declares, `none` when it declares none or is not a frame. -/
  frameContentSize : ByteString → Option Nat
  decompress : (src : ByteString) → (capacity : Nat) → Except String ByteString

def zstdCompress (z : Zstd) (src : ByteString) (level : Int) : Except String ByteString :=
  wrap (z.compress level src) ("CajetaArchive: zstd compress failed: " ++ ·)

/-- 1 GiB. -/
def kMaxDecompressed : Nat := 2 ^ 30

/-- The size is untrusted, so it is held against the frame's own declaration and against a cap. -/
def zstdDecompress (z : Zstd) (src : ByteString) (uncompressedSize : Nat) :
    Except String ByteString := do
  require (z.frameContentSize src = some uncompressedSize ∧ uncompressedSize ≤ kMaxDecompressed)
    ("CajetaArchive: rejecting zstd section — uncompressed size undeclared, mismatched, or over " ++
      "the 1 GiB cap (malformed or hostile archive)")
  let out ← wrap (z.decompress src uncompressedSize)
    ("CajetaArchive: zstd decompress failed: " ++ ·)
  require (out.length = uncompressedSize) ("CajetaArchive: zstd decompress produced " ++
    toString out.length ++ " bytes, expected " ++ toString uncompressedSize)
  return out

/-- `std::to_string`. -/
def decimal (n : Nat) : ByteString :=
  if n = 0 then ascii "0" else (Nat.digits 10 n).reverse.map fun d => UInt8.ofNat (0x30 + d)

def isDigit (b : UInt8) : Bool := 0x30 ≤ b && b ≤ 0x39

/-- `std::stoul` in base 10: blanks, a sign, digits, and whatever follows; `none` when it throws. -/
def stoul (s : ByteString) : Option Nat :=
  let s := s.dropWhile fun b => b == 0x20 || (0x09 ≤ b && b ≤ 0x0D)
  let negative := s.head? == some 0x2D
  let s := if negative || s.head? == some 0x2B then s.tail else s
  let digits := s.takeWhile isDigit
  let v := digits.foldl (fun v b => v * 10 + (b.toNat - 0x30)) 0
  if digits = [] ∨ v ≥ 2 ^ 64 then none
  else some (if negative then (2 ^ 64 - v) % 2 ^ 64 else v)

def formatVersion : Nat := 1

def depManifest (d : DepSummary) : ByteString :=
  ascii "\x7b\"name\":\"" ++ d.name ++ ascii "\"" ++
    ascii ",\"version\":\"" ++ d.version ++ ascii "\"" ++
    ascii ",\"included_entry_count\":" ++ decimal d.includedEntryCount.toNat ++
    ascii "\x7d"

/-- The objects of the `deps` array, with commas between them. -/
def depsManifest : List DepSummary → ByteString
  | [] => []
  | [d] => depManifest d
  | d :: ds => depManifest d ++ ascii "," ++ depsManifest ds

def CajetaArchive.buildManifest (a : CajetaArchive) : ByteString :=
  ascii "\x7b" ++
    ascii "\"name\":\"" ++ a.name ++ ascii "\"" ++
    ascii ",\"version\":\"" ++ a.version ++ ascii "\"" ++
    ascii ",\"kind\":\"" ++ ascii (if a.kind = .uber then "uber" else "cja") ++ ascii "\"" ++
    ascii ",\"format_version\":" ++ decimal formatVersion ++
    ascii ",\"entry_count\":" ++ decimal a.entries.length ++
    (if a.kind = .uber ∧ a.deps ≠ [] then ascii ",\"deps\":[" ++ depsManifest a.deps ++ ascii "]"
      else []) ++
    ascii "\x7d"

/-- A string field of the manifest, or empty: whatever stands between the first `"key":"` and the
next quote. -/
def scanManifestString (m key : ByteString) : ByteString :=
  match after (quoted quote key (ascii ":\"")) m with
  | some rest => (upTo quote rest).getD []
  | none => []

def scanEntryCount (obj : ByteString) : UInt32 :=
  match after (ascii "\"included_entry_count\":") obj with
  | some rest =>
    let stop (b : UInt8) : Bool := b == 0x2C || b == 0x7D
    if rest.any stop then
      ((stoul (rest.takeWhile fun b => !stop b)).map UInt32.ofNat).getD 0
    else 0
  | none => 0

def scanDep (obj : ByteString) : DepSummary where
  name := scanManifestString obj (ascii "name")
  version := scanManifestString obj (ascii "version")
  includedEntryCount := scanEntryCount obj

/-- One object in braces after another. An object without a name is dropped. -/
def scanObjects : (fuel : Nat) → (body : ByteString) → List DepSummary
  | 0, _ => []
  | fuel + 1, body =>
    let obj := body.dropWhile (· ≠ 0x7B)
    match upTo 0x7D obj with
    | none => []
    | some inner =>
      let d := scanDep (inner ++ [0x7D])
      let rest := scanObjects fuel (obj.drop (inner.length + 1))
      if d.name ≠ [] then d :: rest else rest

/-- The `deps` array, empty when absent. -/
def scanManifestDeps (m : ByteString) : List DepSummary :=
  match (after (ascii "\"deps\":[") m).bind (upTo 0x5D) with
  | some body => scanObjects body.length body
  | none => []

def archiveMagic : ByteString := ascii "CAJETA01"

def flagManifestCompressed : Nat := 1
def flagEntriesCompressed : Nat := 2

def CajetaArchive.compressed (a : CajetaArchive) : Bool := a.compression = .zstd

def CajetaArchive.flags (a : CajetaArchive) : Nat :=
  if a.compressed then flagManifestCompressed ||| flagEntriesCompressed else 0

/-- A length-prefixed section: the bytes themselves, or a frame behind their uncompressed length. -/
def writeSection (z : Zstd) (a : CajetaArchive) (data : ByteString) : Except String ByteString :=
  if a.compressed then do
    let comp ← zstdCompress z data a.compressionLevel
    return toLE 8 (8 + comp.length) ++ (toLE 8 data.length ++ comp)
  else .ok (toLE 8 data.length ++ data)

def writeEntry (z : Zstd) (a : CajetaArchive) (e : CajetaArchiveEntry) :
    Except String ByteString := do
  let sec ← writeSection z a e.data
  return toLE 4 e.name.length ++ (e.name ++ ([e.originTag, e.kindTag, 0, 0] ++ sec))

/-- Appends the entries to `out`, noting where each starts and how long it is. -/
def writeEntries (z : Zstd) (a : CajetaArchive) (out : ByteString) :
    List CajetaArchiveEntry → Except String (ByteString × List (Nat × Nat))
  | [] => .ok (out, [])
  | e :: es => do
    let entry ← writeEntry z a e
    let (out', offsets) ← writeEntries z a (out ++ entry) es
    return (out', (out.length, entry.length) :: offsets)

def writeIndex (entries : List CajetaArchiveEntry) (offsets : List (Nat × Nat)) : ByteString :=
  toLE 4 entries.length ++ (entries.zip offsets).flatMap fun (e, offset, size) =>
    toLE 4 e.name.length ++ e.name ++ toLE 8 offset ++ toLE 8 size

def CajetaArchive.writeToStream (z : Zstd) (a : CajetaArchive) : Except String ByteString := do
  -- The place and the length of the index are not known yet.
  let header := archiveMagic ++ toLE 4 formatVersion ++ toLE 4 a.flags ++ toLE 8 0 ++ toLE 8 0
  let manifest ← writeSection z a a.buildManifest
  let (out, offsets) ← writeEntries z a (header ++ manifest) a.entries
  let index := writeIndex a.entries offsets
  return patch (out ++ index) 16 (toLE 8 out.length ++ toLE 8 index.length)

/-- The section of `onDisk` bytes at `cursor`. -/
def readSection (z : Zstd) (bytes : ByteString) (compressed : Bool) (cursor onDisk : Nat)
    (tooShort : String) : Except String ByteString :=
  if compressed then do
    require (8 ≤ onDisk) tooShort
    zstdDecompress z (slice bytes (cursor + 8) (onDisk - 8)) (readLE 8 bytes cursor)
  else .ok (slice bytes cursor onDisk)

/-- One entry, and the position after it. -/
def readEntry (z : Zstd) (bytes : ByteString) (compressed : Bool) (path : String) (cursor : Nat) :
    Except String (CajetaArchiveEntry × Nat) := do
  require (4 ≤ bytes.length - cursor) ("CajetaArchive: " ++ path ++ " truncated entry name length")
  let nameLen := readLE 4 bytes cursor
  let cursor := cursor + 4
  require (nameLen ≤ bytes.length - cursor) ("CajetaArchive: " ++ path ++ " truncated entry name")
  let name := slice bytes cursor nameLen
  let cursor := cursor + nameLen
  require (12 ≤ bytes.length - cursor) ("CajetaArchive: " ++ path ++ " truncated entry header")
  let originTag := bytes.getD cursor 0
  let kindTag := bytes.getD (cursor + 1) 0
  -- Two reserved bytes are skipped.
  let cursor := cursor + 4
  let dataOnDisk := readLE 8 bytes cursor
  let cursor := cursor + 8
  require (dataOnDisk ≤ bytes.length - cursor)
    ("CajetaArchive: " ++ path ++ " truncated entry data")
  let data ← readSection z bytes compressed cursor dataOnDisk
    ("CajetaArchive: " ++ path ++ " compressed entry too short")
  return ({ name, originTag, kindTag, data }, cursor + dataOnDisk)

/-- The entries up to `entriesEnd`. An entry takes 16 bytes at least, so the length of the file is
fuel enough. -/
def readEntries (z : Zstd) (bytes : ByteString) (compressed : Bool) (path : String)
    (entriesEnd : Nat) : (fuel cursor : Nat) → Except String (List CajetaArchiveEntry)
  | 0, _ => .ok []
  | fuel + 1, cursor =>
    if cursor < entriesEnd then do
      let (entry, cursor) ← readEntry z bytes compressed path cursor
      let entries ← readEntries z bytes compressed path entriesEnd fuel cursor
      return entry :: entries
    else .ok []

def readFromBytes (z : Zstd) (bytes : ByteString) (path : String) :
    Except String CajetaArchive := do
  require (32 ≤ bytes.length) ("CajetaArchive: " ++ path ++ " is too short to be a .cja file")
  require (slice bytes 0 8 = archiveMagic)
    ("CajetaArchive: " ++ path ++ " bad magic (expected CAJETA01)")
  let version := readLE 4 bytes 8
  let flags := readLE 4 bytes 12
  let indexOff := readLE 8 bytes 16
  require (version = 1)
    ("CajetaArchive: " ++ path ++ " unsupported format version " ++ toString version)
  require (flags ≤ (flagManifestCompressed ||| flagEntriesCompressed))
    ("CajetaArchive: " ++ path ++ " uses unknown flags=0x" ++ toString flags)
  let manifestCompressed := flags.testBit 0
  let entriesCompressed := flags.testBit 1
  require (40 ≤ bytes.length) ("CajetaArchive: " ++ path ++ " truncated at manifest")
  let manifestOnDisk := readLE 8 bytes 32
  require (manifestOnDisk ≤ bytes.length - 40)
    ("CajetaArchive: " ++ path ++ " manifest length out of range")
  let manifest ← readSection z bytes manifestCompressed 40 manifestOnDisk
    ("CajetaArchive: " ++ path ++ " compressed manifest too short")
  -- Entries end at the trailing index, or at the end of a file that has none.
  let entriesEnd := if indexOff ≠ 0 then indexOff else bytes.length
  require (entriesEnd ≤ bytes.length) ("CajetaArchive: " ++ path ++ " index_offset past EOF")
  let name := scanManifestString manifest (ascii "name")
  let kind := if scanManifestString manifest (ascii "kind") = ascii "uber" then Kind.uber else .cja
  let entries ← readEntries z bytes entriesCompressed path entriesEnd bytes.length
    (40 + manifestOnDisk)
  return { name, version := scanManifestString manifest (ascii "version"), kind, entries,
           deps := if kind = .uber then scanManifestDeps manifest else [],
           sourceArchiveName := name, rawManifest := manifest }

end Cajeta.Compile
