import Cajeta.Compile.CajetaArchive

/-!
# Tar archives

The writer lays out one ustar header and the padded bytes of each entry, and two blocks of zeros at
the end. The reader takes one entry after another until it meets a block of zeros. The compression
library is the parameter `Codec`.
-/

namespace Cajeta.Buildtool.Tar

open Bytes Compile

structure TarEntry where
  name : ByteString
  data : ByteString
  deriving DecidableEq

/-- Why the work on an archive ends early: with an error of its own, with an access outside of the
input, or out of fuel. -/
inductive TarFault where
  | raised (message : ByteString)
  | outside
  | outOfFuel
  deriving DecidableEq

abbrev TarM := Except TarFault

def kBlock : Nat := 512

def kMaxName : Nat := 100

def padToBlock (out : ByteString) : ByteString :=
  if out.length % kBlock ≠ 0 then out ++ List.replicate (kBlock - out.length % kBlock) 0 else out

/-- `%0*llo`: the octal digits, at least `width` of them. -/
def octalText (width value : Nat) : ByteString :=
  let digits := (Nat.digits 8 value).reverse.map fun d => UInt8.ofNat (0x30 + d)
  List.replicate (width - digits.length) 0x30 ++ digits

/-- Writes `value` into a field of fixed width, whose last byte stays NUL. -/
def writeOctal (hdr : ByteString) (pos width value : Nat) : ByteString :=
  patch hdr pos ((octalText (width - 1) value).take (width - 1) ++ [0])

/-- All bytes of the header are summed, the checksum itself read as spaces. -/
def headerChecksum (hdr : ByteString) : Nat :=
  (hdr.zipIdx.map fun b => if 148 ≤ b.2 ∧ b.2 < 156 then 0x20 else b.1.toNat).sum

/-- The header of a regular file. -/
def header (name : ByteString) (size : Nat) : ByteString :=
  let hdr := patch (List.replicate kBlock 0) 0 name
  let hdr := writeOctal hdr 100 8 0o644
  let hdr := writeOctal hdr 108 8 0
  let hdr := writeOctal hdr 116 8 0
  let hdr := writeOctal hdr 124 12 size
  let hdr := writeOctal hdr 136 12 0
  let hdr := patch hdr 156 [0x30]
  let hdr := patch hdr 257 (ascii "ustar")
  let hdr := patch hdr 262 [0]
  let hdr := patch hdr 263 [0x30]
  let hdr := patch hdr 264 [0x30]
  let hdr := patch hdr 148 (List.replicate 8 0x20)
  let hdr := writeOctal hdr 148 7 (headerChecksum hdr)
  patch hdr 155 [0x20]

def nameError (name : ByteString) : ByteString :=
  ascii "tar: name out of range (1.." ++ decimal (kMaxName - 1) ++ ascii " bytes): '" ++ name ++
    ascii "'"

def appendHeader (out name : ByteString) (size : Nat) : TarM ByteString :=
  if name = [] ∨ kMaxName ≤ name.length then .error (.raised (nameError name))
  else return out ++ header name size

def appendEntry (out : ByteString) (e : TarEntry) : TarM ByteString := do
  let out ← appendHeader out e.name e.data.length
  return padToBlock (out ++ e.data)

def writeTar (entries : List TarEntry) : TarM ByteString := do
  let tar ← entries.foldlM appendEntry []
  return tar ++ List.replicate (2 * kBlock) 0

/-- Addition of `size_t`. -/
def sizeAdd (a b : Nat) : Nat := (a + b) % 2 ^ 64

/-- The `len` bytes at `pos`. -/
def bytesAt (tar : ByteString) (pos len : Nat) : TarM ByteString :=
  if pos + len ≤ tar.length then .ok (slice tar pos len) else .error .outside

/-- A field that ends at a NUL or a space. Other characters than octal digits are passed over. -/
def parseOctal (v : Nat) : ByteString → Nat
  | [] => v
  | c :: cs =>
    if c = 0 ∨ c = 0x20 then v
    else if 0x30 ≤ c ∧ c ≤ 0x37 then parseOctal (v * 8 + (c.toNat - 0x30)) cs
    else parseOctal v cs

def sizeError (name : ByteString) (size : Nat) : ByteString :=
  ascii "tar: entry '" ++ name ++ ascii "' size " ++ decimal size ++
    ascii " runs past end of archive"

/-- The entry at `pos`, and the position after it. -/
def readEntry (tar hdr : ByteString) (pos : Nat) : TarM (TarEntry × Nat) := do
  let name := (hdr.take kMaxName).takeWhile (· ≠ 0)
  let size := parseOctal 0 (slice hdr 124 12)
  let pos := sizeAdd pos kBlock
  if sizeAdd pos size > tar.length then .error (.raised (sizeError name size))
  else do
    let data ← bytesAt tar pos size
    let pos := sizeAdd pos size
    let rem := size % kBlock
    return ({ name, data }, if rem ≠ 0 then sizeAdd pos (kBlock - rem) else pos)

/-- The entries from `pos` on. Each takes a block at least. -/
def readEntries (tar : ByteString) : (fuel pos : Nat) → TarM (List TarEntry)
  | 0, pos => if sizeAdd pos kBlock ≤ tar.length then .error .outOfFuel else .ok []
  | fuel + 1, pos =>
    if sizeAdd pos kBlock ≤ tar.length then do
      let hdr ← bytesAt tar pos kBlock
      if hdr.all (· = 0) then return []
      else do
        let (e, pos) ← readEntry tar hdr pos
        let entries ← readEntries tar fuel pos
        return e :: entries
    else .ok []

def readTar (tar : ByteString) : TarM (List TarEntry) := readEntries tar tar.length 0

inductive FrameSize where
  | invalid
  | unknown
  | known (size : Nat)

inductive Decompressed where
  | ok (bytes : ByteString)
  | tooSmall
  | failed (name : ByteString)

/-- What the archive uses of the zstd library. -/
structure Codec where
  compress : (src : ByteString) → (level : Nat) → Except ByteString ByteString
  frameContentSize : ByteString → FrameSize
  decompress : (src : ByteString) → (capacity : Nat) → Decompressed

def decompressError (name : ByteString) : TarFault :=
  .raised (ascii "zstd: decompress failed: " ++ name)

/-- The buffer is doubled until it is large enough, at most as often as `size_t` has bits. -/
def decompressGrowing (z : Codec) (src : ByteString) : (fuel capacity : Nat) → TarM ByteString
  | 0, _ => .error .outOfFuel
  | fuel + 1, capacity =>
    match z.decompress src capacity with
    | .ok bytes => .ok bytes
    | .tooSmall => decompressGrowing z src fuel (capacity * 2)
    | .failed name => .error (decompressError name)

def decompressFrame (z : Codec) (src : ByteString) : TarM ByteString :=
  match z.frameContentSize src with
  | .invalid => .error (.raised (ascii "zstd: input is not a valid zstd frame"))
  | .unknown => decompressGrowing z src 64 (src.length * 4 + 4096)
  | .known size =>
    match z.decompress src size with
    | .ok bytes => .ok bytes
    | .tooSmall => .error (decompressError (ascii "Destination buffer is too small"))
    | .failed name => .error (decompressError name)

def writeTarZstd (z : Codec) (entries : List TarEntry) : TarM ByteString := do
  let tar ← writeTar entries
  (z.compress tar 3).mapError fun name => .raised (ascii "zstd: compress failed: " ++ name)

def readTarZstd (z : Codec) (zstdBytes : ByteString) : TarM (List TarEntry) := do
  readTar (← decompressFrame z zstdBytes)

/-!
## Tar round trips

An archive that has been written is read back to the same entries, and the reader neither leaves its
input nor runs forever on any input.
-/

theorem parseOctal_digit (v : Nat) (hd : d < 8) (cs : ByteString) :
    parseOctal v (UInt8.ofNat (0x30 + d) :: cs) = parseOctal (v * 8 + d) cs := by
  have h : ∀ d < 8, ¬(UInt8.ofNat (0x30 + d) = 0 ∨ UInt8.ofNat (0x30 + d) = 0x20) ∧
      (0x30 ≤ UInt8.ofNat (0x30 + d) ∧ UInt8.ofNat (0x30 + d) ≤ 0x37) ∧
      (UInt8.ofNat (0x30 + d)).toNat - 0x30 = d := by decide
  obtain ⟨hstop, hdigit, hvalue⟩ := h d hd
  rw [parseOctal, if_neg hstop, if_pos hdigit, hvalue]

theorem parseOctal_digits (v : Nat) (digits : List Nat) (hdigits : ∀ d ∈ digits, d < 8)
    (cs : ByteString) :
    parseOctal v ((digits.reverse.map fun d => UInt8.ofNat (0x30 + d)) ++ cs) =
      parseOctal (v * 8 ^ digits.length + Nat.ofDigits 8 digits) cs := by
  induction digits generalizing cs with
  | nil => simp
  | cons d digits ih =>
    rw [List.reverse_cons, List.map_append, List.append_assoc,
      ih (fun d hd => hdigits d (List.mem_cons_of_mem _ hd)), List.map_singleton,
      List.singleton_append, parseOctal_digit _ (hdigits d List.mem_cons_self), Nat.ofDigits_cons,
      List.length_cons]
    congr 1
    ring

theorem parseOctal_zeros (n : Nat) (cs : ByteString) :
    parseOctal 0 (List.replicate n 0x30 ++ cs) = parseOctal 0 cs := by
  induction n with
  | zero => rfl
  | succ n ih =>
    rw [List.replicate_succ, List.cons_append]
    exact (parseOctal_digit 0 (show 0 < 8 by decide) _).trans ih

theorem parseOctal_octalText (width value : Nat) (rest : ByteString) :
    parseOctal 0 (octalText width value ++ 0 :: rest) = value := by
  unfold octalText
  dsimp only
  rw [List.append_assoc, parseOctal_zeros,
    parseOctal_digits _ _ (fun d hd => Nat.digits_lt_base (by decide) hd), Nat.ofDigits_digits,
    Nat.zero_mul, Nat.zero_add, parseOctal, if_pos (.inl rfl)]

theorem length_octalText (h : value < 8 ^ width) : (octalText width value).length = width := by
  have hlength : (Nat.digits 8 value).length ≤ width :=
    (Nat.digits_length_le_iff (by decide) value).mpr h
  unfold octalText
  simp only [List.length_append, List.length_replicate, List.length_map, List.length_reverse]
  omega

theorem parseOctal_lt (v : Nat) (cs : ByteString) :
    parseOctal v cs < (v + 1) * 8 ^ cs.length := by
  induction cs generalizing v with
  | nil => simp [parseOctal]
  | cons c cs ih =>
    have hmore : (v + 1) * 8 ^ cs.length ≤ (v + 1) * 8 ^ (c :: cs).length :=
      Nat.mul_le_mul_left _ (Nat.pow_le_pow_right (by decide) (by simp))
    rw [parseOctal]
    split
    · have hone : 1 ≤ 8 ^ (c :: cs).length := Nat.one_le_pow _ _ (by decide)
      nlinarith
    split
    · next hdigit =>
      have hc : c.toNat - 0x30 < 8 := by
        have h := UInt8.le_iff_toNat_le.mp hdigit.2
        change c.toNat ≤ 0x37 at h
        omega
      have hstep : (v * 8 + (c.toNat - 0x30) + 1) * 8 ^ cs.length ≤
          (v + 1) * 8 * 8 ^ cs.length := Nat.mul_le_mul_right _ (by omega)
      have h := ih (v * 8 + (c.toNat - 0x30))
      rw [List.length_cons, Nat.pow_succ]
      calc _ < _ := h
        _ ≤ _ := hstep
        _ = _ := by ring
    · exact (ih v).trans_le hmore

/-! ## The header -/

/-- A header that has been written to from `o` on only. -/
structure KeepsBelow (o : Nat) (hdr hdr' : ByteString) : Prop where
  block : hdr.length = kBlock
  length : hdr'.length = hdr.length
  below : ∀ pos n, pos + n ≤ o → slice hdr' pos n = slice hdr pos n

theorem KeepsBelow.refl (hblock : hdr.length = kBlock) : KeepsBelow o hdr hdr :=
  ⟨hblock, rfl, fun _ _ _ => rfl⟩

theorem KeepsBelow.patch (h : KeepsBelow o hdr hdr') (pos : Nat) (part : ByteString)
    (hpos : o ≤ pos) (hend : pos + part.length ≤ kBlock) :
    KeepsBelow o hdr (patch hdr' pos part) := by
  have hlength : hdr'.length = kBlock := h.length.trans h.block
  refine ⟨h.block, (length_patch _ (by omega)).trans h.length, fun p n hp => ?_⟩
  rw [slice_patch_left _ _ (by omega) (by omega), h.below p n hp]

theorem KeepsBelow.writeOctal (h : KeepsBelow o hdr hdr') (pos width value : Nat) (hpos : o ≤ pos)
    (hwidth : 0 < width) (hend : pos + width ≤ kBlock) :
    KeepsBelow o hdr (writeOctal hdr' pos width value) := by
  refine h.patch pos _ hpos ?_
  rw [List.length_append, List.length_take, List.length_singleton]
  omega

section Header

variable {name : ByteString}

/-- The header with nothing but the name. -/
def nameBlock (name : ByteString) : ByteString := patch (List.replicate kBlock 0) 0 name

/-- The header up to the size. -/
def ownerBlock (name : ByteString) : ByteString :=
  writeOctal (writeOctal (writeOctal (nameBlock name) 100 8 0o644) 108 8 0) 116 8 0

def sizeBlock (name : ByteString) (size : Nat) : ByteString :=
  writeOctal (ownerBlock name) 124 12 size

theorem nameBlock_eq (name : ByteString) :
    nameBlock name = name ++ List.replicate (kBlock - name.length) 0 := by
  rw [nameBlock, patch, List.take_zero, List.nil_append, Nat.zero_add, List.drop_replicate]

theorem length_nameBlock (hname : name.length < kMaxName) : (nameBlock name).length = kBlock := by
  rw [nameBlock_eq, List.length_append, List.length_replicate]
  unfold kBlock kMaxName at *
  omega

theorem ownerBlock_keeps (hname : name.length < kMaxName) :
    KeepsBelow 100 (nameBlock name) (ownerBlock name) :=
  (((KeepsBelow.refl (length_nameBlock hname)).writeOctal 100 8 0o644 (by decide) (by decide)
    (by decide)).writeOctal 108 8 0 (by decide) (by decide) (by decide)).writeOctal 116 8 0
    (by decide) (by decide) (by decide)

theorem nameBlock_keeps (hname : name.length < kMaxName) (size : Nat) :
    KeepsBelow 100 (nameBlock name) (sizeBlock name size) :=
  (ownerBlock_keeps hname).writeOctal 124 12 size (by decide) (by decide) (by decide)

theorem sizeBlock_keeps (hname : name.length < kMaxName) (size : Nat) :
    KeepsBelow 136 (sizeBlock name size) (header name size) := by
  have hblock : (sizeBlock name size).length = kBlock :=
    (nameBlock_keeps hname size).length.trans (length_nameBlock hname)
  have hmtime := (KeepsBelow.refl hblock).writeOctal 136 12 0 le_rfl (by decide) (by decide)
  have htype := hmtime.patch 156 [0x30] (by decide) (by decide)
  have hmagic := htype.patch 257 (ascii "ustar") (by decide) (by decide)
  have hversion := ((hmagic.patch 262 [0] (by decide) (by decide)).patch 263 [0x30] (by decide)
    (by decide)).patch 264 [0x30] (by decide) (by decide)
  have hspaces := hversion.patch 148 (List.replicate 8 0x20) (by decide) (by decide)
  exact (hspaces.writeOctal 148 7 _ (by decide) (by decide) (by decide)).patch 155 [0x20]
    (by decide) (by decide)

theorem length_header (hname : name.length < kMaxName) (size : Nat) :
    (header name size).length = kBlock :=
  (sizeBlock_keeps hname size).length.trans (sizeBlock_keeps hname size).block

theorem parseOctal_header (hname : name.length < kMaxName) (hsize : size < 8 ^ 11) :
    parseOctal 0 (slice (header name size) 124 12) = size := by
  have hlength := length_octalText hsize
  have hfield : ((octalText 11 size).take 11 ++ [0]).length = 12 := by
    rw [List.length_append, List.length_take, hlength]
    rfl
  have howner : (ownerBlock name).length = kBlock :=
    (ownerBlock_keeps hname).length.trans (length_nameBlock hname)
  have hbound : 124 + ((octalText 11 size).take 11 ++ [0]).length ≤ (ownerBlock name).length := by
    rw [hfield, howner]
    decide
  have hslice := slice_patch (ownerBlock name) hbound
  rw [hfield] at hslice
  rw [(sizeBlock_keeps hname size).below 124 12 le_rfl, sizeBlock, writeOctal, hslice,
    List.take_of_length_le hlength.le]
  exact parseOctal_octalText 11 size []

theorem takeWhile_header (hname : name.length < kMaxName) (hnul : 0 ∉ name) (size : Nat) :
    ((header name size).take kMaxName).takeWhile (· ≠ 0) = name := by
  have hstart : (header name size).take kMaxName = (nameBlock name).take kMaxName := by
    change slice (header name size) 0 100 = slice (nameBlock name) 0 100
    rw [(sizeBlock_keeps hname size).below 0 100 (by decide),
      (nameBlock_keeps hname size).below 0 100 le_rfl]
  have hall : ∀ b ∈ name, decide (b ≠ 0) = true := fun b hb =>
    decide_eq_true fun h => hnul (h ▸ hb)
  obtain ⟨k, hk⟩ : ∃ k, kMaxName - name.length = k + 1 := ⟨kMaxName - name.length - 1, by omega⟩
  rw [hstart, nameBlock_eq, List.take_append, List.take_of_length_le hname.le, hk,
    List.take_replicate, List.takeWhile_append_of_pos hall]
  have hzeros : min (k + 1) (kBlock - name.length) = k + 1 := by
    unfold kBlock kMaxName at *
    omega
  rw [hzeros, List.replicate_succ, List.takeWhile_cons_of_neg (by decide), List.append_nil]

theorem header_not_zero (hname : name.length < kMaxName) (hne : name ≠ []) (hnul : 0 ∉ name)
    (size : Nat) : ¬(header name size).all (· = 0) = true := by
  intro hzero
  have hread := takeWhile_header hname hnul size
  rw [List.all_eq_true] at hzero
  cases hhead : (header name size).take kMaxName with
  | nil =>
    rw [hhead] at hread
    exact hne hread.symm
  | cons b rest =>
    have hb : b ∈ header name size := List.mem_of_mem_take (hhead ▸ List.mem_cons_self)
    have hb0 : b = 0 := by simpa using hzero b hb
    rw [hhead, hb0, List.takeWhile_cons_of_neg (by decide)] at hread
    exact hne hread.symm

end Header

/-- How many zeros follow `n` bytes up to the next block. -/
def padding (n : Nat) : Nat := if n % kBlock ≠ 0 then kBlock - n % kBlock else 0

/-- An entry as it stands in an archive. -/
def entryBlocks (e : TarEntry) : ByteString :=
  header e.name e.data.length ++ e.data ++ List.replicate (padding e.data.length) 0

/-- An entry that the format can hold. -/
structure TarEntry.Fits (e : TarEntry) : Prop where
  name_ne : e.name ≠ []
  name_short : e.name.length < kMaxName
  name_plain : 0 ∉ e.name
  data_short : e.data.length < 8 ^ 11

theorem length_entryBlocks (h : e.Fits) :
    (entryBlocks e).length = kBlock + e.data.length + padding e.data.length := by
  rw [entryBlocks, List.length_append, List.length_append, length_header h.name_short,
    List.length_replicate]

theorem padding_mod (n : Nat) : (n + padding n) % kBlock = 0 := by
  unfold padding kBlock
  split <;> omega

theorem padToBlock_eq (out : ByteString) :
    padToBlock out = out ++ List.replicate (padding out.length) 0 := by
  unfold padToBlock padding
  split
  · rfl
  · rw [List.replicate_zero, List.append_nil]

theorem appendEntry_eq (h : e.Fits) (hout : out.length % kBlock = 0) :
    appendEntry out e = .ok (out ++ entryBlocks e) := by
  have hname : ¬(e.name = [] ∨ kMaxName ≤ e.name.length) := by
    rw [not_or, not_le]
    exact ⟨h.name_ne, h.name_short⟩
  have hpadding : padding (out ++ header e.name e.data.length ++ e.data).length =
      padding e.data.length := by
    rw [List.length_append, List.length_append, length_header h.name_short]
    unfold padding kBlock at *
    rw [show (out.length + 512 + e.data.length) % 512 = e.data.length % 512 by omega]
  rw [appendEntry, appendHeader, if_neg hname]
  change Except.ok (padToBlock _) = _
  rw [padToBlock_eq, hpadding, entryBlocks, List.append_assoc, List.append_assoc, List.append_assoc]

theorem foldlM_appendEntry (entries : List TarEntry) (hfits : ∀ e ∈ entries, e.Fits)
    (hout : out.length % kBlock = 0) :
    entries.foldlM appendEntry out = .ok (out ++ entries.flatMap entryBlocks) := by
  induction entries generalizing out with
  | nil => exact congrArg Except.ok (List.append_nil out).symm
  | cons e entries ih =>
    have he := hfits e List.mem_cons_self
    rw [List.foldlM_cons, appendEntry_eq he hout, Except.ok_bind,
      ih (fun e he => hfits e (List.mem_cons_of_mem _ he)), List.flatMap_cons, List.append_assoc]
    rw [List.length_append, length_entryBlocks he]
    have := padding_mod e.data.length
    unfold kBlock at *
    omega

theorem writeTar_eq (entries : List TarEntry) (hfits : ∀ e ∈ entries, e.Fits) :
    writeTar entries =
      .ok (entries.flatMap entryBlocks ++ List.replicate (2 * kBlock) 0) := by
  rw [writeTar, foldlM_appendEntry entries hfits rfl, Except.ok_bind, List.nil_append]
  rfl

/-! ## Reading -/

theorem sizeAdd_eq (h : a + b < 2 ^ 64) : sizeAdd a b = a + b := Nat.mod_eq_of_lt h

theorem bytesAt_eq (h : pos + len ≤ tar.length) : bytesAt tar pos len = .ok (slice tar pos len) :=
  if_pos h

theorem parseOctal_field_lt (hdr : ByteString) : parseOctal 0 (slice hdr 124 12) < 2 ^ 36 := by
  have h := parseOctal_lt 0 (slice hdr 124 12)
  have hlength := length_slice_le hdr 124 12
  have hpow : 8 ^ (slice hdr 124 12).length ≤ 8 ^ 12 := Nat.pow_le_pow_right (by decide) hlength
  omega

section Reading

variable {tar : ByteString}

theorem readEntry_eq (htar : tar.length < 2 ^ 63) (hpos : pos + kBlock ≤ tar.length)
    (hname : (hdr.take kMaxName).takeWhile (· ≠ 0) = name)
    (hsize : parseOctal 0 (slice hdr 124 12) = size) :
    readEntry tar hdr pos =
      if tar.length < pos + kBlock + size then .error (.raised (sizeError name size))
      else .ok ({ name, data := slice tar (pos + kBlock) size },
        pos + kBlock + size + padding size) := by
  have hlt : size < 2 ^ 36 := hsize ▸ parseOctal_field_lt hdr
  have hblock : kBlock = 512 := rfl
  unfold readEntry
  dsimp only
  have hstart : sizeAdd pos kBlock = pos + kBlock := sizeAdd_eq (by omega)
  rw [hname, hsize, hstart, sizeAdd_eq (by omega)]
  split
  · rfl
  · next hend =>
    rw [bytesAt_eq (by omega), Except.ok_bind]
    unfold padding
    split
    · rw [sizeAdd_eq (by omega)]
      rfl
    · rfl

theorem readEntries_inside (htar : tar.length < 2 ^ 63) (fuel : Nat)
    (hpos : pos < tar.length + kBlock) (hfuel : tar.length ≤ pos + fuel) :
    (∃ entries, readEntries tar fuel pos = .ok entries) ∨
      ∃ message, readEntries tar fuel pos = .error (.raised message) := by
  have hblock : kBlock = 512 := rfl
  induction fuel generalizing pos with
  | zero =>
    refine .inl ⟨[], if_neg ?_⟩
    rw [sizeAdd_eq (by omega)]
    omega
  | succ fuel ih =>
    rw [readEntries, sizeAdd_eq (by omega)]
    by_cases hmore : pos + kBlock ≤ tar.length
    · rw [if_pos hmore, bytesAt_eq hmore, Except.ok_bind]
      split
      · exact .inl ⟨[], rfl⟩
      · rw [readEntry_eq htar hmore rfl rfl]
        have hlt := parseOctal_field_lt (slice tar pos kBlock)
        split
        · exact .inr ⟨_, rfl⟩
        · next hend =>
          have hpad : padding (parseOctal 0 (slice (slice tar pos kBlock) 124 12)) < kBlock := by
            unfold padding
            split
            · omega
            · decide
          rw [Except.ok_bind]
          dsimp only
          rcases @ih (pos + kBlock + parseOctal 0 (slice (slice tar pos kBlock) 124 12) +
            padding (parseOctal 0 (slice (slice tar pos kBlock) 124 12))) (by omega) (by omega) with
            ⟨entries, hentries⟩ | ⟨message, hmessage⟩
          · rw [hentries]
            exact .inl ⟨_, rfl⟩
          · rw [hmessage]
            exact .inr ⟨message, rfl⟩
    · rw [if_neg hmore]
      exact .inl ⟨[], rfl⟩

theorem readTar_inside (htar : tar.length < 2 ^ 63) :
    (∃ entries, readTar tar = .ok entries) ∨ ∃ message, readTar tar = .error (.raised message) :=
  readEntries_inside htar tar.length (Nat.zero_lt_of_lt (by decide : 0 < kBlock) |>.trans_le
    (Nat.le_add_left _ _)) (by omega)

theorem readEntries_written (entries : List TarEntry) (hfits : ∀ e ∈ entries, e.Fits)
    {pre : ByteString} (htar : tar = pre ++ (entries.flatMap entryBlocks ++
      List.replicate (2 * kBlock) 0)) (hlength : tar.length < 2 ^ 63) (fuel : Nat)
    (hfuel : tar.length ≤ pre.length + fuel) :
    readEntries tar fuel pre.length = .ok entries := by
  have hblock : kBlock = 512 := rfl
  induction entries generalizing pre fuel with
  | nil =>
    have hend : tar.length = pre.length + 2 * kBlock := by
      rw [htar, List.flatMap_nil, List.nil_append, List.length_append, List.length_replicate]
    obtain ⟨fuel, rfl⟩ : ∃ n, fuel = n + 1 := ⟨fuel - 1, by omega⟩
    have hzero : slice tar pre.length kBlock = List.replicate kBlock 0 := by
      rw [htar, slice, List.drop_left, List.flatMap_nil, List.nil_append, List.take_replicate]
      rfl
    rw [readEntries, sizeAdd_eq (by omega), if_pos (by omega), bytesAt_eq (by omega),
      Except.ok_bind, hzero, if_pos (by simp)]
    rfl
  | cons e entries ih =>
    have he := hfits e List.mem_cons_self
    have hpart := length_entryBlocks he
    have hwhole : tar = (pre ++ entryBlocks e) ++ (entries.flatMap entryBlocks ++
        List.replicate (2 * kBlock) 0) := by
      rw [htar, List.flatMap_cons]
      simp only [List.append_assoc]
    have hend : pre.length + (entryBlocks e).length ≤ tar.length := by
      rw [hwhole, List.length_append, List.length_append]
      omega
    obtain ⟨fuel, rfl⟩ : ∃ n, fuel = n + 1 := ⟨fuel - 1, by omega⟩
    have hhdr : slice tar pre.length kBlock = header e.name e.data.length := by
      have hlen := length_header he.name_short e.data.length
      rw [hwhole, slice, List.append_assoc, List.drop_left, entryBlocks, List.append_assoc,
        List.append_assoc, List.take_left' hlen]
    have hdata : slice tar (pre.length + kBlock) e.data.length = e.data := by
      have hlen := length_header he.name_short e.data.length
      rw [hwhole, slice, ← List.drop_drop, List.append_assoc, List.drop_left, entryBlocks,
        List.append_assoc, List.append_assoc, List.drop_left' hlen, List.take_left]
    have hread := readEntry_eq hlength (by omega : pre.length + kBlock ≤ tar.length)
      (takeWhile_header he.name_short he.name_plain e.data.length)
      (parseOctal_header he.name_short he.data_short)
    rw [if_neg (by omega), hdata] at hread
    rw [readEntries, sizeAdd_eq (by omega), if_pos (by omega), bytesAt_eq (by omega),
      Except.ok_bind, hhdr,
      if_neg (header_not_zero he.name_short he.name_ne he.name_plain e.data.length), hread,
      Except.ok_bind]
    dsimp only
    have hnext : pre.length + kBlock + e.data.length + padding e.data.length =
        (pre ++ entryBlocks e).length := by
      rw [List.length_append]
      omega
    rw [hnext, ih (fun e he => hfits e (List.mem_cons_of_mem _ he)) hwhole fuel
      (by rw [List.length_append]; omega)]
    rfl

end Reading

/-- A frame gives its size, and the bytes that it was made of. -/
def Codec.Lossless (z : Codec) : Prop :=
  ∀ src level, ∃ frame, z.compress src level = .ok frame ∧
    z.frameContentSize frame = .known src.length ∧ z.decompress frame src.length = .ok src

/-- Entries are read back as they were written, and no archive leads the reader out of its input. A
string is shorter than `2^63` bytes. -/
theorem tar_roundTrip (z : Codec) (hz : z.Lossless) :
    (∀ entries : List TarEntry, (∀ e ∈ entries, 1 ≤ e.name.length ∧ e.name.length ≤ 99 ∧
        0 ∉ e.name ∧ e.data.length < 8 ^ 11) →
      (∀ tar, writeTar entries = .ok tar → tar.length < 2 ^ 63) →
      ∃ frame, writeTarZstd z entries = .ok frame ∧ readTarZstd z frame = .ok entries) ∧
    ∀ tar : ByteString, tar.length < 2 ^ 63 →
      (∃ entries, readTar tar = .ok entries) ∨ ∃ message, readTar tar =
        .error (.raised message) := by
  refine ⟨fun entries hentries hlength => ?_, fun tar htar => readTar_inside htar⟩
  have hfits : ∀ e ∈ entries, e.Fits := by
    intro e he
    obtain ⟨hne, hshort, hplain, hdata⟩ := hentries e he
    exact ⟨List.ne_nil_of_length_pos hne, Nat.lt_succ_of_le hshort, hplain, hdata⟩
  have hwrite := writeTar_eq entries hfits
  obtain ⟨frame, hcompress, hknown, hdecompress⟩ :=
    hz (entries.flatMap entryBlocks ++ List.replicate (2 * kBlock) 0) 3
  refine ⟨frame, ?_, ?_⟩
  · rw [writeTarZstd, hwrite, Except.ok_bind, hcompress]
    rfl
  · rw [readTarZstd, decompressFrame, hknown]
    dsimp only
    rw [hdecompress, Except.ok_bind]
    exact readEntries_written entries hfits (List.nil_append _).symm (hlength _ hwrite) _
      (Nat.le_add_left _ _)

/-- Stores the bytes as they are. -/
def storingCodec : Codec where
  compress src _ := .ok src
  frameContentSize src := .known src.length
  decompress src _ := .ok src

def sampleEntries : List TarEntry :=
  [{ name := ascii "a", data := [0, 0, 0] }, { name := ascii "a", data := [] }]

theorem sampleEntries_roundTrip : ∃ frame, writeTarZstd storingCodec sampleEntries = .ok frame ∧
    readTarZstd storingCodec frame = .ok sampleEntries := by
  refine (tar_roundTrip storingCodec fun src level => ⟨src, rfl, rfl, rfl⟩).1 sampleEntries
    (by decide) fun tar htar => ?_
  have hfits : ∀ e ∈ sampleEntries, e.Fits := by
    intro e he
    simp only [sampleEntries, List.mem_cons, List.not_mem_nil, or_false] at he
    rcases he with rfl | rfl
    · exact ⟨by decide, by decide, by decide, by decide⟩
    · exact ⟨by decide, by decide, by decide, by decide⟩
  rw [writeTar_eq _ hfits] at htar
  cases htar
  rw [List.length_append, List.length_flatMap, List.length_replicate]
  unfold sampleEntries
  simp only [List.map_cons, List.map_nil, List.sum_cons, List.sum_nil,
    length_entryBlocks (hfits _ (List.mem_cons_self)),
    length_entryBlocks (hfits _ (List.mem_cons_of_mem _ List.mem_cons_self))]
  decide

end Cajeta.Buildtool.Tar
