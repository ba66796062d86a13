import Cajeta.Compile.CajetaArchive
import Cajeta.Lib.FinMap
import Cajeta.Lib.Transition
import Cajeta.Compile.ArchiveRoundTrip

/-!
# Looking up entries by name

`findEntry` builds an index of the names at its first call and does not touch it again, while
`addEntry` knows the entries only. An entry that is added under a new name once the index has been
built is not found.
-/

namespace Cajeta.Compile

structure EntryTable where
  entries : List CajetaArchiveEntry := []
  nameIndex : FinMap ByteString Nat := .empty

/-- `std::unordered_map::emplace` leaves a key that is there as it is. -/
def emplace (index : FinMap ByteString Nat) (name : ByteString) (i : Nat) :
    FinMap ByteString Nat :=
  if index.contains name then index else index.insert name i

def indexNames (entries : List CajetaArchiveEntry) : FinMap ByteString Nat :=
  entries.zipIdx.foldl (fun index e => emplace index e.1.name e.2) .empty

namespace EntryTable

def addEntry (t : EntryTable) (entry : CajetaArchiveEntry) : EntryTable :=
  { t with entries := t.entries ++ [entry] }

def indexed (t : EntryTable) : EntryTable :=
  if t.nameIndex.size = 0 ∧ t.entries ≠ [] then { t with nameIndex := indexNames t.entries } else t

/-- The place of the entry, `none` for a null pointer. -/
def findEntry (t : EntryTable) (name : ByteString) : Option Nat × EntryTable :=
  (t.indexed.nameIndex.lookup name, t.indexed)

/-- The place of the first entry that was added under the name. -/
def first (t : EntryTable) (name : ByteString) : Option Nat :=
  t.entries.findIdx? fun e => e.name = name

end EntryTable

inductive TableCall where
  | addEntry (entry : CajetaArchiveEntry)
  | findEntry (name : ByteString)

def TableCall.step (t : EntryTable) (call : TableCall) (t' : EntryTable) : Prop :=
  match call with
  | .addEntry entry => t' = t.addEntry entry
  | .findEntry name => t' = (t.findEntry name).2

theorem indexNames_concat (entries : List CajetaArchiveEntry) (e : CajetaArchiveEntry) :
    indexNames (entries ++ [e]) = emplace (indexNames entries) e.name entries.length := by
  unfold indexNames
  rw [List.zipIdx_append, List.foldl_append]
  simp

theorem lookup_emplace (index : FinMap ByteString Nat) (name name' : ByteString) (i : Nat) :
    (emplace index name i).lookup name' =
      (index.lookup name').or (if name = name' then some i else none) := by
  unfold emplace
  by_cases hname : name = name'
  · subst hname
    rw [if_pos rfl]
    cases hfound : index.lookup name with
    | some j =>
      rw [if_pos (by simp [FinMap.contains, hfound]), hfound]
      rfl
    | none =>
      rw [if_neg (by simp [FinMap.contains, hfound]), FinMap.lookup_insert, if_pos (by simp)]
      rfl
  · rw [if_neg hname, Option.or_none]
    split
    · rfl
    · rw [FinMap.lookup_insert, if_neg (by simpa using hname)]

theorem lookup_indexNames (entries : List CajetaArchiveEntry) (name : ByteString) :
    (indexNames entries).lookup name = entries.findIdx? fun e => e.name = name := by
  induction entries using List.reverseRecOn with
  | nil => rfl
  | append_singleton entries e ih =>
    rw [indexNames_concat, lookup_emplace, ih, List.findIdx?_append]
    congr 1
    simp [List.findIdx?_cons]

theorem size_indexNames_pos (h : entries ≠ []) : (indexNames entries).size ≠ 0 := by
  intro hsize
  obtain ⟨e, rest, rfl⟩ := List.exists_cons_of_ne_nil h
  have hlookup := lookup_indexNames (e :: rest) e.name
  have hnil : (indexNames (e :: rest)).entries = [] := List.length_eq_zero_iff.mp hsize
  rw [FinMap.lookup, hnil, List.findIdx?_cons, if_pos (by simp)] at hlookup
  cases hlookup

/-! ## Runs -/

/-- The index is empty, or it is that of the entries there were when it was built. -/
def EntryTable.Consistent (t : EntryTable) : Prop :=
  t.nameIndex.size = 0 ∨ ∃ early late, t.entries = early ++ late ∧ t.nameIndex.size ≠ 0 ∧
    ∀ name, t.nameIndex.lookup name = early.findIdx? fun e => e.name = name

theorem EntryTable.Consistent.indexed {t : EntryTable} (h : t.Consistent) :
    t.indexed.Consistent := by
  unfold EntryTable.indexed
  split
  · next hbuild =>
    exact .inr ⟨t.entries, [], (List.append_nil _).symm, size_indexNames_pos hbuild.2,
      lookup_indexNames t.entries⟩
  · exact h

theorem TableCall.step_consistent (t : EntryTable) (call : TableCall) (t' : EntryTable)
    (hstep : TableCall.step t call t') (h : t.Consistent) : t'.Consistent := by
  cases call with
  | addEntry entry =>
    cases hstep
    rcases h with hempty | ⟨early, late, hentries, hsize, hlookup⟩
    · exact .inl hempty
    · refine .inr ⟨early, late ++ [entry], ?_, hsize, hlookup⟩
      rw [← List.append_assoc, ← hentries]
      rfl
  | findEntry name =>
    cases hstep
    exact h.indexed

theorem consistent_of_run (h : Steps TableCall.step {} calls t) : t.Consistent :=
  h.preserves TableCall.step_consistent (.inl rfl)

theorem findEntry_first_iff {t : EntryTable} (h : t.Consistent) (name : ByteString) :
    (t.findEntry name).1 = t.first name ↔
      t.nameIndex.size = 0 ∨ t.nameIndex.contains name = true ∨ ∀ e ∈ t.entries, e.name ≠ name := by
  change t.indexed.nameIndex.lookup name = _ ↔ _
  rcases h with hempty | ⟨early, late, hentries, hsize, hlookup⟩
  · refine ⟨fun _ => .inl hempty, fun _ => ?_⟩
    unfold EntryTable.indexed
    by_cases hentries : t.entries = []
    · rw [if_neg (fun h => h.2 hentries)]
      have hnil : t.nameIndex.entries = [] := List.length_eq_zero_iff.mp hempty
      rw [EntryTable.first, hentries, FinMap.lookup, hnil]
      rfl
    · rw [if_pos ⟨hempty, hentries⟩]
      exact lookup_indexNames t.entries name
  · have hkeep : t.indexed = t := if_neg fun h => hsize h.1
    rw [hkeep, or_iff_right hsize, FinMap.contains, hlookup, EntryTable.first, hentries,
      List.findIdx?_append]
    cases hearly : early.findIdx? fun e => e.name = name with
    | some i => simp
    | none =>
      rw [List.findIdx?_eq_none_iff] at hearly
      rw [Option.none_or, eq_comm, Option.map_eq_none_iff, List.findIdx?_eq_none_iff,
        Option.isSome_none]
      simp only [decide_eq_false_iff_not, Bool.false_eq_true, false_or] at hearly ⊢
      refine ⟨fun hlate e he => ?_, fun hall e he => hall e (List.mem_append_right _ he)⟩
      exact (List.mem_append.mp he).elim (hearly e) (hlate e)

def added (calls : List TableCall) : List CajetaArchiveEntry :=
  calls.filterMap fun
    | .addEntry entry => some entry
    | .findEntry _ => none

theorem EntryTable.entries_indexed (t : EntryTable) : t.indexed.entries = t.entries := by
  unfold EntryTable.indexed
  split <;> rfl

theorem entries_of_run (h : Steps TableCall.step t calls t') :
    t'.entries = t.entries ++ added calls := by
  induction h with
  | nil => exact (List.append_nil _).symm
  | @cons t call t' calls t'' hstep _ ih =>
    rw [ih]
    cases call with
    | addEntry entry =>
      cases hstep
      exact List.append_assoc _ _ _
    | findEntry name =>
      cases hstep
      exact congrArg (· ++ added calls) t.entries_indexed

/-- After any calls, a name is looked up to the first entry added under it exactly when no index has
been built, the index has the name, or no entry does. -/
theorem findEntry_run_iff (h : Steps TableCall.step {} calls t) (name : ByteString) :
    (t.findEntry name).1 = (added calls).findIdx? (fun e => e.name = name) ↔
      t.nameIndex.size = 0 ∨ t.nameIndex.contains name = true ∨
        ∀ e ∈ added calls, e.name ≠ name := by
  have hentries : t.entries = added calls := entries_of_run h
  rw [← hentries]
  exact findEntry_first_iff (consistent_of_run h) name

def entryA : CajetaArchiveEntry := { name := ascii "a", data := [] }

def entryB : CajetaArchiveEntry := { name := ascii "b", data := [] }

/-- The index holds the first of two entries of one name, and keeps it after it has been built. -/
theorem findEntry_first_call : ∃ t, Steps TableCall.step {}
      [.addEntry entryB, .addEntry entryA, .addEntry { entryA with data := [1] },
        .findEntry (ascii "b"), .addEntry { entryA with data := [2] }] t ∧
    t.nameIndex.size = 2 ∧ (t.findEntry (ascii "a")).1 = some 1 :=
  have hrun := .cons rfl (.cons rfl (.cons rfl (.cons rfl (.cons rfl .nil))))
  ⟨_, hrun, rfl, (findEntry_run_iff hrun (ascii "a")).mpr (.inr (.inl (by decide)))⟩

/-- An entry that is added after a lookup is not found. -/
theorem findEntry_hides : ∃ t, Steps TableCall.step {}
      [.addEntry entryA, .findEntry (ascii "a"), .addEntry entryB] t ∧
    (t.findEntry (ascii "b")).1 = none ∧
    (added [.addEntry entryA, .findEntry (ascii "a"), .addEntry entryB]).findIdx?
      (fun e => e.name = ascii "b") = some 1 :=
  ⟨_, .cons rfl (.cons rfl (.cons rfl .nil)), by decide, by decide⟩

/-!
## Every read of the archive reader

The reader once more, with each access to the input checked against its length and the arithmetic of
`size_t` modulo 2^64. It agrees with the reader that takes accesses for granted, so it never reads
outside of the input, and the loop over the entries ends.
-/
open Except Bytes

/-- Why a checked read ends early. -/
inductive ReadFault where
  | raised (message : String)
  | outside
  | outOfFuel

abbrev CheckedM := Except ReadFault

namespace Checked

def raise (x : Except String α) : CheckedM α := x.mapError .raised

/-- `size_t` arithmetic. -/
def add (a b : Nat) : Nat := (a + b) % 2 ^ 64

def sub (a b : Nat) : Nat := (2 ^ 64 + a - b) % 2 ^ 64

/-- The `len` bytes at `pos`. -/
def bytesAt (bytes : ByteString) (pos len : Nat) : CheckedM ByteString :=
  if pos + len ≤ bytes.length then .ok (slice bytes pos len) else .error .outside

def readLE (n : Nat) (bytes : ByteString) (pos : Nat) : CheckedM Nat := do
  return ofLE (← bytesAt bytes pos n)

def byteAt (bytes : ByteString) (pos : Nat) : CheckedM UInt8 :=
  match bytes[pos]? with
  | some b => .ok b
  | none => .error .outside

section Reader

variable (z : Zstd) (bytes : ByteString) (compressed : Bool) (path : String)

def readSection (cursor onDisk : Nat) (tooShort : String) : CheckedM ByteString :=
  if compressed then do
    raise (require (8 ≤ onDisk) tooShort)
    let uncompressedLen ← readLE 8 bytes cursor
    let src ← bytesAt bytes (add cursor 8) (sub onDisk 8)
    raise (zstdDecompress z src uncompressedLen)
  else bytesAt bytes cursor onDisk

def readEntry (cursor : Nat) : CheckedM (CajetaArchiveEntry × Nat) := do
  raise (require (4 ≤ sub bytes.length cursor)
    ("CajetaArchive: " ++ path ++ " truncated entry name length"))
  let nameLen ← readLE 4 bytes cursor
  let cursor := add cursor 4
  raise (require (nameLen ≤ sub bytes.length cursor)
    ("CajetaArchive: " ++ path ++ " truncated entry name"))
  let name ← bytesAt bytes cursor nameLen
  let cursor := add cursor nameLen
  raise (require (12 ≤ sub bytes.length cursor)
    ("CajetaArchive: " ++ path ++ " truncated entry header"))
  let originTag ← byteAt bytes cursor
  let kindTag ← byteAt bytes (add cursor 1)
  let cursor := add cursor 4
  let dataOnDisk ← readLE 8 bytes cursor
  let cursor := add cursor 8
  raise (require (dataOnDisk ≤ sub bytes.length cursor)
    ("CajetaArchive: " ++ path ++ " truncated entry data"))
  let data ← readSection z bytes compressed cursor dataOnDisk
    ("CajetaArchive: " ++ path ++ " compressed entry too short")
  return ({ name, originTag, kindTag, data }, add cursor dataOnDisk)

def readEntries (entriesEnd : Nat) : (fuel cursor : Nat) → CheckedM (List CajetaArchiveEntry)
  | 0, cursor => if cursor < entriesEnd then .error .outOfFuel else .ok []
  | fuel + 1, cursor =>
    if cursor < entriesEnd then do
      let (entry, cursor) ← readEntry z bytes compressed path cursor
      let entries ← readEntries entriesEnd fuel cursor
      return entry :: entries
    else .ok []

def readFromBytes : CheckedM CajetaArchive := do
  raise (require (32 ≤ bytes.length)
    ("CajetaArchive: " ++ path ++ " is too short to be a .cja file"))
  let magic ← bytesAt bytes 0 8
  raise (require (magic = archiveMagic)
    ("CajetaArchive: " ++ path ++ " bad magic (expected CAJETA01)"))
  let version ← readLE 4 bytes 8
  let flags ← readLE 4 bytes 12
  let indexOff ← readLE 8 bytes 16
  let _ ← readLE 8 bytes 24
  raise (require (version = 1)
    ("CajetaArchive: " ++ path ++ " unsupported format version " ++ toString version))
  raise (require (flags ≤ (flagManifestCompressed ||| flagEntriesCompressed))
    ("CajetaArchive: " ++ path ++ " uses unknown flags=0x" ++ toString flags))
  raise (require (40 ≤ bytes.length) ("CajetaArchive: " ++ path ++ " truncated at manifest"))
  let manifestOnDisk ← readLE 8 bytes 32
  raise (require (manifestOnDisk ≤ sub bytes.length 40)
    ("CajetaArchive: " ++ path ++ " manifest length out of range"))
  let manifest ← readSection z bytes (flags.testBit 0) 40 manifestOnDisk
    ("CajetaArchive: " ++ path ++ " compressed manifest too short")
  let cursor := add 40 manifestOnDisk
  let entriesEnd := if indexOff ≠ 0 then indexOff else bytes.length
  raise (require (entriesEnd ≤ bytes.length)
    ("CajetaArchive: " ++ path ++ " index_offset past EOF"))
  let name := scanManifestString manifest (ascii "name")
  let kind := if scanManifestString manifest (ascii "kind") = ascii "uber" then Kind.uber else .cja
  let entries ← readEntries z bytes (flags.testBit 1) path entriesEnd bytes.length cursor
  return { name, version := scanManifestString manifest (ascii "version"), kind, entries,
           deps := if kind = .uber then scanManifestDeps manifest else [],
           sourceArchiveName := name, rawManifest := manifest }

end Reader

/-! ## Agreement -/

theorem raise_bind (x : Except String α) (k : α → Except String β) :
    raise (x >>= k) = raise x >>= fun a => raise (k a) := by
  cases x <;> rfl

theorem raise_ok (a : α) : raise (.ok a) = .ok a := rfl

theorem add_eq (h : a + b < 2 ^ 64) : add a b = a + b := Nat.mod_eq_of_lt h

theorem sub_eq (hb : b ≤ a) (ha : a < 2 ^ 64) : sub a b = a - b := by
  unfold sub
  rw [Nat.add_sub_assoc hb, Nat.add_mod_left, Nat.mod_eq_of_lt (by omega)]

theorem bytesAt_eq (h : pos + len ≤ bytes.length) :
    bytesAt bytes pos len = .ok (slice bytes pos len) :=
  if_pos h

theorem readLE_eq (h : pos + n ≤ bytes.length) :
    readLE n bytes pos = .ok (Bytes.readLE n bytes pos) := by
  unfold readLE
  rw [bytesAt_eq h]
  rfl

theorem byteAt_eq (h : pos < bytes.length) : byteAt bytes pos = .ok (bytes.getD pos 0) := by
  unfold byteAt
  rw [List.getElem?_eq_getElem h, List.getD_eq_getElem?_getD, List.getElem?_eq_getElem h]
  rfl

theorem guard_congr {c : Prop} [Decidable c] {e : String} {k : Unit → Except String β}
    {k' : Unit → CheckedM β} (h : c → k' () = raise (k ())) :
    (raise (require c e) >>= k') = raise (require c e >>= k) := by
  unfold require
  split
  · next hc => exact h hc
  · rfl

section Agreement

variable {z : Zstd} {bytes : ByteString} {path : String}

theorem readSection_eq (hbytes : bytes.length < 2 ^ 64) (compressed : Bool)
    (hend : cursor + onDisk ≤ bytes.length) (tooShort : String) :
    readSection z bytes compressed cursor onDisk tooShort =
      raise (Compile.readSection z bytes compressed cursor onDisk tooShort) := by
  unfold readSection Compile.readSection
  cases compressed with
  | false => exact bytesAt_eq hend
  | true =>
    refine guard_congr fun hdisk => ?_
    rw [readLE_eq (by omega), ok_bind, add_eq (by omega), sub_eq hdisk (by omega),
      bytesAt_eq (by omega), ok_bind]

theorem readEntry_eq (hbytes : bytes.length < 2 ^ 64) (compressed : Bool)
    (hcursor : cursor ≤ bytes.length) :
    readEntry z bytes compressed path cursor =
      raise (Compile.readEntry z bytes compressed path cursor) := by
  unfold readEntry Compile.readEntry
  rw [sub_eq hcursor hbytes]
  refine guard_congr fun hlength => ?_
  rw [readLE_eq (by omega), ok_bind, add_eq (by omega)]
  dsimp only
  rw [sub_eq (by omega) hbytes]
  refine guard_congr fun hname => ?_
  rw [bytesAt_eq (by omega), ok_bind, add_eq (by omega), sub_eq (by omega) hbytes]
  refine guard_congr fun hheader => ?_
  rw [byteAt_eq (by omega), ok_bind, add_eq (by omega), byteAt_eq (by omega), ok_bind,
    add_eq (by omega), readLE_eq (by omega), ok_bind, add_eq (by omega), sub_eq (by omega) hbytes]
  refine guard_congr fun hdata => ?_
  rw [readSection_eq hbytes compressed (by omega), raise_bind, add_eq (by omega)]
  rfl

theorem readEntry_cursor
    (h : Compile.readEntry z bytes compressed path cursor = .ok (e, cursor')) :
    cursor + 16 ≤ cursor' ∧ cursor' ≤ bytes.length := by
  unfold Compile.readEntry at h
  simp only [bind_eq_ok, require_eq_ok, pure_eq_ok] at h
  obtain ⟨_, hlength, _, hname, _, hheader, _, hdata, data, -, heq⟩ := h
  cases heq
  omega

theorem readEntries_eq (hbytes : bytes.length < 2 ^ 64) (compressed : Bool) (entriesEnd fuel : Nat)
    (hcursor : cursor ≤ bytes.length) (hfuel : bytes.length ≤ cursor + fuel)
    (hend : entriesEnd ≤ bytes.length) :
    readEntries z bytes compressed path entriesEnd fuel cursor =
      raise (Compile.readEntries z bytes compressed path entriesEnd fuel cursor) := by
  induction fuel generalizing cursor with
  | zero => exact if_neg (by omega)
  | succ fuel ih =>
    unfold readEntries Compile.readEntries
    by_cases hmore : cursor < entriesEnd
    · rw [if_pos hmore, if_pos hmore, readEntry_eq hbytes compressed hcursor, raise_bind]
      cases hentry : Compile.readEntry z bytes compressed path cursor with
      | error e => rfl
      | ok entry =>
        obtain ⟨e, cursor'⟩ := entry
        obtain ⟨hstep, hinside⟩ := readEntry_cursor hentry
        rw [raise_ok, ok_bind, ok_bind]
        dsimp only
        rw [ih hinside (by omega), raise_bind]
        rfl
    · rw [if_neg hmore, if_neg hmore]
      rfl

theorem readFromBytes_eq (hbytes : bytes.length < 2 ^ 64) :
    readFromBytes z bytes path = raise (Compile.readFromBytes z bytes path) := by
  unfold readFromBytes Compile.readFromBytes
  refine guard_congr fun hheader => ?_
  rw [bytesAt_eq (by omega), ok_bind]
  refine guard_congr fun hmagic => ?_
  rw [readLE_eq (by omega), ok_bind, readLE_eq (by omega), ok_bind, readLE_eq (by omega), ok_bind,
    readLE_eq (by omega), ok_bind]
  refine guard_congr fun hversion => ?_
  refine guard_congr fun hflags => ?_
  refine guard_congr fun hlength => ?_
  rw [readLE_eq (by omega), ok_bind, sub_eq hlength hbytes]
  refine guard_congr fun hmanifest => ?_
  rw [readSection_eq hbytes _ (by omega), raise_bind]
  congr 1
  funext manifest
  dsimp only
  refine guard_congr fun hend => ?_
  rw [add_eq (by omega), readEntries_eq hbytes _ _ _ (by omega) (by omega) hend, raise_bind]
  rfl

end Agreement

/-- Every input is read to an archive or refused: no access lies outside of it, and the reader ends.
-/
theorem readFromBytes_inside (z : Zstd) (bytes : ByteString) (path : String)
    (hbytes : bytes.length < 2 ^ 64) :
    (∃ archive, readFromBytes z bytes path = .ok archive) ∨
      ∃ message, readFromBytes z bytes path = .error (.raised message) := by
  rw [readFromBytes_eq hbytes]
  cases Compile.readFromBytes z bytes path with
  | ok archive => exact .inl ⟨archive, rfl⟩
  | error message => exact .inr ⟨message, rfl⟩

/-- A header that announces more entries than there are bytes. -/
def hostile : ByteString :=
  archiveMagic ++ toLE 4 1 ++ toLE 4 0 ++ toLE 8 (2 ^ 64 - 1) ++ toLE 8 0 ++ toLE 8 0

theorem readFromBytes_hostile :
    (∃ archive, readFromBytes storing hostile "lib.cja" = .ok archive) ∨
      ∃ message, readFromBytes storing hostile "lib.cja" = .error (.raised message) :=
  readFromBytes_inside storing hostile "lib.cja" (by decide)

end Checked

end Cajeta.Compile
