import Cajeta.Compile.ManifestScan

/-!
# Reading an archive undoes writing it

A writer lemma says what was appended, and that the reader finds it wherever it stands. So the
lemmas compose from a section over an entry and the entries to the archive, whatever its header is
patched to afterwards.
-/

namespace Cajeta.Compile
open Except Substring Bytes

/-- A codec that declares the size of what it packs, and gives it back. -/
def Zstd.Lossless (z : Zstd) : Prop :=
  ∀ level src, src.length ≤ kMaxDecompressed →
    ∃ frame, z.compress level src = .ok frame ∧ z.frameContentSize frame = some src.length ∧
      z.decompress frame src.length = .ok src

variable {z : Zstd} {a : CajetaArchive} {bytes : ByteString}

/-- Small enough to be read back: only compressed data is capped. -/
def CajetaArchive.Within (a : CajetaArchive) (data : ByteString) : Prop :=
  a.compressed = true → data.length ≤ kMaxDecompressed

instance : Decidable (a.Within data) := inferInstanceAs (Decidable (_ → _))

/-! ## Sections and entries -/

theorem zstdDecompress_frame (hlen : src.length ≤ kMaxDecompressed)
    (hsize : z.frameContentSize frame = some src.length)
    (hdata : z.decompress frame src.length = .ok src) :
    zstdDecompress z frame src.length = .ok src := by
  simp only [zstdDecompress, bind_eq_ok, require_eq_ok, wrap_eq_ok, pure_eq_ok]
  exact ⟨(), ⟨hsize, hlen⟩, src, hdata, (), rfl, rfl⟩

theorem writeSection_spec (hz : z.Lossless) (hdata : a.Within data) :
    ∃ payload, writeSection z a data = .ok (toLE 8 payload.length ++ payload) ∧
      ∀ bytes pos tooShort, At bytes pos payload →
        readSection z bytes a.compressed pos payload.length tooShort = .ok data := by
  unfold writeSection readSection
  cases hmode : a.compressed with
  | false =>
    refine ⟨data, rfl, fun bytes pos tooShort hat => ?_⟩
    rw [hat.slice]
    rfl
  | true =>
    have hlen := hdata hmode
    obtain ⟨frame, hframe, hsize, hback⟩ := hz a.compressionLevel data hlen
    refine ⟨toLE 8 data.length ++ frame, ?_, fun bytes pos tooShort hat => ?_⟩
    · simp only [if_true, bind_eq_ok, pure_eq_ok]
      refine ⟨frame, wrap_eq_ok.mpr hframe, ?_⟩
      rw [List.length_append, length_toLE]
    · have hsmall : data.length < 256 ^ 8 := Nat.lt_of_le_of_lt hlen (by decide)
      have hslice := hat.right.slice
      rw [length_toLE] at hslice
      simp only [if_true, bind_eq_ok, require_eq_ok, List.length_append, length_toLE,
        Nat.add_sub_cancel_left, hslice, hat.left.readLE hsmall]
      exact ⟨(), Nat.le_add_right _ _, zstdDecompress_frame hlen hsize hback⟩

theorem writeEntry_spec (hz : z.Lossless) (hname : e.name.length < 2 ^ 32)
    (hdata : a.Within e.data) :
    ∃ entry, writeEntry z a e = .ok entry ∧ entry ≠ [] ∧
      ∀ bytes pos path, bytes.length < 2 ^ 64 → At bytes pos entry →
        readEntry z bytes a.compressed path pos = .ok (e, pos + entry.length) := by
  obtain ⟨payload, hwrite, hread⟩ := writeSection_spec hz hdata
  refine ⟨_, bind_eq_ok.mpr ⟨_, hwrite, rfl⟩, ?_, fun bytes pos path hbytes hat => ?_⟩
  · exact List.append_ne_nil_of_left_ne_nil (List.ne_nil_of_length_pos (by simp)) _
  have hname' := hat.right
  rw [length_toLE] at hname'
  have htags := hname'.right
  have hlength : At bytes (pos + 4 + e.name.length + 4) (toLE 8 payload.length ++ payload) :=
    htags.right
  have hpayload := hlength.right
  rw [length_toLE] at hpayload
  have hsmall : payload.length < 256 ^ 8 :=
    Nat.lt_of_le_of_lt (hpayload.length_le.trans (Nat.sub_le _ _)) hbytes
  have hsize := hat.length_le
  simp only [List.length_append, length_toLE, List.length_cons, List.length_nil] at hsize
  have hnameLen := hat.left.readLE (v := e.name.length) hname
  have hdataLen := hlength.left.readLE hsmall
  simp only [readEntry, bind_eq_ok, require_eq_ok, pure_eq_ok, hnameLen, hname'.left.slice,
    hdataLen]
  refine ⟨(), by omega, (), by omega, (), by omega, (), by omega, e.data, hread _ _ _ hpayload, ?_⟩
  rw [htags.getD, htags.tail.getD]
  simp only [List.length_append, length_toLE, List.length_cons, List.length_nil, Prod.mk.injEq,
    true_and]
  omega

theorem writeEntries_spec (hz : z.Lossless)
    (hes : ∀ e ∈ es, e.name.length < 2 ^ 32 ∧ a.Within e.data) :
    ∃ tail, (∀ out, ∃ offsets, writeEntries z a out es = .ok (out ++ tail, offsets)) ∧
      ∀ bytes pos path fuel, bytes.length < 2 ^ 64 → At bytes pos tail → tail.length ≤ fuel →
        readEntries z bytes a.compressed path (pos + tail.length) fuel pos = .ok es := by
  induction es with
  | nil =>
    refine ⟨[], fun out => ⟨[], by rw [List.append_nil]; rfl⟩, fun bytes pos path fuel _ _ _ => ?_⟩
    cases fuel with
    | zero => rfl
    | succ fuel => exact if_neg (Nat.lt_irrefl _)
  | cons e es ih =>
    obtain ⟨⟨hname, hdata⟩, hes⟩ := List.forall_mem_cons.mp hes
    obtain ⟨entry, hentry, hne, hread⟩ := writeEntry_spec hz hname hdata
    obtain ⟨tail, htail, hrest⟩ := ih hes
    refine ⟨entry ++ tail, fun out => ?_, fun bytes pos path fuel hbytes hat hfuel => ?_⟩
    · obtain ⟨offsets, htail⟩ := htail (out ++ entry)
      refine ⟨(out.length, entry.length) :: offsets, ?_⟩
      simp only [writeEntries, bind_eq_ok, pure_eq_ok]
      exact ⟨entry, hentry, _, htail, by rw [List.append_assoc]⟩
    · have hpos := List.length_pos_iff.mpr hne
      rw [List.length_append] at hfuel ⊢
      cases fuel with
      | zero => omega
      | succ fuel =>
        rw [readEntries, if_pos (by omega), ← Nat.add_assoc]
        simp only [bind_eq_ok, pure_eq_ok]
        exact ⟨_, hread bytes pos path hbytes hat.left, es,
          hrest bytes _ path fuel hbytes hat.right (by omega), rfl⟩

/-! ## The archive -/

/-- What the format can hold and the manifest scanner can read back. -/
structure CajetaArchive.Readable (a : CajetaArchive) : Prop where
  name : Plain a.name
  version : Plain a.version
  deps : a.kind = .uber → ∀ d ∈ a.deps, d.Plain
  manifest : a.Within a.buildManifest
  entries : ∀ e ∈ a.entries, e.name.length < 2 ^ 32 ∧ a.Within e.data

/-- The file once its header is patched. -/
def CajetaArchive.layout (a : CajetaArchive) (manifest tail index : ByteString) : ByteString :=
  archiveMagic ++ (toLE 4 formatVersion ++ (toLE 4 a.flags ++
    (toLE 8 (40 + manifest.length + tail.length) ++ (toLE 8 index.length ++
      (toLE 8 manifest.length ++ (manifest ++ (tail ++ index)))))))

theorem writeToStream_eq_layout
    (hmanifest : writeSection z a a.buildManifest = .ok (toLE 8 manifest.length ++ manifest))
    (htail : ∀ out, ∃ offsets, writeEntries z a out a.entries = .ok (out ++ tail, offsets)) :
    ∃ index, a.writeToStream z = .ok (a.layout manifest tail index) := by
  have hmagic : archiveMagic.length = 8 := by decide
  simp only [CajetaArchive.writeToStream, bind_eq_ok, pure_eq_ok]
  obtain ⟨offsets, hentries⟩ := htail ((archiveMagic ++ toLE 4 formatVersion ++ toLE 4 a.flags ++
    toLE 8 0 ++ toLE 8 0) ++ (toLE 8 manifest.length ++ manifest))
  refine ⟨writeIndex a.entries offsets, _, hmanifest, _, hentries, ?_⟩
  have hout : ((archiveMagic ++ toLE 4 formatVersion ++ toLE 4 a.flags ++ toLE 8 0 ++ toLE 8 0) ++
      (toLE 8 manifest.length ++ manifest) ++ tail).length =
      40 + manifest.length + tail.length := by
    simp only [List.length_append, length_toLE, hmagic]
    omega
  rw [hout]
  have hpatch := patch_append (archiveMagic ++ toLE 4 formatVersion ++ toLE 4 a.flags)
    (toLE 8 0 ++ toLE 8 0) (toLE 8 (40 + manifest.length + tail.length) ++
      toLE 8 (writeIndex a.entries offsets).length)
    ((toLE 8 manifest.length ++ manifest) ++ (tail ++ writeIndex a.entries offsets))
    (by simp only [List.length_append, length_toLE])
  simp only [List.length_append, length_toLE, hmagic, List.append_assoc] at hpatch
  simp only [CajetaArchive.layout, List.append_assoc]
  exact hpatch

theorem flags_spec (a : CajetaArchive) :
    a.flags ≤ (flagManifestCompressed ||| flagEntriesCompressed) ∧
      a.flags.testBit 0 = a.compressed ∧ a.flags.testBit 1 = a.compressed := by
  unfold CajetaArchive.flags
  cases a.compressed <;> decide

theorem readFromBytes_layout (path : String)
    (hbytes : (a.layout manifest tail index).length < 2 ^ 64)
    (hmanifest : ∀ bytes pos tooShort, At bytes pos manifest →
      readSection z bytes a.compressed pos manifest.length tooShort = .ok m)
    (htail : ∀ bytes pos path fuel, bytes.length < 2 ^ 64 → At bytes pos tail →
      tail.length ≤ fuel →
        readEntries z bytes a.compressed path (pos + tail.length) fuel pos = .ok es) :
    ∃ b, readFromBytes z (a.layout manifest tail index) path = .ok b ∧
      b.name = scanManifestString m (ascii "name") ∧
      b.version = scanManifestString m (ascii "version") ∧
      b.kind = (if scanManifestString m (ascii "kind") = ascii "uber" then Kind.uber else .cja) ∧
      (b.kind = .uber → b.deps = scanManifestDeps m) ∧ b.entries = es := by
  have hmagic : archiveMagic.length = 8 := by decide
  obtain ⟨bytes, hlayout⟩ : ∃ bytes, bytes = a.layout manifest tail index := ⟨_, rfl⟩
  rw [← hlayout] at hbytes ⊢
  have hlength : bytes.length = 40 + manifest.length + tail.length + index.length := by
    rw [hlayout]
    simp only [CajetaArchive.layout, List.length_append, length_toLE, hmagic]
    omega
  -- The fields one after another, each behind the one before.
  have hat : At bytes 0 (a.layout manifest tail index) := hlayout ▸ List.prefix_refl _
  unfold CajetaArchive.layout at hat
  have hversion := hat.right
  have hflags := hversion.right
  have hindexOff := hflags.right
  have hmanifestLen := hindexOff.right.right
  have hbody := hmanifestLen.right
  have htailAt := hbody.right.left
  simp only [hmagic, length_toLE, Nat.zero_add, Nat.reduceAdd]
    at hversion hflags hindexOff hmanifestLen hbody htailAt
  have hmagicAt := hat.left.slice
  rw [hmagic] at hmagicAt
  have hflagsLe := (flags_spec a).1
  have hindexOffVal := hindexOff.left.readLE (by rw [hlength] at hbytes; omega)
  have hmanifestLenVal := hmanifestLen.left.readLE (by rw [hlength] at hbytes; omega)
  have hversionVal := hversion.left.readLE (by decide)
  have hflagsVal := hflags.left.readLE (Nat.lt_of_le_of_lt hflagsLe (by decide))
  have hoff : 40 + manifest.length + tail.length ≠ 0 := by omega
  have hentries := htail bytes (40 + manifest.length) path bytes.length hbytes htailAt (by omega)
  simp only [readFromBytes, bind_eq_ok, require_eq_ok, pure_eq_ok, hmagicAt, hversionVal, hflagsVal,
    hindexOffVal, hmanifestLenVal, (flags_spec a).2.1, (flags_spec a).2.2, ne_eq, hoff,
    not_false_iff, if_true]
  refine ⟨_, ⟨(), by omega, (), trivial, (), rfl, (), hflagsLe, (), by omega, (), by omega, m,
    hmanifest _ _ _ hbody.left, (), by omega, es, hentries, rfl⟩, rfl, rfl, rfl,
    fun h => if_pos h, rfl⟩

/-- The archive is written, and what is read from the file named `path` is the same archive. -/
def CajetaArchive.ReadsBack (z : Zstd) (a : CajetaArchive) (path : String) : Prop :=
  ∃ bytes b, a.writeToStream z = .ok bytes ∧ readFromBytes z bytes path = .ok b ∧
    b.name = a.name ∧ b.version = a.version ∧ b.kind = a.kind ∧
    (a.kind = .uber → b.deps = a.deps) ∧ b.entries = a.entries

/-- Reading undoes writing, compressed or not, with duplicate and empty entries. -/
theorem readFromBytes_writeToStream (hz : z.Lossless) (ha : a.Readable) (path : String) :
    ∃ bytes, a.writeToStream z = .ok bytes ∧ (bytes.length < 2 ^ 64 → a.ReadsBack z path) := by
  obtain ⟨manifest, hwrite, hmanifest⟩ := writeSection_spec hz ha.manifest
  obtain ⟨tail, hentries, htail⟩ := writeEntries_spec hz ha.entries
  obtain ⟨index, hlayout⟩ := writeToStream_eq_layout hwrite hentries
  refine ⟨_, hlayout, fun hbytes => ?_⟩
  obtain ⟨b, hread, hname, hversion, hkind, hdeps, hentries⟩ :=
    readFromBytes_layout path hbytes hmanifest htail
  rw [scan_name ha.name] at hname
  rw [scan_version ha.name ha.version] at hversion
  have hkind' : b.kind = a.kind := by
    rw [hkind, scan_kind ha.name ha.version]
    simp only [kindName_eq_uber]
    cases a.kind <;> rfl
  refine ⟨_, b, hlayout, hread, hname, hversion, hkind', fun huber => ?_, hentries⟩
  rw [hdeps (hkind' ▸ huber),
    scanManifestDeps_buildManifest ha.name ha.version huber (ha.deps huber)]

def storing : Zstd where
  compress _ src := .ok src
  frameContentSize frame := some frame.length
  decompress src _ := .ok src

theorem storing_lossless : storing.Lossless := fun _ src _ => ⟨src, rfl, rfl, rfl⟩

/-- A program with one library, a duplicate entry and an empty one. -/
def sample (lib : DepSummary) : CajetaArchive where
  name := ascii "dev.app"
  version := ascii "1.0"
  kind := .uber
  entries := [{ name := ascii "a.o", data := [1, 2] }, { name := ascii "a.o", data := [] }]
  deps := [lib]

theorem readFromBytes_writeToStream_sample :
    (sample { name := ascii "dev.lib", version := ascii "2.1" }).ReadsBack storing "app.cja" := by
  have hreadable : (sample { name := ascii "dev.lib", version := ascii "2.1" }).Readable :=
    ⟨by decide +kernel, by decide +kernel, fun _ => List.forall_mem_singleton.mpr
      ⟨by decide +kernel, by decide +kernel, by decide +kernel⟩, fun _ => by decide +kernel,
      by decide +kernel⟩
  obtain ⟨bytes, hwrite, hread⟩ :=
    readFromBytes_writeToStream storing_lossless hreadable "app.cja"
  have hlength : ((sample { name := ascii "dev.lib", version := ascii "2.1" }).writeToStream
      storing).toOption.all (·.length < 2 ^ 64) := by decide +kernel
  rw [hwrite] at hlength
  exact hread (of_decide_eq_true hlength)

theorem readEntry_name_lt (h : readEntry z bytes c path pos = .ok (e, pos')) :
    e.name.length < 2 ^ 32 := by
  simp only [readEntry, bind_eq_ok, pure_eq_ok, Prod.mk.injEq] at h
  obtain ⟨-, -, -, -, -, -, -, -, data, -, he, -⟩ := h
  rw [← he]
  exact Nat.lt_of_le_of_lt (length_slice_le _ _ _) (readLE_lt 4 _ _)

theorem readEntries_name_lt (h : readEntries z bytes c path entriesEnd fuel pos = .ok es) :
    ∀ e ∈ es, e.name.length < 2 ^ 32 := by
  induction fuel generalizing pos es with
  | zero =>
    cases h
    nofun
  | succ fuel ih =>
    rw [readEntries] at h
    split at h
    · simp only [bind_eq_ok, pure_eq_ok] at h
      obtain ⟨⟨e, pos'⟩, he, es', hes, rfl⟩ := h
      exact List.forall_mem_cons.mpr ⟨readEntry_name_lt he, ih hes⟩
    · cases h
      nofun

theorem readFromBytes_name_lt (h : readFromBytes z bytes path = .ok b) :
    ∀ e ∈ b.entries, e.name.length < 2 ^ 32 := by
  simp only [readFromBytes, bind_eq_ok, pure_eq_ok] at h
  obtain ⟨-, -, -, -, -, -, -, -, -, -, -, -, -, -, -, -, es, hes, rfl⟩ := h
  exact readEntries_name_lt hes

/-- A quote in a dependency's version cuts it, a dependency without a name is dropped, and the
length of a name has four bytes. -/
theorem not_readsBack : storing.Lossless ∧
    ¬ (sample { name := ascii "dev.lib", version := ascii "2\"1" }).ReadsBack storing "app.cja" ∧
    ¬ (sample { name := [], version := ascii "2.1" }).ReadsBack storing "app.cja" ∧
    ¬ ({ name := ascii "dev.app", version := ascii "1.0", kind := .cja,
         entries := [{ name := List.replicate (2 ^ 32) 0x61, data := [] }] } :
        CajetaArchive).ReadsBack storing "app.cja" := by
  have hread : ∀ lib,
      ((sample lib).writeToStream storing >>= (readFromBytes storing · "app.cja")).toOption.all
        (·.deps ≠ [lib]) = true → ¬ (sample lib).ReadsBack storing "app.cja" := by
    rintro lib hdeps ⟨bytes, b, hwrite, hread, -, -, -, hsame, -⟩
    rw [hwrite] at hdeps
    change (readFromBytes storing bytes "app.cja").toOption.all _ = true at hdeps
    rw [hread] at hdeps
    exact of_decide_eq_true hdeps (hsame rfl)
  refine ⟨storing_lossless, hread _ (by decide +kernel), hread _ (by decide +kernel), ?_⟩
  rintro ⟨bytes, b, -, hb, -, -, -, -, hentries⟩
  have hlt := readFromBytes_name_lt hb
  rw [hentries] at hlt
  have hlong := hlt _ (List.mem_singleton_self _)
  rw [List.length_replicate] at hlong
  exact Nat.lt_irrefl _ hlong

end Cajeta.Compile
