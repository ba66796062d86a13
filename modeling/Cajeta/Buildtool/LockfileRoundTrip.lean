import Cajeta.Buildtool.Lockfile
import Mathlib.Data.List.Forall2

/-!
# Round trips of a lockfile

A section is written as it was read when it has no row. When it has rows, the writer knows the
fields of a row only, and the round trip keeps its entries exactly when these are all they have.
-/

namespace Cajeta.Buildtool

theorem get_entries (m : Fields) (key : String) : JObject.get m.entries key = m.find? key := by
  unfold JObject.get SortedMap.find?
  simp only [beq_eq_decide]

theorem get_ofList (fields : List (String × Json)) (key : String) :
    JObject.get (Fields.ofList fields).entries key = SortedMap.written fields key := by
  rw [get_entries]
  exact SortedMap.find?_foldl_insert fields .empty _ (fun _ => rfl) key

/-- Every field of the one is in the other, with the same value. -/
def FieldsKept (o o' : JObject) : Prop := ∀ key v, o.get key = some v → o'.get key = some v

theorem stringOf_of_get (h : JObject.get o key = some (.str s)) : stringOf o key = s := by
  unfold stringOf JObject.getString
  rw [h]
  rfl

theorem stringsOf_of_get (h : JObject.get o key = some (.arr (items.map .str))) :
    stringsOf o key = items := by
  unfold stringsOf JObject.getArray
  rw [h]
  change (items.map Json.str).filterMap Json.getAsString = items
  rw [List.filterMap_map]
  exact List.filterMap_some

namespace Rows

variable {rows : Rows α}

/-- The entry has a row, and no more than what the row says. -/
structure Fits (rows : Rows α) (o : JObject) : Prop where
  named : rows.named (rows.read o) = true
  fields : FieldsKept o (rows.write (rows.read o)).entries
  row : rows.read (rows.write (rows.read o)).entries = rows.read o

theorem objects_written (typed : List α) :
    (typed.map fun row => (rows.write row).toJson).filterMap Json.getAsObject =
      typed.map fun row => (rows.write row).entries := by
  rw [List.filterMap_map]
  change typed.filterMap (fun row => some (rows.write row).entries) = _
  rw [List.filterMap_eq_map']

theorem written_of_ne_nil {typed : List α} (h : typed ≠ []) :
    rows.written typed raw = typed.map fun row => (rows.write row).toJson :=
  if_neg (by simpa using h)

theorem written_nil : rows.written [] raw = raw := rfl

theorem filter_eq_of_length {l : List α} (h : (l.filter p).length = l.length) : l.filter p = l :=
  List.filter_eq_self.mpr (List.length_filter_eq_length_iff.mp h)

theorem forall₂_fieldsKept_iff (rows : Rows α) {objects : List JObject} {typed : List α}
    (htyped : typed = (objects.map rows.read).filter rows.named) :
    (List.Forall₂ FieldsKept objects (typed.map fun row => (rows.write row).entries) ∧
      ((typed.map fun row => (rows.write row).entries).map rows.read).filter rows.named = typed) ↔
    ∀ o ∈ objects, rows.Fits o := by
  constructor
  · rintro ⟨hkept, hagain⟩
    have hlength := hkept.length_eq
    rw [List.length_map] at hlength
    have hall : typed = objects.map rows.read := by
      rw [htyped]
      exact filter_eq_of_length (by rw [← htyped, List.length_map, hlength])
    have hnamed : ∀ row ∈ objects.map rows.read, rows.named row := by
      rw [← List.filter_eq_self, ← htyped, hall]
    rw [hall, List.forall₂_map_right_iff, List.forall₂_map_right_iff, List.forall₂_same] at hkept
    have hrows : ((typed.map fun row => (rows.write row).entries).map rows.read) = typed := by
      refine (filter_eq_of_length ?_).symm.trans hagain
      rw [hagain, List.length_map, List.length_map]
    rw [hall, List.map_map, List.map_map, List.map_inj_left] at hrows
    exact fun o ho =>
      ⟨hnamed _ (List.mem_map_of_mem ho), hkept o ho, hrows o ho⟩
  · intro hfits
    have hall : typed = objects.map rows.read := by
      rw [htyped, List.filter_eq_self]
      intro row hrow
      obtain ⟨o, ho, rfl⟩ := List.mem_map.mp hrow
      exact (hfits o ho).named
    have hrows : ((typed.map fun row => (rows.write row).entries).map rows.read) = typed := by
      rw [hall, List.map_map, List.map_map, List.map_inj_left]
      exact fun o ho => (hfits o ho).row
    refine ⟨?_, ?_⟩
    · rw [hall, List.forall₂_map_right_iff, List.forall₂_map_right_iff, List.forall₂_same]
      exact fun o ho => (hfits o ho).fields
    · rw [hrows]
      conv_rhs => rw [htyped]
      rw [htyped, List.filter_filter]
      simp only [Bool.and_self]

theorem kept_iff (rows : Rows α) (raw : List Json) :
    (List.Forall₂ FieldsKept (raw.filterMap Json.getAsObject)
        ((rows.written (rows.typed raw) raw).filterMap Json.getAsObject) ∧
      rows.typed (rows.written (rows.typed raw) raw) = rows.typed raw) ↔
    (∀ o ∈ raw.filterMap Json.getAsObject, rows.named (rows.read o) = false) ∨
      ∀ o ∈ raw.filterMap Json.getAsObject, rows.Fits o := by
  have hnone : rows.typed raw = [] ↔
      ∀ o ∈ raw.filterMap Json.getAsObject, rows.named (rows.read o) = false := by
    rw [typed, List.filter_eq_nil_iff, List.forall_mem_map]
    simp only [Bool.not_eq_true]
  by_cases hnil : rows.typed raw = []
  · rw [hnil, written_nil, hnil]
    exact ⟨fun _ => .inl (hnone.mp hnil), fun _ =>
      ⟨List.forall₂_same.mpr fun _ _ _ _ h => h, rfl⟩⟩
  · rw [← hnone, or_iff_right hnil, ← forall₂_fieldsKept_iff rows rfl, written_of_ne_nil hnil,
      objects_written]
    unfold typed
    rw [objects_written]

end Rows

/-! ## Packages -/

theorem get_write_package (p : ResolvedPackageEntry) (key : String) :
    JObject.get (packageRows.write p).entries key =
      if key = "member" then
        if p.memberOwner.isEmpty then none else some (.str p.memberOwner)
      else if key = "provided-by" then
        some (.str (if p.providedBy.isEmpty then "explicit" else p.providedBy))
      else if key = "checksum" then some (.str p.checksum)
      else if key = "resolved-from" then some (.str p.resolvedFromRepo)
      else if key = "version" then some (.str p.version)
      else if key = "name" then some (.str p.name)
      else none := by
  have hwritten : ∀ fields : List (String × Json),
      JObject.get (Fields.ofList fields).entries key = SortedMap.written fields key :=
    fun fields => get_ofList fields key
  unfold packageRows
  dsimp only
  by_cases hmember : p.memberOwner.isEmpty
  · rw [if_pos hmember, if_pos hmember, hwritten]
    simp only [SortedMap.written, List.foldl_cons, List.foldl_nil, Function.update_apply]
    by_cases hkey : key = "member"
    · subst hkey
      simp
    · rw [if_neg hkey]
  · rw [if_neg hmember, if_neg hmember, get_entries, SortedMap.find?_insert, ← get_entries,
      hwritten]
    simp only [SortedMap.written, List.foldl_cons, List.foldl_nil, Function.update_apply,
      eq_comm (a := "member")]

theorem stringOf_write_package (p : ResolvedPackageEntry) :
    stringOf (packageRows.write p).entries "name" = p.name ∧
    stringOf (packageRows.write p).entries "version" = p.version ∧
    stringOf (packageRows.write p).entries "resolved-from" = p.resolvedFromRepo ∧
    stringOf (packageRows.write p).entries "checksum" = p.checksum ∧
    stringOf (packageRows.write p).entries "provided-by" =
      (if p.providedBy.isEmpty then "explicit" else p.providedBy) ∧
    stringOf (packageRows.write p).entries "member" = p.memberOwner := by
  refine ⟨?_, ?_, ?_, ?_, ?_, ?_⟩
  case refine_6 =>
    unfold stringOf JObject.getString
    rw [get_write_package, if_pos rfl]
    by_cases hmember : p.memberOwner.isEmpty
    · rw [if_pos hmember]
      exact (String.isEmpty_iff.mp hmember).symm
    · rw [if_neg hmember]
      rfl
  all_goals
    refine stringOf_of_get ?_
    rw [get_write_package]
    simp

/-- All fields of the entry are strings that a row keeps; an empty one is kept only where the reader
takes a missing one for it. -/
structure PackageFits (o : JObject) : Prop where
  known : ∀ key v, o.get key = some v → key ∈ ["name", "version", "resolved-from", "checksum",
    "provided-by", "member"] ∧ ∃ s, v = .str s
  name : stringOf o "name" ≠ ""
  version : stringOf o "version" ≠ ""
  providedBy : stringOf o "provided-by" ≠ ""
  member : o.get "member" ≠ some (.str "")

theorem package_fits_iff (o : JObject) : packageRows.Fits o ↔ PackageFits o := by
  have hwrite := stringOf_write_package (packageRows.read o)
  constructor
  · intro h
    have hnamed := h.named
    rw [Rows.named, Bool.and_eq_true, decide_eq_true_iff, decide_eq_true_iff] at hnamed
    refine ⟨fun key v hget => ?_, hnamed.1, hnamed.2, fun hempty => ?_, fun hempty => ?_⟩
    · have hkept := h.fields key v hget
      rw [get_write_package] at hkept
      grind
    · have hrow := congrArg ResolvedPackageEntry.providedBy h.row
      have hexplicit := hwrite.2.2.2.2.1
      change stringOf _ _ = stringOf o "provided-by" at hrow
      have hmissing : (packageRows.read o).providedBy = "" := hempty
      rw [hrow, hmissing, hempty] at hexplicit
      exact absurd hexplicit (by decide)
    · have hkept := h.fields _ _ hempty
      have howner : (packageRows.read o).memberOwner = "" := stringOf_of_get hempty
      rw [get_write_package, if_pos rfl, howner] at hkept
      cases hkept
  · intro h
    have hprovided : (packageRows.read o).providedBy.isEmpty = false := by
      rw [Bool.eq_false_iff, Ne, String.isEmpty_iff]
      exact h.providedBy
    refine ⟨?_, fun key v hget => ?_, ?_⟩
    · rw [Rows.named, Bool.and_eq_true, decide_eq_true_iff, decide_eq_true_iff]
      exact ⟨h.name, h.version⟩
    · obtain ⟨hkey, s, rfl⟩ := h.known key v hget
      have hs := stringOf_of_get hget
      rw [get_write_package, hprovided]
      simp only [List.mem_cons, List.not_mem_nil, or_false] at hkey
      rcases hkey with rfl | rfl | rfl | rfl | rfl | rfl
      case inr.inr.inr.inr.inr =>
        have howner : (packageRows.read o).memberOwner.isEmpty = false := by
          rw [Bool.eq_false_iff, Ne, String.isEmpty_iff]
          rintro hempty
          exact h.member (hget.trans (by rw [← hs]; exact congrArg (some ∘ Json.str) hempty))
        rw [if_pos rfl, howner]
        exact congrArg (some ∘ Json.str) hs
      all_goals
        simp
        exact hs
    · rw [hprovided] at hwrite
      change ResolvedPackageEntry.mk _ _ _ _ _ _ = packageRows.read o
      rw [hwrite.1, hwrite.2.1, hwrite.2.2.1, hwrite.2.2.2.1, hwrite.2.2.2.2.1, hwrite.2.2.2.2.2]
      rfl

section Listed

variable {key : String}

theorem get_write_listed (key : String) (e : ListedEntry) (k : String) :
    JObject.get ((listedRows key).write e).entries k =
      if k = key then some (.arr (e.items.map .str))
      else if k = "checksum" then some (.str e.checksum)
      else if k = "resolved-from" then some (.str e.resolvedFromRepo)
      else if k = "version" then some (.str e.version)
      else if k = "name" then some (.str e.name)
      else none := by
  unfold listedRows
  dsimp only
  rw [get_ofList]
  simp only [SortedMap.written, List.foldl_cons, List.foldl_nil, Function.update_apply]

theorem read_write_listed (hkey : key ∉ ["name", "version", "resolved-from", "checksum"])
    (e : ListedEntry) : (listedRows key).read ((listedRows key).write e).entries = e := by
  simp only [List.mem_cons, List.not_mem_nil, or_false, not_or] at hkey
  obtain ⟨hname, hversion, hfrom, hchecksum⟩ := hkey
  have htext : ∀ k s, JObject.get ((listedRows key).write e).entries k = some (.str s) →
      stringOf ((listedRows key).write e).entries k = s := fun _ _ h => stringOf_of_get h
  have hitems : stringsOf ((listedRows key).write e).entries key = e.items :=
    stringsOf_of_get (by rw [get_write_listed, if_pos rfl])
  change ListedEntry.mk _ _ _ _ _ = e
  rw [htext "name" e.name (by rw [get_write_listed, if_neg (Ne.symm hname)]; simp),
    htext "version" e.version (by rw [get_write_listed, if_neg (Ne.symm hversion)]; simp),
    htext "resolved-from" e.resolvedFromRepo
      (by rw [get_write_listed, if_neg (Ne.symm hfrom)]; simp),
    htext "checksum" e.checksum (by rw [get_write_listed, if_neg (Ne.symm hchecksum)]; simp),
    hitems]

/-- All fields of the entry are strings that a row keeps, and its list is one of strings. -/
structure ListedFits (key : String) (o : JObject) : Prop where
  known : ∀ k v, o.get k = some v →
    (k ∈ ["name", "version", "resolved-from", "checksum"] ∧ ∃ s, v = .str s) ∨
    (k = key ∧ ∃ items : List String, v = .arr (items.map .str))
  name : stringOf o "name" ≠ ""
  version : stringOf o "version" ≠ ""

theorem listed_fits_iff (hkey : key ∉ ["name", "version", "resolved-from", "checksum"])
    (o : JObject) : (listedRows key).Fits o ↔ ListedFits key o := by
  constructor
  · intro h
    have hnamed := h.named
    rw [Rows.named, Bool.and_eq_true, decide_eq_true_iff, decide_eq_true_iff] at hnamed
    refine ⟨fun k v hget => ?_, hnamed.1, hnamed.2⟩
    have hkept := h.fields k v hget
    rw [get_write_listed] at hkept
    grind
  · intro h
    refine ⟨?_, fun k v hget => ?_, read_write_listed hkey _⟩
    · rw [Rows.named, Bool.and_eq_true, decide_eq_true_iff, decide_eq_true_iff]
      exact ⟨h.name, h.version⟩
    · rw [get_write_listed]
      rcases h.known k v hget with ⟨hmem, s, rfl⟩ | ⟨rfl, items, rfl⟩
      · rw [if_neg (fun heq : k = key => hkey (heq ▸ hmem))]
        have hs := stringOf_of_get hget
        simp only [List.mem_cons, List.not_mem_nil, or_false] at hmem
        rcases hmem with rfl | rfl | rfl | rfl
        all_goals
          simp
          exact hs
      · rw [if_pos rfl]
        exact congrArg (fun items : List String => some (Json.arr (items.map .str)))
          (stringsOf_of_get hget)

end Listed

/-! ## The document -/

section Document

variable {parse : String → Except String Json} {print : Json → String} {path text : String}
  {root : JObject} {lf : Lockfile}

/-- The entries of a section that are objects. -/
def objectsOf (root : JObject) (key : String) : List JObject :=
  ((root.getArray key).getD []).filterMap Json.getAsObject

/-- What a lockfile holds of the sections of the document it was read from. -/
structure Holds (lf : Lockfile) (root : JObject) : Prop where
  packages : lf.packagesRaw = (root.getArray "packages").getD []
  packageRows : lf.packagesTyped = packageRows.typed lf.packagesRaw
  melts : lf.meltsRaw = (root.getArray "melts").getD []
  meltRows : lf.meltsTyped = meltRows.typed lf.meltsRaw
  plugins : lf.pluginsRaw = (root.getArray "plugins").getD []
  pluginRows : lf.pluginsTyped = pluginRows.typed lf.pluginsRaw

theorem holds_of_read (hparse : parse text = .ok (.obj root))
    (hread : readLockfile parse path (.ok text) = .ok lf) : Holds lf root := by
  unfold readLockfile at hread
  change ((parse text).mapError _ >>= _) = _ at hread
  rw [hparse] at hread
  dsimp only [Except.mapError, Bind.bind, Except.bind, Json.getAsObject] at hread
  cases hversion : root.getInteger "lockfile-version" with
  | none =>
    rw [hversion] at hread
    cases hread
  | some version =>
    rw [hversion] at hread
    cases hchecksum : root.getString "manifest-checksum" with
    | none =>
      rw [hchecksum] at hread
      cases hread
    | some checksum =>
      rw [hchecksum] at hread
      cases hread
      exact ⟨rfl, rfl, rfl, rfl, rfl, rfl⟩

theorem exists_read (path : String) (hparse : parse text = .ok (.obj root))
    (hversion : root.getInteger "lockfile-version" = some version)
    (hchecksum : root.getString "manifest-checksum" = some checksum) :
    ∃ lf, readLockfile parse path (.ok text) = .ok lf := by
  unfold readLockfile
  change ∃ lf, ((parse text).mapError _ >>= _) = _
  rw [hparse]
  dsimp only [Except.mapError, Bind.bind, Except.bind, Json.getAsObject]
  rw [hversion, hchecksum]
  exact ⟨_, rfl⟩

theorem get_fields (lf : Lockfile) (key : String) :
    JObject.get lf.fields.entries key =
      if key = "workspace" then
        if lf.isWorkspace then
          some (Fields.ofList [("members", .arr (lf.workspaceMembers.map (·.toJson)))]).toJson
        else none
      else if key = "overrides" then some (.arr lf.overrides)
      else if key = "plugins" then some (.arr (pluginRows.written lf.pluginsTyped lf.pluginsRaw))
      else if key = "melts" then some (.arr (meltRows.written lf.meltsTyped lf.meltsRaw))
      else if key = "packages" then
        some (.arr (packageRows.written lf.packagesTyped lf.packagesRaw))
      else if key = "properties" then some (Fields.ofList
        (lf.properties.entries.map fun kv => (kv.1, .str kv.2))).toJson
      else if key = "resolved-at" then some (.str lf.resolvedAt)
      else if key = "generator" then some (Fields.ofList [
        ("tool", .str lf.generatorTool), ("version", .str lf.generatorVersion)]).toJson
      else if key = "manifest-checksum" then some (.str lf.manifestChecksum)
      else if key = "lockfile-version" then some (.int lf.lockfileVersion)
      else none := by
  have hwritten : ∀ fields : List (String × Json),
      JObject.get (Fields.ofList fields).entries key = SortedMap.written fields key :=
    fun fields => get_ofList fields key
  unfold Lockfile.fields
  dsimp only
  by_cases hworkspace : lf.isWorkspace
  · rw [if_pos hworkspace, if_pos hworkspace, get_entries, SortedMap.find?_insert, ← get_entries,
      hwritten]
    simp only [SortedMap.written, List.foldl_cons, List.foldl_nil, Function.update_apply,
      eq_comm (a := "workspace")]
  · rw [if_neg hworkspace, if_neg hworkspace, hwritten]
    simp only [SortedMap.written, List.foldl_cons, List.foldl_nil, Function.update_apply]
    by_cases hkey : key = "workspace"
    · subst hkey
      simp
    · rw [if_neg hkey]

/-- Every entry of the three sections has kept its fields in the second text. -/
def EntriesKept (parse : String → Except String Json) (text text' : String) : Prop :=
  ∃ root root', parse text = .ok (.obj root) ∧ parse text' = .ok (.obj root') ∧
    ∀ key ∈ ["packages", "melts", "plugins"],
      List.Forall₂ FieldsKept (objectsOf root key) (objectsOf root' key)

def SameRows (parse : String → Except String Json) (path : String) (lf : Lockfile)
    (text' : String) : Prop :=
  ∃ lf', readLockfile parse path (.ok text') = .ok lf' ∧ lf'.packagesTyped = lf.packagesTyped ∧
    lf'.meltsTyped = lf.meltsTyped ∧ lf'.pluginsTyped = lf.pluginsTyped

def SectionFits (fits : JObject → Prop) (objects : List JObject) : Prop :=
  (∀ o ∈ objects, stringOf o "name" = "" ∨ stringOf o "version" = "") ∨ ∀ o ∈ objects, fits o

theorem section_kept_iff (rows : Rows α) (raw : List Json) {fits : JObject → Prop}
    (hname : ∀ o, rows.name (rows.read o) = stringOf o "name")
    (hversion : ∀ o, rows.version (rows.read o) = stringOf o "version")
    (hfits : ∀ o, rows.Fits o ↔ fits o) :
    (List.Forall₂ FieldsKept (raw.filterMap Json.getAsObject)
        ((rows.written (rows.typed raw) raw).filterMap Json.getAsObject) ∧
      rows.typed (rows.written (rows.typed raw) raw) = rows.typed raw) ↔
    SectionFits fits (raw.filterMap Json.getAsObject) := by
  have hnamed : ∀ o, rows.named (rows.read o) = false ↔
      stringOf o "name" = "" ∨ stringOf o "version" = "" := by
    intro o
    rw [Rows.named, hname, hversion, Bool.and_eq_false_iff, decide_eq_false_iff_not, not_not,
      decide_eq_false_iff_not, not_not]
  rw [rows.kept_iff, SectionFits]
  simp only [hnamed, hfits]

theorem entriesKept_iff {text' : String} (hparse : parse text = .ok (.obj root))
    (hparse' : parse text' = .ok (.obj root')) :
    EntriesKept parse text text' ↔
      List.Forall₂ FieldsKept (objectsOf root "packages") (objectsOf root' "packages") ∧
      List.Forall₂ FieldsKept (objectsOf root "melts") (objectsOf root' "melts") ∧
      List.Forall₂ FieldsKept (objectsOf root "plugins") (objectsOf root' "plugins") := by
  constructor
  · rintro ⟨root₁, root₂, h₁, h₂, hkept⟩
    rw [hparse] at h₁
    cases h₁
    rw [hparse'] at h₂
    cases h₂
    exact ⟨hkept _ (by simp), hkept _ (by simp), hkept _ (by simp)⟩
  · rintro ⟨hpackages, hmelts, hplugins⟩
    refine ⟨root, root', hparse, hparse', ?_⟩
    intro key hkey
    simp only [List.mem_cons, List.not_mem_nil, or_false] at hkey
    rcases hkey with rfl | rfl | rfl
    · exact hpackages
    · exact hmelts
    · exact hplugins

theorem sameRows_iff {text' : String} (hread' : readLockfile parse path (.ok text') = .ok lf') :
    SameRows parse path lf text' ↔ lf'.packagesTyped = lf.packagesTyped ∧
      lf'.meltsTyped = lf.meltsTyped ∧ lf'.pluginsTyped = lf.pluginsTyped := by
  constructor
  · rintro ⟨lf₂, hread₂, hrows⟩
    rw [hread'] at hread₂
    cases hread₂
    exact hrows
  · exact fun hrows => ⟨lf', hread', hrows⟩

/-- The round trip through a written lockfile keeps all entries and rows exactly when each section
fits. -/
theorem lockfile_roundTrip_iff (hparse : parse text = .ok (.obj root))
    (hread : readLockfile parse path (.ok text) = .ok lf)
    (hprint : parse (writeLockfile print lf) = .ok lf.fields.toJson) :
    (EntriesKept parse text (writeLockfile print lf) ∧
      SameRows parse path lf (writeLockfile print lf)) ↔
    SectionFits PackageFits (objectsOf root "packages") ∧
      SectionFits (ListedFits "transitive-melts") (objectsOf root "melts") ∧
      SectionFits (ListedFits "capabilities") (objectsOf root "plugins") := by
  have hholds := holds_of_read hparse hread
  have harray : ∀ key a, JObject.get lf.fields.entries key = some (.arr a) →
      (JObject.getArray lf.fields.entries key).getD [] = a := by
    intro key a hget
    unfold JObject.getArray
    rw [hget]
    rfl
  have hpackages := harray "packages" _ (by rw [get_fields]; simp; rfl)
  have hmelts := harray "melts" _ (by rw [get_fields]; simp; rfl)
  have hplugins := harray "plugins" _ (by rw [get_fields]; simp; rfl)
  have hversion : JObject.getInteger lf.fields.entries "lockfile-version" =
      some lf.lockfileVersion := by
    unfold JObject.getInteger
    rw [get_fields]
    simp
  have hchecksum : JObject.getString lf.fields.entries "manifest-checksum" =
      some lf.manifestChecksum := by
    unfold JObject.getString
    rw [get_fields]
    simp
  obtain ⟨lf', hread'⟩ := exists_read path hprint hversion hchecksum
  have hholds' := holds_of_read hprint hread'
  rw [entriesKept_iff hparse hprint, sameRows_iff hread', hholds'.packageRows, hholds'.packages,
    hholds'.meltRows, hholds'.melts, hholds'.pluginRows, hholds'.plugins]
  unfold objectsOf
  rw [hpackages, hmelts, hplugins, hholds.packageRows, hholds.packages, hholds.meltRows,
    hholds.melts, hholds.pluginRows, hholds.plugins]
  rw [← section_kept_iff packageRows _ (fun _ => rfl) (fun _ => rfl) package_fits_iff,
    ← section_kept_iff meltRows _ (fun _ => rfl) (fun _ => rfl) (listed_fits_iff (by decide)),
    ← section_kept_iff pluginRows _ (fun _ => rfl) (fun _ => rfl) (listed_fits_iff (by decide))]
  tauto

end Document

/-! ## Two lockfiles -/

def plainPackage : JObject :=
  [("name", .str "lib"), ("provided-by", .str "explicit"), ("version", .str "1")]

/-- A package with a field that has no place in a row. -/
def licensedPackage : JObject :=
  [("license", .str "MIT"), ("name", .str "lib"), ("provided-by", .str "explicit"),
    ("version", .str "1")]

def documentOf (package : JObject) : JObject :=
  [("lockfile-version", .int 1), ("manifest-checksum", .str ""), ("packages", .arr [.obj package])]

def packageText (package : String) : String :=
  "\x7b\"lockfile-version\":1,\"manifest-checksum\":\"\",\"packages\":[" ++ package ++ "]\x7d"

def plainText : String :=
  packageText "\x7b\"name\":\"lib\",\"provided-by\":\"explicit\",\"version\":\"1\"\x7d"

def licensedText : String := packageText
  "\x7b\"license\":\"MIT\",\"name\":\"lib\",\"provided-by\":\"explicit\",\"version\":\"1\"\x7d"

def lockfileOf (package : JObject) : Lockfile where
  packagesTyped := [{ name := "lib", version := "1", providedBy := "explicit" }]
  packagesRaw := [.obj package]

def printedText : String :=
  "\x7b\n  \"generator\": \x7b\n    \"tool\": \"cajeta\",\n    \"version\": \"\"\n  \x7d,\n" ++
  "  \"lockfile-version\": 1,\n  \"manifest-checksum\": \"\",\n  \"melts\": [],\n" ++
  "  \"overrides\": [],\n  \"packages\": [\n    \x7b\n      \"checksum\": \"\",\n" ++
  "      \"name\": \"lib\",\n      \"provided-by\": \"explicit\",\n" ++
  "      \"resolved-from\": \"\",\n      \"version\": \"1\"\n    \x7d\n  ],\n" ++
  "  \"plugins\": [],\n  \"properties\": \x7b\x7d,\n  \"resolved-at\": \"\"\n\x7d"

/-- What the parser answers for the three texts. -/
def parseSample (text : String) : Except String Json :=
  if text = plainText then .ok (.obj (documentOf plainPackage))
  else if text = licensedText then .ok (.obj (documentOf licensedPackage))
  else if text = printedText ++ "\n" then .ok (lockfileOf plainPackage).fields.toJson
  else .error "Expected value"

def printSample (_ : Json) : String := printedText

theorem last_append (s : String) {t : String} (ht : t.toList.getLast? = some c) :
    (s ++ t).toList.getLast? = some c := by
  rw [String.toList_append, List.getLast?_append, ht]
  rfl

theorem append_cancel {a b s t : String} (h : a ++ s ++ b = a ++ t ++ b) : s = t := by
  simpa [← String.toList_inj] using h

theorem packageText_last (package : String) :
    (packageText package).toList.getLast? = some '\x7d' := by
  unfold packageText
  exact last_append _ (by decide)

theorem append_newline_ne (s package : String) : s ++ "\n" ≠ packageText package := by
  intro h
  have hlast := packageText_last package
  have hnewline : (s ++ "\n").toList.getLast? = some '\n' := last_append s (by decide)
  rw [← h, hnewline] at hlast
  exact absurd hlast (by decide)

theorem writeLockfile_append (s t : String) (ht : t.toList.getLast? = some '\x7d') (lf : Lockfile) :
    writeLockfile (fun _ => s ++ t) lf = s ++ t ++ "\n" := by
  have hlast := last_append s ht
  refine if_neg ?_
  rw [hlast, Bool.or_eq_true, not_or]
  refine ⟨fun hempty => ?_, by decide⟩
  have hnil : s ++ t = "" := String.isEmpty_iff.mp hempty
  rw [hnil] at hlast
  cases hlast

theorem parseSample_written (lf : Lockfile) : parseSample (writeLockfile printSample lf) =
    .ok (lockfileOf plainPackage).fields.toJson := by
  have hwrite : writeLockfile printSample lf = printedText ++ "\n" :=
    writeLockfile_append _ _ (by decide +kernel) lf
  have hplain : printedText ++ "\n" ≠ plainText := append_newline_ne _ _
  have hlicensed : printedText ++ "\n" ≠ licensedText := append_newline_ne _ _
  rw [hwrite, parseSample, if_neg hplain, if_neg hlicensed, if_pos rfl]

theorem plainText_kept : EntriesKept parseSample plainText
      (writeLockfile printSample (lockfileOf plainPackage)) ∧
    SameRows parseSample "cajeta.lock" (lockfileOf plainPackage)
      (writeLockfile printSample (lockfileOf plainPackage)) := by
  have hparse : parseSample plainText = .ok (.obj (documentOf plainPackage)) := if_pos rfl
  have hread : readLockfile parseSample "cajeta.lock" (.ok plainText) =
      .ok (lockfileOf plainPackage) := by
    unfold readLockfile
    dsimp only [Except.mapError, Bind.bind, Except.bind]
    rw [hparse]
    rfl
  refine (lockfile_roundTrip_iff hparse hread (parseSample_written _)).mpr
    ⟨.inr ?_, .inr ?_, .inr ?_⟩
  · intro o ho
    obtain rfl : o = plainPackage := List.mem_singleton.mp ho
    refine ⟨fun key v hget => ?_, by decide, by decide, by decide, fun h => ?_⟩
    · unfold plainPackage JObject.get at hget
      simp only [List.find?_cons] at hget
      grind
    · cases h
  · exact fun o ho => absurd ho List.not_mem_nil
  · exact fun o ho => absurd ho List.not_mem_nil

/-- The license of a package is not in the lockfile that is written for it. -/
theorem licensedText_dropped : ¬∀ (parse : String → Except String Json) (print : Json → String)
    (path text : String) (root : JObject) (lf : Lockfile), parse text = .ok (.obj root) →
    readLockfile parse path (.ok text) = .ok lf →
    parse (writeLockfile print lf) = .ok lf.fields.toJson →
    EntriesKept parse text (writeLockfile print lf) ∧
      SameRows parse path lf (writeLockfile print lf) := by
  intro h
  have hparse : parseSample licensedText = .ok (.obj (documentOf licensedPackage)) := by
    have hplain : licensedText ≠ plainText := fun h => absurd (append_cancel h) (by decide)
    rw [parseSample, if_neg hplain, if_pos rfl]
  have hread : readLockfile parseSample "cajeta.lock" (.ok licensedText) =
      .ok (lockfileOf licensedPackage) := by
    unfold readLockfile
    dsimp only [Except.mapError, Bind.bind, Except.bind]
    rw [hparse]
    rfl
  obtain ⟨hkept, -⟩ := h parseSample printSample _ _ _ _ hparse hread (parseSample_written _)
  rw [entriesKept_iff hparse (parseSample_written _)] at hkept
  obtain ⟨hpackages, -⟩ := hkept
  cases hpackages with
  | cons hfields => cases hfields "license" (.str "MIT") rfl

end Cajeta.Buildtool
