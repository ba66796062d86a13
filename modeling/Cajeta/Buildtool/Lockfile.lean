import Cajeta.Json
import Cajeta.Lib.SortedMap
import Mathlib.Data.String.Basic

/-!
# The lockfile

`cajeta.lock` records what a build was resolved to. Each of its sections is kept twice: as typed
rows and as the array it was read from. The writer takes the rows, and the array only when there are
none.
-/

namespace Cajeta.Buildtool

/-- An object holds its fields in the order of their keys, as they are printed. -/
abbrev Fields := SortedMap String Json

namespace Fields

def ofList (fields : List (String × Json)) : Fields :=
  fields.foldl (fun m f => m.insert f.1 f.2) .empty

def toJson (m : Fields) : Json := .obj m.entries

end Fields

/-- The string in a field, empty when there is none. -/
def stringOf (o : JObject) (key : String) : String := (o.getString key).getD ""

def stringsOf (o : JObject) (key : String) : List String :=
  ((o.getArray key).getD []).filterMap Json.getAsString

structure ResolvedPackageEntry where
  name : String := ""
  version : String := ""
  resolvedFromRepo : String := ""
  checksum : String := ""
  providedBy : String := ""
  memberOwner : String := ""
  deriving DecidableEq

/-- A melt with the melts it includes, or a plugin with its capabilities. -/
structure ListedEntry where
  name : String := ""
  version : String := ""
  resolvedFromRepo : String := ""
  checksum : String := ""
  items : List String := []
  deriving DecidableEq

abbrev ResolvedMeltEntry := ListedEntry

abbrev ResolvedPluginEntry := ListedEntry

structure Rows (α : Type) where
  read : JObject → α
  name : α → String
  version : α → String
  write : α → Fields

namespace Rows

def named (rows : Rows α) (row : α) : Bool := rows.name row ≠ "" && rows.version row ≠ ""

/-- The rows of an array. An entry that is no object is passed over. -/
def typed (rows : Rows α) (raw : List Json) : List α :=
  ((raw.filterMap Json.getAsObject).map rows.read).filter rows.named

def written (rows : Rows α) (typed : List α) (raw : List Json) : List Json :=
  if typed.isEmpty then raw else typed.map fun row => (rows.write row).toJson

end Rows

def packageRows : Rows ResolvedPackageEntry where
  read o := {
    name := stringOf o "name"
    version := stringOf o "version"
    resolvedFromRepo := stringOf o "resolved-from"
    checksum := stringOf o "checksum"
    providedBy := stringOf o "provided-by"
    memberOwner := stringOf o "member" }
  name := (·.name)
  version := (·.version)
  write p :=
    let obj := Fields.ofList [
      ("name", .str p.name),
      ("version", .str p.version),
      ("resolved-from", .str p.resolvedFromRepo),
      ("checksum", .str p.checksum),
      ("provided-by", .str (if p.providedBy.isEmpty then "explicit" else p.providedBy))]
    if p.memberOwner.isEmpty then obj else obj.insert "member" (.str p.memberOwner)

/-- Rows with an array of strings in the field `key`. -/
def listedRows (key : String) : Rows ListedEntry where
  read o := {
    name := stringOf o "name"
    version := stringOf o "version"
    resolvedFromRepo := stringOf o "resolved-from"
    checksum := stringOf o "checksum"
    items := stringsOf o key }
  name := (·.name)
  version := (·.version)
  write e := Fields.ofList [
    ("name", .str e.name),
    ("version", .str e.version),
    ("resolved-from", .str e.resolvedFromRepo),
    ("checksum", .str e.checksum),
    (key, .arr (e.items.map .str))]

def meltRows : Rows ResolvedMeltEntry := listedRows "transitive-melts"

def pluginRows : Rows ResolvedPluginEntry := listedRows "capabilities"

/-! ## The document -/

structure WorkspaceMemberEntry where
  name : String := ""
  declaredPath : String := ""
  manifestChecksum : String := ""

structure Lockfile where
  lockfileVersion : Int := 1
  manifestChecksum : String := ""
  generatorTool : String := "cajeta"
  generatorVersion : String := ""
  resolvedAt : String := ""
  properties : SortedMap String String := .empty
  packagesTyped : List ResolvedPackageEntry := []
  meltsTyped : List ResolvedMeltEntry := []
  pluginsTyped : List ResolvedPluginEntry := []
  packagesRaw : List Json := []
  meltsRaw : List Json := []
  pluginsRaw : List Json := []
  overrides : List Json := []
  isWorkspace : Bool := false
  workspaceMembers : List WorkspaceMemberEntry := []

def WorkspaceMemberEntry.toJson (m : WorkspaceMemberEntry) : Json :=
  (Fields.ofList [
    ("name", .str m.name),
    ("path", .str m.declaredPath),
    ("manifest-checksum", .str m.manifestChecksum)]).toJson

/-- The document that is printed. -/
def Lockfile.fields (lf : Lockfile) : Fields :=
  let root := Fields.ofList [
    ("lockfile-version", .int lf.lockfileVersion),
    ("manifest-checksum", .str lf.manifestChecksum),
    ("generator", (Fields.ofList [
      ("tool", .str lf.generatorTool), ("version", .str lf.generatorVersion)]).toJson),
    ("resolved-at", .str lf.resolvedAt),
    ("properties", (Fields.ofList
      (lf.properties.entries.map fun kv => (kv.1, .str kv.2))).toJson),
    ("packages", .arr (packageRows.written lf.packagesTyped lf.packagesRaw)),
    ("melts", .arr (meltRows.written lf.meltsTyped lf.meltsRaw)),
    ("plugins", .arr (pluginRows.written lf.pluginsTyped lf.pluginsRaw)),
    ("overrides", .arr lf.overrides)]
  if lf.isWorkspace then
    root.insert "workspace" (Fields.ofList [
      ("members", .arr (lf.workspaceMembers.map (·.toJson)))]).toJson
  else root

/-- The text that is written. The printer of JSON is the one that is linked in. -/
def writeLockfile (print : Json → String) (lf : Lockfile) : String :=
  let text := print lf.fields.toJson
  if text.isEmpty || text.toList.getLast? = some '\n' then text else text ++ "\n"

def readProperties (p : JObject) : SortedMap String String :=
  p.foldl (fun m kv => match kv.2.getAsString with
    | some s => m.insert kv.1 s
    | none => m) .empty

def readMember (o : JObject) : WorkspaceMemberEntry where
  name := stringOf o "name"
  declaredPath := stringOf o "path"
  manifestChecksum := stringOf o "manifest-checksum"

/-- An `int64_t` as an `int`. -/
def intOf (n : Int) : Int := n.bmod (2 ^ 32)

/-- The parser of JSON is the one that is linked in. -/
def readLockfile (parse : String → Except String Json) (path : String)
    (file : Except String String) : Except String Lockfile := do
  let text ← file.mapError fun message => "cannot open lockfile '" ++ path ++ "': " ++ message
  let val ← (parse text).mapError fun message =>
    "lockfile parse error in '" ++ path ++ "': " ++ message
  let some root := val.getAsObject
    | throw ("lockfile '" ++ path ++ "' must be a JSON object")
  let some lockfileVersion := root.getInteger "lockfile-version"
    | throw "lockfile missing 'lockfile-version' field"
  let some manifestChecksum := root.getString "manifest-checksum"
    | throw "lockfile missing 'manifest-checksum' field"
  let generator := (root.getObject "generator").getD []
  let packages := (root.getArray "packages").getD []
  let melts := (root.getArray "melts").getD []
  let plugins := (root.getArray "plugins").getD []
  let workspace := root.getObject "workspace"
  return {
    lockfileVersion := intOf lockfileVersion
    manifestChecksum
    generatorTool := (generator.getString "tool").getD "cajeta"
    generatorVersion := stringOf generator "version"
    resolvedAt := stringOf root "resolved-at"
    properties := readProperties ((root.getObject "properties").getD [])
    packagesTyped := packageRows.typed packages
    packagesRaw := packages
    meltsTyped := meltRows.typed melts
    meltsRaw := melts
    pluginsTyped := pluginRows.typed plugins
    pluginsRaw := plugins
    overrides := (root.getArray "overrides").getD []
    isWorkspace := workspace.isSome
    workspaceMembers := (((workspace.getD []).getArray "members").getD []).filterMap fun v =>
      v.getAsObject.map readMember }

end Cajeta.Buildtool
