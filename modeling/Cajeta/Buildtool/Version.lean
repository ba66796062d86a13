import Mathlib.Tactic.Common
import Cajeta.Json
import Cajeta.Lib.Result

/-!
# Versions and version constraints

Semver-shaped strings: their order, and the constraint language a dependency states its versions
in. A constraint that cannot be read admits no version, so the predicate is total.
-/

namespace Cajeta.Buildtool

/-- `std::isspace` in the C locale. -/
def isSpace (c : Char) : Bool :=
  c = ' ' || c = '\t' || c = '\n' || c = '\r' || c.toNat = 11 || c.toNat = 12

/-- The pieces between the separators; there is always at least one. -/
def splitPieces (sep : Char) : List Char → List (List Char)
  | [] => [[]]
  | c :: cs =>
    if c = sep then [] :: splitPieces sep cs
    else match splitPieces sep cs with
      | [] => [[c]]
      | piece :: pieces => (c :: piece) :: pieces

def splitDots (s : String) : List String := (splitPieces '.' s.toList).map String.ofList

def splitCommas (s : String) : List String := (splitPieces ',' s.toList).map String.ofList

/-- The numeric core of a semver: everything before the first `-` or `+`. -/
def semverCore (v : String) : String :=
  String.ofList (v.toList.takeWhile fun c => c != '-' && c != '+')

def isAllDigits (s : String) : Bool := !s.toList.isEmpty && s.toList.all Char.isDigit

def stoull (s : String) : Nat := Nat.ofDigitChars 10 s.toList 0

/-- Two components: as numbers when both are digits, otherwise as strings. -/
def comparePart (av bv : String) : Ordering :=
  if isAllDigits av && isAllDigits bv then compare (stoull av) (stoull bv) else compare av bv

/-- Component by component, a missing one being `0`; what follows `-` or `+` is not looked at. -/
def compareVersions (a b : String) : Ordering :=
  let aParts := splitDots (semverCore a)
  let bParts := splitDots (semverCore b)
  (List.range (max aParts.length bParts.length)).foldr
    (fun i rest => (comparePart (aParts.getD i "0") (bParts.getD i "0")).then rest) .eq

def compareMajor (a b : String) : Ordering :=
  comparePart ((splitDots (semverCore a)).headD "0") ((splitDots (semverCore b)).headD "0")

def trim (s : String) : String :=
  String.ofList ((s.toList.dropWhile isSpace).reverse.dropWhile isSpace).reverse

/-- `eq` is the `=1.2.3` pin, `min` a bare `1.2.3`, `wild` the segment prefix of a `1.2.*`. -/
inductive Op where
  | eq | min | wild | ge | gt | le | lt
  deriving DecidableEq

structure Atom where
  op : Op
  operand : String
  deriving DecidableEq

/-- The comparison an atom starts with, the longest match first, and its length. -/
def leadingOp (s : List Char) : Op × Nat :=
  if ['>', '='].isPrefixOf s then (.ge, 2)
  else if ['<', '='].isPrefixOf s then (.le, 2)
  else if ['>'].isPrefixOf s then (.gt, 1)
  else if ['<'].isPrefixOf s then (.lt, 1)
  else if ['='].isPrefixOf s then (.eq, 1)
  else (.min, 0)

/-- What stands before the first `*`, less a dot at its end. -/
def wildPrefix (operand : String) : String :=
  let front := operand.toList.takeWhile (· != '*')
  String.ofList (if front.getLast? = some '.' then front.dropLast else front)

/-- One comma-piece of a constraint. -/
def parseAtom (raw : String) : Except String Atom :=
  let s := (trim raw).toList
  if s.isEmpty then .error "empty constraint atom"
  else
    let (op, consume) := leadingOp s
    let operand := trim (String.ofList (s.drop consume))
    if operand.isEmpty then .error ("constraint atom '" ++ raw ++ "' has no version")
    else if op = .min ∧ operand.toList.contains '*' then .ok ⟨.wild, wildPrefix operand⟩
    else .ok ⟨op, operand⟩

/-- A bare version is a floor within its major, which only a pre-release floor opens to
pre-releases. -/
def minMatches (operand version : String) : Bool :=
  compareMajor version operand = .eq &&
    (operand.toList.contains '-' || !version.toList.contains '-') &&
    compareVersions version operand != .lt

def wildMatches (operand version : String) : Bool :=
  operand.isEmpty || (splitDots operand).isPrefixOf (splitDots (semverCore version))

def atomMatches (a : Atom) (version : String) : Bool :=
  match a.op with
  | .eq => version = a.operand
  | .min => minMatches a.operand version
  | .wild => wildMatches a.operand version
  | .ge => compareVersions version a.operand != .lt
  | .gt => compareVersions version a.operand = .gt
  | .le => compareVersions version a.operand != .gt
  | .lt => compareVersions version a.operand = .lt

/-! ## Constraints -/

/-- `=1.2.3` for a bare `1.2.3`, any other constraint unchanged. -/
def exactIfBare (constraint : String) : String :=
  let c := trim constraint
  if c.isEmpty || c.toList.any ("<>=*,".toList.contains ·) then c else "=" ++ c

/-- Every comma-piece must match; one that cannot be read matches nothing. -/
def versionSatisfies (version constraint : String) : Bool :=
  if constraint = "*" then true
  else if constraint.isEmpty then false
  else (splitCommas constraint).all fun piece =>
    match parseAtom piece with
    | .ok atom => atomMatches atom version
    | .error _ => false

example : versionSatisfies "1.4.0" ">=1.2, <2" = true := by decide +kernel
example : versionSatisfies "2.0.0" "1.2" = false := by decide +kernel
example : versionSatisfies "1.2.9" "1.2.*" = true := by decide +kernel

/-!
## The manifest

`cajeta.json` as the loader accepts it: eight optional blocks kept raw, of which only `details` has
a strict schema, and the dependencies read out of `settings`.
-/

/-- What a load needs from outside: the text parser and the custom-flavor schema. -/
structure ManifestReader where
  parseJsonC : String → Except String Json
  validateCustomFlavors : JObject → Except String Unit

structure ManifestDetails where
  name : String
  version : String
  description : Option String := none
  license : Option String := none
  authors : List String := []
  repositoryUrl : Option String := none
  cajetaLangVersion : Option String := none
  pluginRaw : JObject := []

structure Manifest where
  details : ManifestDetails
  propertiesRaw : JObject := []
  settingsRaw : JObject := []
  actionsRaw : JObject := []
  pluginsRaw : JObject := []
  tasksRaw : JObject := []
  meltRaw : JObject := []
  workspaceRaw : JObject := []
  hasMelt : Bool := false
  hasWorkspace : Bool := false
  sourcePath : String

def kTopLevelBlocks : List String :=
  ["details", "properties", "settings", "actions", "plugins", "tasks", "workspace", "melt"]

def kDetailsFields : List String :=
  ["name", "version", "description", "license", "authors", "repository-url",
   "cajeta-lang-version", "plugin"]

/-- An error about `keyPath` in `file`; an empty key path names the whole file. -/
def cite (file keyPath msg : String) : String :=
  file ++ (if !file.isEmpty && !keyPath.isEmpty then "." else "") ++ keyPath ++ ": " ++ msg

def unknownKey (known : List String) (o : JObject) : Option String :=
  (o.find? fun kv => !known.contains kv.1).map (·.1)

def requireString (file block field : String) (v : Option Json) : Except String String :=
  match v with
  | none => .error (cite file (block ++ "." ++ field) ("missing required field '" ++ field ++ "'"))
  | some (.str s) => .ok s
  | some _ =>
    .error (cite file (block ++ "." ++ field) ("field '" ++ field ++ "' must be a string"))

/-- A block that is absent stays empty. -/
def requireObject (file block : String) (v : Option Json) : Except String JObject :=
  match v with
  | none => .ok []
  | some (.obj o) => .ok o
  | some _ => .error (cite file block ("'" ++ block ++ "' must be an object"))

def getOptionalString (file : String) (d : JObject) (field : String) :
    Except String (Option String) :=
  match d.get field with
  | none => .ok none
  | some (.str s) => .ok (some s)
  | some _ => .error (cite file ("details." ++ field) ("field '" ++ field ++ "' must be a string"))

def loadAuthor (file : String) (entry : Json × Nat) : Except String String :=
  let at_ := "authors[" ++ toString entry.2 ++ "]"
  .orThrow entry.1.getAsString (cite file ("details." ++ at_) ("'" ++ at_ ++ "' must be a string"))

def loadAuthors (file : String) (d : JObject) : Except String (List String) :=
  match d.get "authors" with
  | none => .ok []
  | some (.arr items) => items.zipIdx.mapM (loadAuthor file)
  | some _ => .error (cite file "details.authors" "'authors' must be an array")

/-- Raw: the plugin protocol owns this shape, not the manifest schema. -/
def loadPlugin (file : String) (d : JObject) : Except String JObject :=
  match d.get "plugin" with
  | none => .ok []
  | some (.obj o) => .ok o
  | some _ => .error (cite file "details.plugin" "'plugin' must be an object")

def requireDetails (file : String) (root : JObject) : Except String JObject :=
  match root.get "details" with
  | none => .error (cite file "details" "missing required top-level block 'details'")
  | some (.obj d) => .ok d
  | some _ => .error (cite file "details" "'details' must be an object")

def refuseUnknownDetail (file : String) (d : JObject) : Except String Unit :=
  match unknownKey kDetailsFields d with
  | none => .ok ()
  | some key => .error (cite file ("details." ++ key)
      ("unknown field in 'details': '" ++ key ++ "' (allowed: name, version, description, " ++
        "license, authors, repository-url, cajeta-lang-version)"))

def loadDetails (file : String) (root : JObject) : Except String ManifestDetails := do
  let d ← requireDetails file root
  refuseUnknownDetail file d
  let name ← requireString file "details" "name" (d.get "name")
  let version ← requireString file "details" "version" (d.get "version")
  let description ← getOptionalString file d "description"
  let license ← getOptionalString file d "license"
  let repositoryUrl ← getOptionalString file d "repository-url"
  let cajetaLangVersion ← getOptionalString file d "cajeta-lang-version"
  let authors ← loadAuthors file d
  let pluginRaw ← loadPlugin file d
  return { name, version, description, license, authors, repositoryUrl, cajetaLangVersion,
           pluginRaw }

def refuseUnknownBlock (file : String) (root : JObject) : Except String Unit :=
  match unknownKey kTopLevelBlocks root with
  | none => .ok ()
  | some key => .error (cite file key
      ("unknown top-level block '" ++ key ++ "' (allowed: details, properties, settings, " ++
        "actions, plugins, tasks, workspace, melt)"))

def checkCustomFlavors (reader : ManifestReader) (file : String) (root : JObject) :
    Except String Unit :=
  match (root.getObject "settings").bind fun s =>
      (s.getObject "build").bind (·.getObject "custom-flavors") with
  | none => .ok ()
  | some cf => .wrap (reader.validateCustomFlavors cf) (cite file "settings.build.custom-flavors")

def checkMelt (file : String) (m : Manifest) : Except String Unit :=
  if !m.hasMelt then .ok ()
  else if !m.tasksRaw.isEmpty then
    .error (cite file "melt" ("manifest declares both 'melt' and 'tasks' — a melt package " ++
      "exports configuration only and cannot define tasks"))
  else if m.hasWorkspace then
    .error (cite file "workspace" ("manifest declares both 'melt' and 'workspace' — these are " ++
      "mutually exclusive"))
  else .ok ()

def rootObject (file : String) (v : Json) : Except String JObject :=
  .orThrow v.getAsObject (cite file "" "manifest root must be a JSON object")

def loadManifestString (reader : ManifestReader) (source sourceLabel : String) :
    Except String Manifest := do
  let v ← .wrap (reader.parseJsonC source) fun e => "in '" ++ sourceLabel ++ "': " ++ e
  let root ← rootObject sourceLabel v
  refuseUnknownBlock sourceLabel root
  let details ← loadDetails sourceLabel root
  let propertiesRaw ← requireObject sourceLabel "properties" (root.get "properties")
  let settingsRaw ← requireObject sourceLabel "settings" (root.get "settings")
  let actionsRaw ← requireObject sourceLabel "actions" (root.get "actions")
  let pluginsRaw ← requireObject sourceLabel "plugins" (root.get "plugins")
  let tasksRaw ← requireObject sourceLabel "tasks" (root.get "tasks")
  let meltRaw ← requireObject sourceLabel "melt" (root.get "melt")
  let workspaceRaw ← requireObject sourceLabel "workspace" (root.get "workspace")
  checkCustomFlavors reader sourceLabel root
  let m : Manifest :=
    { details, propertiesRaw, settingsRaw, actionsRaw, pluginsRaw, tasksRaw, meltRaw, workspaceRaw,
      hasMelt := (root.get "melt").isSome, hasWorkspace := (root.get "workspace").isSome,
      sourcePath := sourceLabel }
  checkMelt sourceLabel m
  return m

/-- One dependency; a path or git source form leaves the constraint empty. -/
structure DependencySpec where
  name : String
  versionConstraint : String
  fromRepo : Option String := none
  deriving DecidableEq

/-- One override: a version, a local path, or a git url with its `rev`. -/
structure OverrideSpec where
  name : String
  versionConstraint : String := ""
  path : Option String := none
  git : Option String := none
  rev : Option String := none
  allowMajorDowngrade : Bool := false
  deriving DecidableEq

def constraintOf (name : String) (o : JObject) : Except String String :=
  match o.getString "version" with
  | some v => .ok v
  | none =>
    if (o.get "path").isSome || (o.get "git").isSome then .ok ""
    else .error ("settings.dependencies." ++ name ++
      ": object form requires 'version', 'path', or 'git'")

def parseDependency (kv : String × Json) : Except String DependencySpec :=
  match kv.2 with
  | .str s => .ok { name := kv.1, versionConstraint := s }
  | .obj o => do
    let versionConstraint ← constraintOf kv.1 o
    return { name := kv.1, versionConstraint, fromRepo := JObject.getString o "from" }
  | _ => .error ("settings.dependencies." ++ kv.1 ++
      ": value must be a string (version constraint) or object")

def parseDependencies (m : Manifest) : Except String (List DependencySpec) :=
  match m.settingsRaw.getObject "dependencies" with
  | none => .ok []
  | some deps => deps.mapM parseDependency

end Cajeta.Buildtool
