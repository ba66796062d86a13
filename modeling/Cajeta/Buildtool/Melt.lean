import Cajeta.Buildtool.Pick
import Cajeta.Buildtool.TaskRunner
import Mathlib.Algebra.Ring.Int.Defs

/-!
# Melts

A melt is a package that exports configuration only: version constraints, properties, actions,
repositories, and further melts that it imports. The melts of `settings.melts` are expanded through
the repositories, each behind what it imports, so that what an importer writes wins.
-/

namespace Cajeta.Buildtool

/-- What stands before the last `@` and behind it. -/
def splitLastAt : List Char → Option (List Char × List Char)
  | [] => none
  | c :: s => match splitLastAt s with
    | some (name, version) => some (c :: name, version)
    | none => if c = '@' then some ([], s) else none

theorem splitLastAt_eq_none (h : splitLastAt s = none) : '@' ∉ s := by
  induction s with
  | nil => exact List.not_mem_nil
  | cons c s ih =>
    unfold splitLastAt at h
    split at h
    · cases h
    · next hs =>
      split at h
      · cases h
      · next hc =>
        rw [List.mem_cons, not_or]
        exact ⟨Ne.symm hc, ih hs⟩

theorem splitLastAt_version (h : splitLastAt s = some (name, version)) : '@' ∉ version := by
  induction s generalizing name with
  | nil => cases h
  | cons c s ih =>
    unfold splitLastAt at h
    split at h
    · next hs =>
      cases h
      exact ih hs
    · next hs =>
      split at h
      · cases h
        exact splitLastAt_eq_none hs
      · cases h

structure MeltImport where
  name : String
  version : String
  version_plain : '@' ∉ version.toList
  deriving DecidableEq

def MeltImport.key (imp : MeltImport) : String := imp.name ++ "@" ++ imp.version

def parseMeltImport (s : String) : Except String MeltImport :=
  match h : splitLastAt s.toList with
  | none => .error ("melt import '" ++ s ++ "' must have the form name@version")
  | some (name, version) =>
    if name = [] ∨ version = [] then
      .error ("melt import '" ++ s ++ "' must have the form name@version")
    else return {
      name := String.ofList name
      version := String.ofList version
      version_plain := by
        rw [String.toList_ofList]
        exact splitLastAt_version h }

def parseImport (block : String) (entry : Json × Nat) : Except String MeltImport := do
  let at_ := block ++ "[" ++ toString entry.2 ++ "]"
  let s ← .orThrow entry.1.getAsString (at_ ++ " must be a string 'name@version'")
  .wrap (parseMeltImport s) fun e => at_ ++ ": " ++ e

/-- The `melts` of an object, in the order of their declaration. -/
def parseImports (block : String) (o : JObject) : Except String (List MeltImport) :=
  match o.getArray "melts" with
  | none => return []
  | some items => items.zipIdx.mapM (parseImport block)

def parseSettingsMelts (m : Manifest) : Except String (List MeltImport) :=
  parseImports "settings.melts" m.settingsRaw

structure RepositorySpec where
  name : String
  type : String
  url : String := ""
  path : String := ""
  priority : Int := 0
  gitRef : String := ""
  gitSubdir : String := ""

structure Melt where
  dependencies : SortedMap String String := .empty
  properties : SortedMap String String := .empty
  actionsRaw : JObject := []
  repositories : List RepositorySpec := []
  melts : List MeltImport := []

def allowedMeltFields : List String :=
  ["dependencies", "properties", "actions", "repositories", "melts"]

/-- `static_cast<int>`. -/
def toInt32 (n : Int) : Int := (n + 2 ^ 31) % 2 ^ 32 - 2 ^ 31

def repositoryType (name : String) (obj : JObject) : Except String String :=
  match obj.getString "type" with
  | some t => return t
  | none =>
    if (obj.getString "path").isSome then return "filesystem"
    else if (obj.getString "url").isSome then return "http"
    else .error ("melt.repositories." ++ name ++ ": cannot infer 'type'")

def parseMeltRepo (entry : Json × Nat) : Except String RepositorySpec := do
  let at_ := "melt.repositories[" ++ toString entry.2 ++ "]"
  let obj ← .orThrow entry.1.getAsObject (at_ ++ " must be an object")
  let name ← .orThrow (JObject.getString obj "name") (at_ ++ " missing required 'name'")
  let type ← repositoryType name obj
  let gitRef := ["rev", "branch", "tag", "ref"].findSome? (JObject.getString obj)
  return {
    name, type
    path := (JObject.getString obj "path").getD ""
    url := (JObject.getString obj "url").getD ""
    priority := ((JObject.getInteger obj "priority").map toInt32).getD 0
    gitRef := gitRef.getD ""
    gitSubdir := (JObject.getString obj "subdir").getD "" }

def parseTexts (refusal : String → String) (o : JObject) :
    Except String (SortedMap String String) :=
  o.foldlM (fun out kv => do
    let s ← .orThrow kv.2.getAsString (refusal kv.1)
    return out.insert kv.1 s) .empty

def parseMelt (m : Manifest) : Except String Melt := do
  if m.hasMelt = false then return {}
  else
    match unknownKey allowedMeltFields m.meltRaw with
    | some key => .error ("'melt." ++ key ++ "' is not an exportable melt field (allowed: " ++
        "dependencies, properties, actions, repositories, melts)")
    | none => do
      let dependencies ← parseTexts (fun key => "melt.dependencies." ++ key ++
        ": value must be a version constraint string")
          ((m.meltRaw.getObject "dependencies").getD [])
      let properties ← parseTexts (fun key => "melt.properties." ++ key ++
        ": value must be a string (properties are inert text substituted at use site)")
        ((m.meltRaw.getObject "properties").getD [])
      let repositories ← ((m.meltRaw.getArray "repositories").getD []).zipIdx.mapM parseMeltRepo
      let melts ← parseImports "melt.melts" m.meltRaw
      return { dependencies, properties, actionsRaw := (m.meltRaw.getObject "actions").getD [],
               repositories, melts }

/-- One melt that was expanded. -/
structure Resolved where
  name : String
  version : String
  resolvedFromRepo : String
  sha256 : String
  artifactPath : String
  transitiveMelts : List MeltImport := []

section Expand

variable {ω : Type} (host : Host ω)

def findMelt (imp : MeltImport) : List (Repository ω) → Effect ω (Option (Resolved × String))
  | [] => return none
  | repo :: repos => do
    let versions ← repo.listVersions imp.name
    if imp.version ∈ versions then do
      let path ← repo.fetch imp.name imp.version
      let cached ← host.insert path
      let sidecar ← repo.fetchManifestJson imp.name imp.version
      match sidecar with
      | none => throw ("melt '" ++ imp.key ++ "': repository '" ++ repo.name ++ "' has the " ++
          "artifact but no manifest sidecar — melts must publish their cajeta.json as a sidecar")
      | some manifestJson => do
        let sha256 ← host.sha256OfFile cached
        return some ({ name := imp.name, version := imp.version, resolvedFromRepo := repo.name,
                       sha256, artifactPath := cached }, manifestJson)
    else findMelt imp repos

def tried (repos : List (Repository ω)) : String :=
  let repoList := repos.foldl
    (fun text repo => if text = "" then repo.name else text ++ ", " ++ repo.name) ""
  if repoList = "" then "<none>" else repoList

/-- Fetches a melt and reads its payload. -/
def loadMelt (repos : List (Repository ω)) (imp : MeltImport) : Effect ω (Resolved × Melt) := do
  let found ← findMelt host imp repos
  match found with
  | none => throw ("melt '" ++ imp.key ++ "' not found in any repository (tried: " ++
      tried repos ++ ")")
  | some (resolved, manifestJson) => do
    let meltManifest ← EStateM.ofResult
      (loadManifestString host.toManifestReader manifestJson imp.key)
    if meltManifest.hasMelt = false then
      throw ("'" ++ imp.key ++ "' resolved successfully but its manifest declares no 'melt' " ++
        "block — only melt-shaped packages can be imported via settings.melts")
    else do
      let typed ← EStateM.ofResult (parseMelt meltManifest)
      return ({ resolved with transitiveMelts := typed.melts }, typed)

structure MeltResolution where
  resolvedMelts : List Resolved := []
  depConstraints : SortedMap String String := .empty
  depProvidedBy : SortedMap String String := .empty
  properties : SortedMap String String := .empty
  propertyProvidedBy : SortedMap String String := .empty
  actionsRaw : JObject := []
  repositories : List RepositorySpec := []

/-- Writes a map over another. -/
def writeAll (entries : List (String × String)) (m : SortedMap String String) :
    SortedMap String String :=
  entries.foldl (fun m kv => m.insert kv.1 kv.2) m

/-- Writes the same value under each key. -/
def writeEach (entries : List (String × String)) (value : String) (m : SortedMap String String) :
    SortedMap String String :=
  entries.foldl (fun m kv => m.insert kv.1 value) m

def MeltResolution.record (out : MeltResolution) (key : String) (resolved : Resolved)
    (typed : Melt) : MeltResolution where
  resolvedMelts := out.resolvedMelts ++ [resolved]
  depConstraints := writeAll typed.dependencies.entries out.depConstraints
  depProvidedBy := writeEach typed.dependencies.entries key out.depProvidedBy
  properties := writeAll typed.properties.entries out.properties
  propertyProvidedBy := writeEach typed.properties.entries key out.propertyProvidedBy
  actionsRaw := typed.actionsRaw.foldl (fun o kv => setField o kv.1 kv.2) out.actionsRaw
  repositories := out.repositories ++ typed.repositories

structure Melting (ω : Type) where
  world : ω
  alreadyResolved : Finset String := ∅
  out : MeltResolution := {}

abbrev MeltM (ω : Type) := EStateM Failure (Melting ω)

def MeltM.act (x : Effect ω α) : MeltM ω α := fun s =>
  match x s.world with
  | .ok a world => .ok a { s with world }
  | .error e world => .error (.failed e) { s with world }

/-- Expands what a melt imports and then records the melt. The melts being expanded are refused by
name, those that have been expanded are recognised by name and version. -/
def expandMelt (repos : List (Repository ω)) : Nat → List String → MeltImport → MeltM ω Unit
  | 0, _, _ => throw .outOfFuel
  | fuel + 1, cyclePath, imp => do
    if imp.name ∈ cyclePath then
      throw (.failed ("melt cycle detected: " ++ " -> ".intercalate (cyclePath ++ [imp.name])))
    else
      let s ← get
      if imp.key ∈ s.alreadyResolved then return ()
      else do
        let (resolved, typed) ← MeltM.act (loadMelt host repos imp)
        typed.melts.forM (expandMelt repos fuel (cyclePath ++ [imp.name]))
        modify fun s => { s with alreadyResolved := insert imp.key s.alreadyResolved,
                                 out := s.out.record imp.key resolved typed }

def resolveMelts (repos : List (Repository ω)) (fuel : Nat) (m : Manifest) :
    EStateM Failure ω MeltResolution := fun world =>
  match parseSettingsMelts m with
  | .error e => .error (.failed e) world
  | .ok imports =>
    match imports.forM (expandMelt host repos fuel []) { world } with
    | .ok _ s => .ok s.out s.world
    | .error e s => .error e s.world

end Expand

end Cajeta.Buildtool
