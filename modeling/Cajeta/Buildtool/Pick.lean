import Cajeta.Buildtool.Version

/-!
# Picking a version

Repositories and local overrides as the resolver asks them for a package. Everything outside the
resolver (disks, networks, the artifact cache, the local store) is one world, which any operation
may change for the later ones.
-/

namespace Cajeta.Buildtool

/-- An operation on the world, which can refuse. -/
abbrev Effect (ω : Type) := EStateM String ω

/-- A source of artifacts. An empty list of versions means it does not carry the package. -/
structure Repository (ω : Type) where
  name : String
  listVersions : String → Effect ω (List String)
  fetch : String → String → Effect ω String
  fetchManifestJson : String → String → Effect ω (Option String)
  releaseMetadataJson : String → String → Effect ω (Option String)

/-- What the resolver calls. `sort` is `std::sort` by `compareVersions`: how it orders equal
versions is its own choice. -/
structure Host (ω : Type) extends ManifestReader where
  sort : List String → List String
  sort_perm : ∀ versions, (sort versions).Perm versions
  insert : String → Effect ω String
  sha256OfFile : String → Effect ω String
  isDirectory : String → Effect ω Bool
  isRegularFile : String → Effect ω Bool
  readFile : String → Effect ω (Option String)
  parseJson : String → Option Json
  gitRepository : (name url ref stageDir : String) → Repository ω
  writeVerified : (root name version artifact expectedSha256 manifestJson : String) →
    Effect ω String
  writeFile : String → String → Effect ω Bool

/-- One package's chosen version and its sidecar, which is empty when there is none. -/
structure MvsPick where
  version : String
  resolvedFromRepo : String
  artifactPath : String
  sha256 : String
  manifestJson : String
  deriving DecidableEq

variable {ω : Type}

def refuseUnless (c : Bool) (msg : String) : Effect ω Unit := if c then pure () else throw msg

/-- The lowest version in `candidates` satisfying every constraint, else empty. -/
def lowestSatisfyingAll (host : Host ω) (candidates constraints : List String) : String :=
  ((host.sort candidates).find? fun v => constraints.all (versionSatisfies v)).getD ""

/-- `parent_path` of a path without a trailing separator. -/
def parentPath (p : String) : String :=
  let dir := p.toList.reverse.dropWhile (· != '/')
  let rest := dir.dropWhile (· == '/')
  String.ofList (if rest.isEmpty then dir.take 1 else rest.reverse)

/-- `root / name`. -/
def joinPath (root name : String) : String :=
  if ['/'].isPrefixOf name.toList then name
  else if root.isEmpty || root.toList.getLast? = some '/' then root ++ name
  else root ++ "/" ++ name

/-- The signed metadata a fetch was verified against stays beside the bytes in the store. -/
def storeEnvelope (host : Host ω) (name v stored : String) : Option String → Effect ω Unit
  | none => pure ()
  | some text => do
    let path := joinPath (parentPath stored) (name ++ "-" ++ v ++ ".release.json")
    let written ← host.writeFile path text
    refuseUnless written ("could not write " ++ path)

/-- Mirrors a remote fetch into the local store, when there is one to write to. -/
def writeThrough (host : Host ω) (repo : Repository ω) (root name v cached manifestJson : String) :
    Effect ω Unit :=
  if root.isEmpty || repo.name = "olla" then pure ()
  else do
    let stored ← host.writeVerified root name v cached "" manifestJson
    let env ← repo.releaseMetadataJson name v
    storeEnvelope host name v stored env

def fetchPick (host : Host ω) (repo : Repository ω) (root name v : String) : Effect ω MvsPick := do
  let path ← repo.fetch name v
  let cached ← host.insert path
  let sidecar ← repo.fetchManifestJson name v
  let sha256 ← host.sha256OfFile cached
  let manifestJson := sidecar.getD ""
  writeThrough host repo root name v cached manifestJson
  return { version := v, resolvedFromRepo := repo.name, artifactPath := cached, sha256,
           manifestJson }

def firstPick (host : Host ω) (root name : String) (constraints : List String) :
    List (Repository ω) → Effect ω (Option MvsPick)
  | [] => pure none
  | repo :: rest => do
    let versions ← repo.listVersions name
    let v := lowestSatisfyingAll host versions constraints
    if v.isEmpty then firstPick host root name constraints rest
    else some <$> fetchPick host repo root name v

def eligible (fromRepo : Option String) (repo : Repository ω) : Bool :=
  fromRepo.all (repo.name == ·)

def joined (texts : List String) : String := String.intercalate ", " texts

def noVersion (name : String) (constraints tried : List String) : String :=
  "no version of '" ++ name ++ "' satisfies constraints [" ++ joined constraints ++ "] (tried: " ++
    (if tried.isEmpty then "<none>" else joined tried) ++ ")"

/-- Picks the lowest version satisfying every constraint, walking the repositories in priority
order. -/
def pickLowestForAll (host : Host ω) (root name : String) (constraints : List String)
    (fromRepo : Option String) (repos : List (Repository ω)) : Effect ω MvsPick := do
  let tried := repos.filter (eligible fromRepo)
  let pick ← firstPick host root name constraints tried
  .ofResult (.orThrow pick (noVersion name constraints (tried.map (·.name))))

def overrideError (name msg : String) : String := "override for '" ++ name ++ "': " ++ msg

def detailsOf (name file : String) (v : Option Json) : Except String JObject := do
  let v ← .orThrow v (overrideError name ("cajeta.json at '" ++ file ++ "' is not valid JSON"))
  let obj ← .orThrow v.getAsObject
    (overrideError name ("cajeta.json at '" ++ file ++ "' must be a JSON object"))
  .orThrow (JObject.getObject obj "details")
    (overrideError name ("cajeta.json at '" ++ file ++ "' missing 'details' block"))

/-- The version a local package declares, which must be the package that was asked for. -/
def declaredVersion (name file : String) (details : JObject) : Except String String :=
  match details.getString "name", details.getString "version" with
  | some declName, some declVer =>
    if declName = name then .ok declVer
    else .error (overrideError name ("cajeta.json at '" ++ file ++ "' declares name='" ++
      declName ++ "' which does not match"))
  | _, _ => .error (overrideError name ("cajeta.json at '" ++ file ++
      "' must declare details.name + details.version"))

def pickFromPathOverride (host : Host ω) (name path : String) : Effect ω MvsPick := do
  let isDir ← host.isDirectory path
  refuseUnless isDir (overrideError name ("path '" ++ path ++ "' is not a directory"))
  let file := joinPath path "cajeta.json"
  let isFile ← host.isRegularFile file
  refuseUnless isFile (overrideError name ("no cajeta.json at '" ++ file ++ "'"))
  let text ← host.readFile file
  let manifestJson ← .ofResult (.orThrow text (overrideError name ("cannot open '" ++ file ++ "'")))
  let details ← .ofResult (detailsOf name file (host.parseJson manifestJson))
  let version ← .ofResult (declaredVersion name file details)
  let artifact := joinPath (joinPath (joinPath path "build") "archive")
    (name ++ "-" ++ version ++ ".cja")
  let built ← host.isRegularFile artifact
  refuseUnless built (overrideError name ("expected pre-built artifact at '" ++ artifact ++
    "' but it does not exist. v1 limitation: run `cajeta build` in '" ++ path ++ "' first."))
  let cached ← host.insert artifact
  let sha256 ← host.sha256OfFile cached
  return { version, resolvedFromRepo := "<path-override>", artifactPath := cached, sha256,
           manifestJson }

def pickFromGitOverride (host : Host ω) (name url ref stageDir : String) : Effect ω MvsPick := do
  refuseUnless (!stageDir.isEmpty) (overrideError name ("git replacement requires a stage " ++
    "directory; resolveMvs's caller must pass one (resolveProjectDependencies does)"))
  let repo := host.gitRepository name url ref stageDir
  let versions ← repo.listVersions name
  let version ← .ofResult (.orThrow versions.head? (overrideError name
    ("git checkout at '" ++ url ++ "@" ++ ref ++ "' declares a different package")))
  let path ← repo.fetch name version
  let cached ← host.insert path
  let sidecar ← repo.fetchManifestJson name version
  let sha256 ← host.sha256OfFile cached
  return { version, resolvedFromRepo := "<git-override>", artifactPath := cached, sha256,
           manifestJson := sidecar.getD "" }

theorem lowestSatisfyingAll_spec {host : Host ω} {candidates constraints : List String}
    (h : lowestSatisfyingAll host candidates constraints = v) (hv : v.isEmpty = false) :
    v ∈ candidates ∧ ∀ c ∈ constraints, versionSatisfies v c = true := by
  unfold lowestSatisfyingAll at h
  cases hf : (host.sort candidates).find? fun v => constraints.all (versionSatisfies v) with
  | none => rw [hf] at h; subst h; cases hv
  | some u =>
    rw [hf] at h
    subst h
    have hall := List.find?_some hf
    exact ⟨(host.sort_perm _).mem_iff.mp (List.mem_of_find?_eq_some hf),
      List.all_eq_true.mp hall⟩

theorem fetchPick_version {host : Host ω} (h : fetchPick host repo root name v w = .ok p w') :
    p.version = v := by
  simp only [fetchPick, EStateM.bind_eq_ok, EStateM.pure_eq_ok] at h
  obtain ⟨_, _, -, _, _, -, _, _, -, _, _, -, _, _, -, rfl, -⟩ := h
  rfl

theorem firstPick_satisfies {host : Host ω} {repos : List (Repository ω)}
    (h : firstPick host root name constraints repos w = .ok (some p) w') :
    ∀ c ∈ constraints, versionSatisfies p.version c = true := by
  induction repos generalizing w with
  | nil => cases h
  | cons repo rest ih =>
    simp only [firstPick, EStateM.bind_eq_ok] at h
    obtain ⟨versions, w₁, -, h⟩ := h
    split at h
    · exact ih h
    · next hv =>
      simp only [map_eq_pure_bind, EStateM.bind_eq_ok, EStateM.pure_eq_ok] at h
      obtain ⟨p', w₂, hp, hsome, -⟩ := h
      cases hsome
      rw [fetchPick_version hp]
      exact (lowestSatisfyingAll_spec rfl (by simpa using hv)).2

theorem pickLowestForAll_satisfies {host : Host ω}
    (h : pickLowestForAll host root name constraints fromRepo repos w = .ok p w') :
    ∀ c ∈ constraints, versionSatisfies p.version c = true := by
  simp only [pickLowestForAll, EStateM.bind_eq_ok, EStateM.ofResult_eq_ok,
    Except.orThrow_eq_ok] at h
  obtain ⟨pick, w₁, hfirst, rfl, -⟩ := h
  exact firstPick_satisfies hfirst

end Cajeta.Buildtool
