import Cajeta.Buildtool.Pick
import Cajeta.Lib.SortedMap

/-!
# Resolving a dependency graph

The pick-and-propagate loop: constraints are gathered per package, a package whose constraints
changed is picked again, and the children of a new pick add constraints of their own, until
nothing is left to pick.
-/

namespace Cajeta.Buildtool
variable {ω : Type}

/-- One package across the iteration. A direct root is never overridden. -/
structure MvsState where
  constraints : List String := []
  fromRepo : Option String := none
  directRoot : Bool := false
  overrideConstraint : Option String := none
  overrideAllowsMajorDowngrade : Bool := false
  overridePath : Option String := none
  overrideGit : Option (String × String) := none
  version : String := ""
  resolvedFromRepo : String := ""
  artifactPath : String := ""
  sha256 : String := ""
  manifestJson : String := ""
  childDeps : List DependencySpec := []
  dirty : Bool := true
  everPicked : Bool := false
  deriving DecidableEq

/-- The `state` map with its `insertionOrder`. -/
abbrev Solve := OrderedMap String MvsState

def DependencySpec.versioned (d : DependencySpec) : Bool := !d.versionConstraint.isEmpty

def effectiveConstraints (s : MvsState) : List String :=
  match s.overrideConstraint with
  | some c => if s.directRoot then s.constraints else [c]
  | none => s.constraints

inductive OverrideForm where
  | version | path | git
  deriving DecidableEq

def OverrideSpec.form (o : OverrideSpec) : OverrideForm :=
  if o.git.isSome then .git else if o.path.isSome then .path else .version

/-- A git form needs its `rev`, a version form its constraint. -/
def checkOverride (o : OverrideSpec) : Except String Unit :=
  match o.form with
  | .git => .require o.rev.isSome ("settings.overrides." ++ o.name ++
      ": git replacement requires 'rev' (branch/tag/commit)")
  | .path => .ok ()
  | .version => .require (!o.versionConstraint.isEmpty) ("settings.overrides." ++ o.name ++
      ": override must specify a version constraint")

/-- The entry for `name` in the map of one form: the last one declared. -/
def findOverride (overrides : List OverrideSpec) (form : OverrideForm) (name : String) :
    Option OverrideSpec :=
  overrides.reverse.find? fun o => o.form = form && o.name = name

/-- The flag is the last one wired: the git form's, else the path form's, else the version's. -/
def allowsDowngrade (version path git : Option OverrideSpec) : Bool :=
  ((git <|> path <|> version).map (·.allowMajorDowngrade)).getD false

/-- A package at first sight, with its override wired in. -/
def MvsState.fresh (overrides : List OverrideSpec) (name : String) : MvsState :=
  let version := findOverride overrides .version name
  let path := findOverride overrides .path name
  let git := findOverride overrides .git name
  { overrideConstraint := version.map fun o => exactIfBare o.versionConstraint
    overridePath := path.bind (·.path)
    overrideGit := git.bind fun o => o.git.bind fun url => o.rev.map fun ref => (url, ref)
    overrideAllowsMajorDowngrade := allowsDowngrade version path git }

def pinConflict (s : MvsState) (fromRepo : Option String) : Option (String × String) :=
  match s.fromRepo, fromRepo with
  | some a, some b => if a = b then none else some (a, b)
  | _, _ => none

/-- Whether a declaration says something new about a package that is already known. -/
def MvsState.changedBy (s : MvsState) (d : DependencySpec) (asDirectRoot : Bool) : Bool :=
  !s.constraints.contains d.versionConstraint || (asDirectRoot && !s.directRoot) ||
    (d.fromRepo.isSome && s.fromRepo.isNone)

/-- What one more declaration leaves of a package's record. -/
def MvsState.add (s : MvsState) (d : DependencySpec) (asDirectRoot : Bool) : MvsState :=
  { s with
    constraints := if s.constraints.contains d.versionConstraint then s.constraints
      else s.constraints ++ [d.versionConstraint]
    directRoot := s.directRoot || asDirectRoot
    fromRepo := s.fromRepo <|> d.fromRepo
    dirty := s.dirty || s.changedBy d asDirectRoot }

/-- Adds one declaration, and says whether the set actually changed. -/
def addConstraint (overrides : List OverrideSpec) (m : Solve) (d : DependencySpec)
    (asDirectRoot : Bool) : Except String (Solve × Bool) :=
  let s := (m.find? d.name).getD (.fresh overrides d.name)
  match pinConflict s d.fromRepo with
  | some (a, b) => .error ("conflicting 'from' repository for '" ++ d.name ++ "': '" ++ a ++
      "' vs '" ++ b ++ "'")
  | none => .ok (m.set d.name (s.add d asDirectRoot),
      (m.find? d.name).isNone || s.changedBy d asDirectRoot)

/-- Adds the versioned declarations of a list, and says whether any changed anything. -/
def addAll (overrides : List OverrideSpec) (asDirectRoot : Bool) (m : Solve) :
    List DependencySpec → Except String (Solve × Bool)
  | [] => .ok (m, false)
  | d :: ds =>
    if d.versioned then do
      let (m, added) ← addConstraint overrides m d asDirectRoot
      let (m, more) ← addAll overrides asDirectRoot m ds
      return (m, added || more)
    else addAll overrides asDirectRoot m ds

/-- What one resolution is run with. -/
structure Resolver (ω : Type) where
  host : Host ω
  repos : List (Repository ω)
  overrides : List OverrideSpec := []
  gitOverrideStageDir : String := ""
  ollaWriteThroughRoot : String := ""

def choose (r : Resolver ω) (name : String) (s : MvsState) : Effect ω MvsPick :=
  match (if s.directRoot then none else s.overridePath),
      (if s.directRoot then none else s.overrideGit) with
  | some path, _ => pickFromPathOverride r.host name path
  | none, some (url, ref) => pickFromGitOverride r.host name url ref r.gitOverrideStageDir
  | none, none =>
    pickLowestForAll r.host r.ollaWriteThroughRoot name (effectiveConstraints s) s.fromRepo r.repos

def sidecarDeps (reader : ManifestReader) (name version manifestJson : String) :
    Except String (List DependencySpec) :=
  if manifestJson.isEmpty then .ok []
  else do
    let child ← loadManifestString reader manifestJson (name ++ "@" ++ version)
    parseDependencies child

def MvsState.record (s : MvsState) (p : MvsPick) : MvsState :=
  { s with
    version := p.version
    resolvedFromRepo := p.resolvedFromRepo
    artifactPath := p.artifactPath
    sha256 := p.sha256
    manifestJson := p.manifestJson
    everPicked := true
    dirty := false }

def MvsState.versionChanged (s : MvsState) (p : MvsPick) : Bool :=
  !s.everPicked || s.version != p.version

def isDirty (m : Solve) (name : String) : Bool := (m.find? name).any (·.dirty)

/-- The prior version's children are discarded, but the constraints they added stay. -/
def propagate (r : Resolver ω) (m : Solve) (name : String) (s : MvsState) (p : MvsPick) :
    Except String (Solve × Bool) := do
  let kids ← sidecarDeps r.host.toManifestReader name p.version p.manifestJson
  let (m, added) ← addAll r.overrides false (m.set name { s.record p with childDeps := kids }) kids
  return (m, added || isDirty m name)

/-- One package's turn in a pass, and whether it left anything to pick. -/
def visit (r : Resolver ω) (m : Solve) (name : String) (s : MvsState) : Effect ω (Solve × Bool) :=
  if s.dirty then do
    let p ← choose r name s
    if s.versionChanged p then .ofResult (propagate r m name s p)
    else return (m.set name (s.record p), false)
  else pure (m, false)

/-- The loop between two packages. -/
structure Config where
  solve : Solve
  i : Nat := 0
  anyDirty : Bool := false

/-- One turn, or the start of another pass; none when the loop has ended. A turn may add packages
to the end of the pass it is in. -/
def turn (r : Resolver ω) (c : Config) : Effect ω (Option Config) :=
  match c.solve.keys[c.i]? with
  | some name => do
    let s := (c.solve.find? name).getD (.fresh r.overrides name)
    let (m, dirty) ← visit r c.solve name s
    return some ⟨m, c.i + 1, c.anyDirty || dirty⟩
  | none => return if c.anyDirty then some ⟨c.solve, 0, false⟩ else none

/-- The loop; none when `fuel` runs out before it ends. -/
def solveLoop (r : Resolver ω) : Nat → Config → Effect ω (Option Solve)
  | 0, _ => pure none
  | fuel + 1, c => do
    let c' ← turn r c
    c'.elim (pure (some c.solve)) (solveLoop r fuel)

def overridden (s : MvsState) : Bool :=
  (s.overrideConstraint.isSome || s.overridePath.isSome || s.overrideGit.isSome) && !s.directRoot

/-- The pick the gathered constraints would have had; a set that admits none is no baseline. -/
def baseline (r : Resolver ω) (name : String) (s : MvsState) : Effect ω (Option MvsPick) :=
  tryCatch (some <$> pickLowestForAll r.host "" name s.constraints s.fromRepo r.repos)
    fun _ => pure none

def downgradeError (name : String) (s : MvsState) (b : MvsPick) : String :=
  "override for '" ++ name ++ "' pins to '" ++ s.version ++ "' but transitives need [" ++
    joined s.constraints ++ "] (baseline pick was '" ++ b.version ++
    "'); set 'allow-major-downgrade': true on the override to accept this drop"

def dropsMajor (s : MvsState) (b : MvsPick) : Bool :=
  compareMajor s.version b.version = .lt && !s.overrideAllowsMajorDowngrade

/-- An override may not drop a package below the major its dependents need. -/
def auditPackage (r : Resolver ω) (name : String) (s : MvsState) : Effect ω Unit :=
  if overridden s && !s.constraints.isEmpty then do
    let b ← baseline r name s
    b.elim (pure ()) fun b => refuseUnless (!dropsMajor s b) (downgradeError name s b)
  else pure ()

def audit (r : Resolver ω) (m : Solve) : List String → Effect ω Unit
  | [] => pure ()
  | name :: names => do
    (m.find? name).elim (pure ()) (auditPackage r name)
    audit r m names

structure ResolvedDependency where
  name : String
  version : String
  resolvedFromRepo : String
  artifactPath : String
  sha256 : String
  deriving DecidableEq

/-- A package in `opaquePackages` had no sidecar, so its children are unknown, not empty. -/
structure ResolvedGraph where
  packages : List ResolvedDependency
  roots : List DependencySpec
  children : List (String × List DependencySpec)
  opaquePackages : List String
  deriving DecidableEq

def resolved (name : String) (s : MvsState) : ResolvedDependency :=
  { name, version := s.version, resolvedFromRepo := s.resolvedFromRepo,
    artifactPath := s.artifactPath, sha256 := s.sha256 }

def entries (m : Solve) : List (String × MvsState) :=
  m.keys.filterMap fun name => (m.find? name).map (name, ·)

def graph (deps : List DependencySpec) (m : Solve) : ResolvedGraph where
  packages := (entries m).map fun e => resolved e.1 e.2
  roots := deps.filter (·.versioned)
  children := ((entries m).filter fun e => !e.2.manifestJson.isEmpty).map fun e =>
    (e.1, e.2.childDeps.filter (·.versioned))
  opaquePackages := ((entries m).filter fun e => e.2.manifestJson.isEmpty).map (·.1)

/-- The packages as the solver leaves them, after the audit. -/
def resolveState (r : Resolver ω) (fuel : Nat) (deps : List DependencySpec) :
    Effect ω (Option Solve) := do
  .ofResult (r.overrides.forM checkOverride)
  let (m, _) ← .ofResult (addAll r.overrides true .empty deps)
  let m ← solveLoop r fuel { solve := m }
  m.elim (pure ()) fun m => audit r m m.keys
  return m

/-- The resolved graph; none when `fuel` runs out before the loop ends. -/
def resolveMvsGraph (r : Resolver ω) (fuel : Nat) (deps : List DependencySpec) :
    Effect ω (Option ResolvedGraph) := do
  let m ← resolveState r fuel deps
  return m.map (graph deps)

end Cajeta.Buildtool
