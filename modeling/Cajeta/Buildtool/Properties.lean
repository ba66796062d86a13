import Cajeta.Buildtool.Substitution
import Cajeta.Buildtool.Task

/-!
# Properties

`${NAME}` substitution over one flat namespace of built-ins and the manifest's `properties`, where
the command line overrides the environment and the environment overrides the manifest. Values are
resolved bottom-up along the references.
-/

namespace Cajeta.Buildtool

/-- What stands before the first dot, or everything. -/
def beforeDot (name : String) : String := String.ofList (name.toList.takeWhile (· ≠ '.'))

/-- What stands behind the first dot, if there is one. -/
def behindDot (name : String) : Option String :=
  match name.toList.dropWhile (· ≠ '.') with
  | [] => none
  | _ :: rest => some (String.ofList rest)

/-- The rest of a name that starts with a prefix and does not end with it. -/
def dropPrefix (pre name : String) : Option String :=
  if pre.length < name.length ∧ pre.toList.isPrefixOf name.toList = true then
    some (String.ofList (name.toList.drop pre.length))
  else none

namespace ManifestDetails

/-- Everything before the last dot. -/
def group (d : ManifestDetails) : String :=
  String.ofList ((d.name.toList.reverse.dropWhile (· ≠ '.')).drop 1).reverse

/-- What stands behind the last dot. -/
def library (d : ManifestDetails) : String :=
  String.ofList (d.name.toList.reverse.takeWhile (· ≠ '.')).reverse

end ManifestDetails

/-- The built-in names. A dotted name collides on its prefix alone. -/
def kBuiltinPrefixes : List String :=
  ["details", "flavor", "profile", "target", "env", "artifact", "workspace", "cajeta"]

def isBuiltinName (name : String) : Bool := kBuiltinPrefixes.contains (beforeDot name)

/-- What a resolution takes beyond the manifest. -/
structure PropertyOverrides where
  cli : SortedMap String String := .empty
  env : SortedMap String String := .empty
  flavor : Option String := none
  profile : Option String := none
  target : Option String := none
  workspaceRoot : Option String := none

/-- The process the tool runs in: its environment, and the version it was built as. -/
structure Process where
  getenv : String → Option String
  cajetaVersion : String

/-- A missing variable is empty, and so is an artifact outside of a distribution action. -/
def Process.open (process : Process) (name : String) : Option String :=
  match dropPrefix "env." name with
  | some envName => some ((process.getenv envName).getD "")
  | none => if (dropPrefix "artifact." name).isSome then some "" else none

/-- The built-ins that are there in every resolution. -/
def fixedBuiltins (process : Process) (manifest : Manifest) (ov : PropertyOverrides) :
    List (String × String) :=
  [("details.name", manifest.details.name), ("details.version", manifest.details.version),
    ("details.group", manifest.details.group), ("details.library", manifest.details.library),
    ("flavor", ov.flavor.getD ""), ("profile", ov.profile.getD ""),
    ("target", ov.target.getD ""), ("workspace.root", ov.workspaceRoot.getD ""),
    ("cajeta.version", process.cajetaVersion)]

/-- A built-in's value, if the name is one. -/
def resolveBuiltin (process : Process) (manifest : Manifest) (ov : PropertyOverrides)
    (name : String) : Option String :=
  match (fixedBuiltins process manifest ov).lookup name with
  | some v => some v
  | none => process.open name

/-! ## Resolving -/

structure ResolvedProperties where
  values : SortedMap String String := .empty
  resolutionOrder : List String := []

/-- The resolved values, and the names that are looked up only when they are used. -/
def ResolvedProperties.lookup (process : Process) (p : ResolvedProperties) (name : String) :
    Option String :=
  match p.values.find? name with
  | some v => some v
  | none => process.open name

inductive Source where
  | text (s : String)
  | typeError
  | undefined

/-- The source by precedence: command line, environment, manifest. -/
def sourceFor (manifest : Manifest) (ov : PropertyOverrides) (name : String) : Source :=
  match ov.cli.find? name with
  | some s => .text s
  | none => match ov.env.find? name with
    | some s => .text s
    | none => match manifest.propertiesRaw.get name with
      | none => .undefined
      | some (.str s) => .text s
      | some _ => .typeError

/-- What has been resolved, and the names being resolved. -/
structure Resolving where
  out : ResolvedProperties := {}
  visiting : List String := []

def ResolvedProperties.record (out : ResolvedProperties) (name value : String) :
    ResolvedProperties :=
  { values := out.values.insert name value, resolutionOrder := out.resolutionOrder ++ [name] }

section Resolve

variable (process : Process) (manifest : Manifest) (ov : PropertyOverrides)

def resolve : Nat → Resolving → String → Except Failure Resolving
  | 0, _, _ => .error .outOfFuel
  | fuel + 1, st, name =>
    if st.out.values.contains name = true then return st
    else match resolveBuiltin process manifest ov name with
    | some v => return { st with out := st.out.record name v }
    | none =>
      if name ∈ st.visiting then
        .error (.failed ("cyclic property reference: " ++
          " → ".intercalate (st.visiting ++ [name])))
      else match sourceFor manifest ov name with
      | .typeError => .error (.failed ("property '" ++ name ++ "' must be a string"))
      | .undefined => .error (.failed ("undefined property '" ++ name ++ "'"))
      | .text raw => do
        let st ← (referencedNames raw.toList).foldlM (resolve fuel)
          { st with visiting := name :: st.visiting }
        match substituteOnce st.out.values.find? raw.toList with
        | .error missing => .error (.failed
            ("property '" ++ name ++ "' references undefined property '" ++ missing ++ "'"))
        | .ok resolved => return { out := st.out.record name (String.ofList resolved),
                                   visiting := st.visiting.erase name }

/-- The names with a source and those that the sources refer to. -/
def mentioned : List String :=
  let sources := ov.cli.entries ++ ov.env.entries ++
    manifest.propertiesRaw.filterMap fun kv => kv.2.getAsString.map (kv.1, ·)
  manifest.propertiesRaw.map (·.1) ++ sources.map (·.1) ++
    sources.flatMap fun kv => referencedNames kv.2.toList

/-- One more than the names that can be met is fuel for every resolution. -/
def resolveFuel : Nat := (mentioned manifest ov).length + 1

def refuseCollisions : Except Failure Unit :=
  manifest.propertiesRaw.forM fun kv => Except.require (¬isBuiltinName kv.1 = true)
    (.failed ("property '" ++ kv.1 ++ "' in manifest collides with a built-in property name"))

/-- A built-in is put in unless it has been resolved before. -/
def putBuiltin (values : SortedMap String String) (kv : String × String) :
    SortedMap String String :=
  if values.contains kv.1 = true then values else values.insert kv.1 kv.2

def resolveProperties : Except Failure ResolvedProperties := do
  refuseCollisions manifest
  let st ← (manifest.propertiesRaw.map (·.1)).foldlM
    (resolve process manifest ov (resolveFuel manifest ov)) {}
  return { st.out with
    values := (fixedBuiltins process manifest ov).foldl putBuiltin st.out.values }

end Resolve

end Cajeta.Buildtool
