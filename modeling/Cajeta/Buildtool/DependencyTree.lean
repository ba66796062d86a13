import Cajeta.Buildtool.Resolver
import Cajeta.Buildtool.Task
import Mathlib.Data.List.Sort

/-!
# The dependency tree

The depth-first walk over a resolved graph. Children are in the order of their names. A package that
is on the way to itself closes a cycle, one that has been expanded before is not expanded again, and
one that lies at the depth limit is cut off.
-/

namespace Cajeta.Buildtool

/-- Why a node was not expanded. -/
inductive DepStatus where
  | normal
  | repeated
  | cycle
  | opaquePackage
  | truncated
  deriving DecidableEq

structure DepNode where
  name : String
  version : String := ""
  requested : String := ""
  repository : String := ""
  checksum : String := ""
  status : DepStatus := .normal
  children : List DepNode := []

mutual

def DepNode.names : DepNode → List String
  | ⟨name, _, _, _, _, _, children⟩ => name :: childNames children

def childNames : List DepNode → List String
  | [] => []
  | c :: cs => c.names ++ childNames cs

end

structure DepTree where
  root : DepNode
  cycles : List (List String) := []

/-- A negative depth is unlimited. -/
structure DepTreeOptions where
  depth : Int := -1
  dedupe : Bool := true

def formatCycle (path : List String) : String := " -> ".intercalate path

/-- The way from the root, and what has been found on it. `levels` and `repeats` are history: the
level at which each package was expanded, and those at which packages were met again. -/
structure Walker where
  path : List String
  expanded : Finset String := ∅
  cycles : List (List String) := []
  cycleKeys : Finset String := ∅
  levels : List (String × Nat) := []
  repeats : List (String × Nat) := []

abbrev WalkM := EStateM Failure Walker

/-- The direct dependencies that a package has declared. -/
def ResolvedGraph.childrenOf (g : ResolvedGraph) (name : String) : List DependencySpec :=
  ((g.children.find? (·.1 = name)).map (·.2)).getD []

namespace Walker

/-- `std::stable_sort` by name. -/
def sorted (specs : List DependencySpec) : List DependencySpec :=
  specs.insertionSort fun a b => a.name ≤ b.name

section Walk

variable (g : ResolvedGraph) (opt : DepTreeOptions)

/-- The last package of a name is the one that is looked up. -/
def make (spec : DependencySpec) : DepNode :=
  match g.packages.reverse.find? (·.name = spec.name) with
  | none => { name := spec.name, requested := spec.versionConstraint }
  | some p => { name := spec.name, requested := spec.versionConstraint, version := p.version,
                repository := p.resolvedFromRepo, checksum := p.sha256 }

/-- The part of the way that leads from a package back to it. -/
def cycleFrom (path : List String) (name : String) : List String :=
  path.dropWhile (· ≠ name) ++ [name]

def recordCycle (w : Walker) (name : String) : Walker :=
  let cyc := cycleFrom w.path name
  if formatCycle cyc ∈ w.cycleKeys then w
  else { w with cycleKeys := insert (formatCycle cyc) w.cycleKeys, cycles := w.cycles ++ [cyc] }

def start (rootName : String) : Walker := { path := [rootName], levels := [(rootName, 0)] }

def enter (w : Walker) (name : String) (level : Nat) : Walker :=
  { w with expanded := insert name w.expanded, path := w.path ++ [name],
           levels := w.levels ++ [(name, level)] }

def meetAgain (w : Walker) (name : String) (level : Nat) : Walker :=
  { w with repeats := w.repeats ++ [(name, level)] }

def leave (w : Walker) : Walker := { w with path := w.path.dropLast }

/-- What lies below the limit is cut off. -/
def cutOff (childLevel : Nat) : Prop := 0 ≤ opt.depth ∧ opt.depth < childLevel + 1

instance : Decidable (cutOff opt childLevel) := by
  unfold cutOff
  infer_instance

/-- One child, with `visit` for what it declares itself. -/
def visitChild (visit : List DependencySpec → WalkM (List DepNode)) (childLevel : Nat)
    (spec : DependencySpec) : WalkM DepNode := do
  let w ← get
  let c := make g spec
  if c.name ∈ w.path then do
    modify (·.recordCycle c.name)
    return { c with status := .cycle }
  else if opt.dedupe = true ∧ c.name ∈ w.expanded then do
    modify (·.meetAgain c.name childLevel)
    return { c with status := .repeated }
  else if c.name ∈ g.opaquePackages then return { c with status := .opaquePackage }
  else if cutOff opt childLevel then
    return if (g.childrenOf c.name).isEmpty then c else { c with status := .truncated }
  else do
    modify (·.enter c.name childLevel)
    let children ← visit (g.childrenOf c.name)
    modify (·.leave)
    return { c with children }

/-- The children of a node at `level`. The walk nests at most as deep as there is fuel. -/
def visit : Nat → Nat → List DependencySpec → WalkM (List DepNode)
  | 0, _, _ => throw .outOfFuel
  | fuel + 1, level, kids =>
    (sorted kids).mapM (visitChild g opt (visit fuel (level + 1)) (level + 1))

end Walk

end Walker

def ResolvedGraph.names (g : ResolvedGraph) : List String :=
  g.roots.map (·.name) ++ g.children.flatMap fun kv => kv.2.map (·.name)

def walkFuel (g : ResolvedGraph) : Nat := g.names.length + 2

def buildDependencyTree (rootName rootVersion : String) (g : ResolvedGraph)
    (opt : DepTreeOptions) : Except Failure DepTree :=
  let root : DepNode := { name := rootName, version := rootVersion }
  if 0 ≤ opt.depth ∧ opt.depth < 1 then return { root }
  else match Walker.visit g opt (walkFuel g) 0 g.roots (.start rootName) with
    | .ok children w => return { root := { root with children }, cycles := w.cycles }
    | .error e _ => .error e

def findDependencyCycles (rootName : String) (g : ResolvedGraph) :
    Except Failure (List (List String)) := do
  let tree ← buildDependencyTree rootName "" g {}
  return tree.cycles

end Cajeta.Buildtool
