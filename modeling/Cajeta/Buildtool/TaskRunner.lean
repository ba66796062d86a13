import Cajeta.Buildtool.Properties
import Mathlib.Algebra.Ring.Int.Defs

/-!
# Running tasks

A task's actions run in order in a context that resolves `${...}`: the properties, the task's
parameters and the outputs that earlier actions published. A parallel group runs its children on
copies of the context and merges what they hold back; a `run-task` entry runs another task in a
context of its own.
-/

namespace Cajeta.Buildtool

abbrev Outputs := SortedMap String String

structure ActionContext where
  props : ResolvedProperties
  params : SortedMap String String := .empty
  actionOutputs : SortedMap String Outputs := .empty

namespace ActionContext

/-- A parameter, else a field that was published under an id, else a property. -/
def lookup (process : Process) (ctx : ActionContext) (name : String) : Option String :=
  match dropPrefix "params." name with
  | some p => ctx.params.find? p
  | none =>
    match (behindDot name).bind fun field =>
        (ctx.actionOutputs.find? (beforeDot name)).bind (·.find? field) with
    | some v => some v
    | none => ctx.props.lookup process name

def substitute (process : Process) (ctx : ActionContext) (s whereContext : String) :
    Except String String :=
  match substituteOnce (ctx.lookup process) s.toList with
  | .ok r => return String.ofList r
  | .error missing =>
    .error (whereContext ++ ": references undefined property '" ++ missing ++ "'")

end ActionContext

/-- The context of one task. `published` is history: the ids under which outputs were published in
this context. -/
structure TaskContext extends ActionContext where
  cliParams : SortedMap String String := .empty
  published : List String := []

namespace TaskContext

def setParam (ctx : TaskContext) (name value : String) : TaskContext :=
  { ctx with params := ctx.params.insert name value }

def setCliParams (ctx : TaskContext) (values : SortedMap String String) : TaskContext :=
  { ctx with cliParams := values }

def publishOutputs (ctx : TaskContext) (id : String) (outputs : Outputs) : TaskContext :=
  if id = "" then ctx
  else { ctx with actionOutputs := ctx.actionOutputs.insert id outputs,
                  published := ctx.published ++ [id] }

/-- A copy that a child of a parallel group runs on. -/
def snapshot (ctx : TaskContext) : TaskContext :=
  { props := ctx.props, params := ctx.params, actionOutputs := ctx.actionOutputs }

def mergeOutputs (ctx other : TaskContext) : TaskContext :=
  { ctx with
    actionOutputs :=
      other.actionOutputs.entries.foldl (fun outs kv => outs.insert kv.1 kv.2) ctx.actionOutputs
    published := ctx.published ++ other.published }

end TaskContext

mutual

def substituteValue (subst : String → String → Except String String) (whereContext : String) :
    Json → Except String Json
  | .str s => return .str (← subst s whereContext)
  | .obj fields => return .obj (← substituteFields subst whereContext fields)
  | .arr items => return .arr (← substituteItems subst whereContext 0 items)
  | .null => return .null
  | .bool b => return .bool b
  | .int n => return .int n
  | .double text n => return .double text n

def substituteFields (subst : String → String → Except String String) (whereContext : String) :
    List (String × Json) → Except String (List (String × Json))
  | [] => return []
  | (key, v) :: fields => do
    let child ← substituteValue subst (whereContext ++ "." ++ key) v
    let rest ← substituteFields subst whereContext fields
    return (key, child) :: rest

def substituteItems (subst : String → String → Except String String) (whereContext : String) :
    Nat → List Json → Except String (List Json)
  | _, [] => return []
  | i, v :: items => do
    let child ← substituteValue subst (whereContext ++ "[" ++ toString i ++ "]") v
    let rest ← substituteItems subst whereContext (i + 1) items
    return child :: rest

end

/-- What the runner uses from outside: the process, the conversion of a text to a floating point
number, and the actions by name. An action answers from its parameters, its context and the state
of the world, and may change the world. -/
structure Platform (ω : Type) where
  process : Process
  getAsDouble : String → Option Json
  registry : String → Option (JObject → ActionContext → ω → Except String Outputs × ω)

/-- A decimal number, with a minus sign or none, that fits 64 bits. -/
def getAsInteger (s : List Char) : Option Int :=
  let digits := if s.head? = some '-' then s.drop 1 else s
  if digits = [] ∨ ¬digits.all Char.isDigit = true then none
  else
    let value : Int := digits.foldl (fun n c => n * 10 + (c.toNat - 48)) 0
    let n := if s.head? = some '-' then -value else value
    if -2 ^ 63 ≤ n ∧ n < 2 ^ 63 then some n else none

section Runner

variable {ω : Type} (platform : Platform ω)

/-- The typed value of a command line text. -/
def coerceCliParam (raw : String) : Json :=
  if raw = "true" then .bool true
  else if raw = "false" then .bool false
  else match getAsInteger raw.toList with
    | some n => .int n
    | none => ((if raw = "" then none else platform.getAsDouble raw)).getD (.str raw)

/-- `params[name] = value`. -/
def setField (params : JObject) (name : String) (value : Json) : JObject :=
  if params.any (·.1 == name) then
    params.map fun kv => if kv.1 = name then (name, value) else kv
  else params ++ [(name, value)]

/-- Overlays the command line's values onto one action's parameters. -/
def applyCliParamOverrides (params : JObject) (ctx : TaskContext) : JObject :=
  ctx.cliParams.entries.foldl (fun params kv => setField params kv.1 (coerceCliParam platform kv.2))
    params

/-- A task's parameters: those given, or else their defaults. -/
def bindParams (task : Task) (cli : SortedMap String String) (ctx : TaskContext) :
    Except String TaskContext :=
  task.params.foldlM (fun ctx spec =>
    match cli.find? spec.name with
    | some v => return ctx.setParam spec.name v
    | none => match spec.defaultValue with
      | some d => do
        let resolved ← ctx.substitute platform.process d
          ("task '" ++ task.name ++ "' params." ++ spec.name ++ " default")
        return ctx.setParam spec.name resolved
      | none => if spec.required then .error ("task '" ++ task.name ++ "' requires param '" ++
          spec.name ++ "' (none supplied, no default)") else return ctx) ctx

def isTruthy (s : String) : Bool := s ≠ "" && s ≠ "false" && s ≠ "0" && s ≠ "null"

/-- Whether the guards say to skip the entry. -/
def shouldSkip (whenExpr skipWhenExpr : Option String) (whereContext : String)
    (ctx : TaskContext) : Except String Bool := do
  let off ← (match whenExpr with
    | some w => do
      let r ← ctx.substitute platform.process w (whereContext ++ " when")
      return !isTruthy r
    | none => return false)
  if off then return true
  match skipWhenExpr with
  | some w => do
    let r ← ctx.substitute platform.process w (whereContext ++ " skip-when")
    return isTruthy r
  | none => return false

/-! ## Entries -/

/-- The context an entry runs in and the world. The rest is history: what has been handed to
actions, the tasks whose entries are being run, the innermost first, and the tasks that were called,
each with those under way at the call. -/
structure Run (ω : Type) where
  ctx : TaskContext
  world : ω
  handed : List (String × JObject) := []
  underWay : List String := []
  calls : List (String × List String) := []

abbrev RunM (ω : Type) := EStateM Failure (Run ω)

/-- A refusal ends the run. -/
def RunM.check (x : Except String α) : RunM ω α := EStateM.ofResult (x.mapError .failed)

/-- Runs in another context and returns that context and the failure, if any. The own context is
as it was before. -/
def RunM.inside (ctx : TaskContext) (x : RunM ω Unit) : RunM ω (Option Failure × TaskContext) :=
  fun s => match x { s with ctx } with
    | .ok _ s' => .ok (none, s'.ctx) { s' with ctx := s.ctx }
    | .error e s' => .ok (some e, s'.ctx) { s' with ctx := s.ctx }

/-- Runs the entries of a called task in a context of their own. -/
def RunM.calling (name : String) (ctx : TaskContext) (x : RunM ω Unit) :
    RunM ω (Option Failure × TaskContext) := fun s =>
  match RunM.inside ctx x { s with
    underWay := name :: s.underWay, calls := s.calls ++ [(name, s.underWay)] } with
  | .ok r s' => .ok r { s' with underWay := s.underWay }
  | .error e s' => .error e { s' with underWay := s.underWay }

def RunM.setContext (f : TaskContext → TaskContext) : RunM ω Unit :=
  modify fun s => { s with ctx := f s.ctx }

def RunM.act (name : String) (params : JObject)
    (action : JObject → ActionContext → ω → Except String Outputs × ω) :
    RunM ω (Except String Outputs) := fun s =>
  let (result, world) := action params s.ctx.toActionContext s.world
  .ok result { s with world, handed := s.handed ++ [(name, params)] }

def runOneInvocation (inv : ActionInvocation) (breadcrumb : String) : RunM ω Unit := do
  let s ← get
  let skip ← RunM.check (shouldSkip platform inv.whenExpr inv.skipWhenExpr breadcrumb s.ctx)
  if skip then return ()
  else match platform.registry inv.action with
    | none => throw (.failed (breadcrumb ++ " references unknown action '" ++ inv.action ++
        "'. See plans/buildtool/build-tool-plan.md for the action catalog rollout schedule."))
    | some action => do
      let resolved ← RunM.check
        (substituteFields (s.ctx.substitute platform.process) breadcrumb inv.params)
      let result ← RunM.act inv.action (applyCliParamOverrides platform resolved s.ctx) action
      match result with
      | .error text => throw (.failed (breadcrumb ++ " (" ++ inv.action ++ "): " ++ text))
      | .ok outputs => RunM.setContext (·.publishOutputs inv.id outputs)

/-- Another child's failure behind those before. -/
def alsoFailed (text : String) : Option Failure → String
  | some (.failed t) =>
    if t = "" then text else if text = "" then t else text ++ "\n  also: " ++ t
  | _ => text

/-- The texts of the children's failures in the order of their declaration. -/
def combined (failures : List (Option Failure)) : String := failures.foldl alsoFailed ""

/-- Joins the children: their outputs are merged in the order of their declaration, and then their
failures are reported. A child that does not return is never joined. -/
def joinChildren (results : List (Option Failure × TaskContext)) : RunM ω Unit :=
  if results.any (·.1 = some .outOfFuel) then throw .outOfFuel
  else do
    RunM.setContext fun ctx => results.foldl (fun ctx r => ctx.mergeOutputs r.2) ctx
    if combined (results.map (·.1)) = "" then return ()
    else throw (.failed (combined (results.map (·.1))))

section Entries

variable (callTask : RunTaskCall → String → RunM ω Unit)

mutual

def runEntry (breadcrumb : String) : ActionEntry → RunM ω Unit
  | .invocation inv => runOneInvocation platform inv breadcrumb
  | .parallel children => do
    -- a group without children is left at once
    if children.isEmpty then return ()
    else
      let s ← get
      let results ← runChildren s.ctx breadcrumb 0 children
      joinChildren results
  | .runTask call => callTask call breadcrumb

/-- Each child is run as a list of its own, on a snapshot. The threads share nothing but the world,
from which an action may answer in any way, so that one order of the children stands for all. -/
def runChildren (parentCtx : TaskContext) (breadcrumb : String) :
    Nat → List ActionEntry → RunM ω (List (Option Failure × TaskContext))
  | _, [] => return []
  | i, e :: children => do
    let r ← RunM.inside parentCtx.snapshot
      (runEntry (breadcrumb ++ ".parallel[" ++ toString i ++ "] actions[0]") e)
    let rs ← runChildren parentCtx breadcrumb (i + 1) children
    return r :: rs

end

def runEntries (breadcrumbBase : String) : Nat → List ActionEntry → RunM ω Unit
  | _, [] => return ()
  | i, e :: entries => do
    runEntry platform callTask (breadcrumbBase ++ " actions[" ++ toString i ++ "]") e
    runEntries breadcrumbBase (i + 1) entries

end Entries

/-! ## Tasks -/

/-- The id under which an entry publishes. A group has none. -/
def ActionEntry.id : ActionEntry → String
  | .invocation inv => inv.id
  | .parallel _ => ""
  | .runTask call => call.id

/-- No two entries of a task have the same id. -/
def checkIds (task : Task) : Except String Unit := do
  let _ ← task.actions.foldlM (fun seen e =>
    if e.id = "" then return seen
    else if e.id ∈ seen then
      .error ("task '" ++ task.name ++ "': duplicate id '" ++ e.id ++ "' across actions")
    else return e.id :: seen) []
  return ()

/-- Substitutes the values of a map, in the order of its keys. -/
def substituteMap (ctx : TaskContext) (whereContext : String) (m : SortedMap String String) :
    Except String (SortedMap String String) :=
  m.entries.foldlM (fun out kv => do
    let resolved ← ctx.substitute platform.process kv.2 (whereContext ++ kv.1)
    return out.insert kv.1 resolved) .empty

/-- Calls another task in a context of its own. Calls nest at most as deep as there is fuel. -/
def runOneRunTask (tasks : Tasks) : Nat → RunTaskCall → String → RunM ω Unit
  | 0, _, _ => throw .outOfFuel
  | fuel + 1, call, breadcrumb => do
    let s ← get
    let skip ← RunM.check (shouldSkip platform call.whenExpr call.skipWhenExpr breadcrumb s.ctx)
    if skip then return ()
    else match tasks.find? call.taskName with
    | none => throw (.failed (breadcrumb ++ " references unknown task '" ++ call.taskName ++ "'"))
    | some called => do
      let cli ← RunM.check (substituteMap platform s.ctx (breadcrumb ++ " params.") call.params)
      let childCtx ← RunM.check (bindParams platform called cli { props := s.ctx.props })
      RunM.check (checkIds called)
      let (failure, childCtx) ← RunM.calling call.taskName childCtx
        (runEntries platform (runOneRunTask tasks fuel) ("task '" ++ called.name ++ "'") 0
          called.actions)
      match failure with
      | some e => throw e
      | none => do
        let outputs ← RunM.check (substituteMap platform childCtx
          ("task '" ++ called.name ++ "' outputs.") called.outputs)
        RunM.setContext (·.publishOutputs call.id outputs)

/-- The world, what has been handed to actions, the tasks that have been started, and the calls as
in `Run`. -/
structure Session (ω : Type) where
  world : ω
  handed : List (String × JObject) := []
  started : List String := []
  calls : List (String × List String) := []

abbrev SessionM (ω : Type) := EStateM Failure (Session ω)

def SessionM.check (x : Except Failure α) : SessionM ω α := EStateM.ofResult x

/-- Runs the entries of a task in a context and returns what has become of it. -/
def SessionM.runIn (name : String) (ctx : TaskContext) (x : RunM ω Unit) : SessionM ω TaskContext :=
  fun s =>
    match x { ctx, world := s.world, handed := s.handed, underWay := [name], calls := s.calls } with
    | .ok _ r => .ok r.ctx { s with world := r.world, handed := r.handed, calls := r.calls }
    | .error e r => .error e { s with world := r.world, handed := r.handed, calls := r.calls }

def runOneTask (tasks : Tasks) (props : ResolvedProperties) (fuel : Nat) (task : Task)
    (cliParams : SortedMap String String) : SessionM ω Outputs := do
  let ctx ← SessionM.check ((bindParams platform task cliParams { props }).mapError .failed)
  let ctx := ctx.setCliParams cliParams
  SessionM.check ((checkIds task).mapError .failed)
  let ctx ← SessionM.runIn task.name ctx (runEntries platform (runOneRunTask platform tasks fuel)
    ("task '" ++ task.name ++ "'") 0 task.actions)
  SessionM.check ((substituteMap platform ctx ("task '" ++ task.name ++ "' outputs.")
    task.outputs).mapError .failed)

end Runner

/-- The tasks seen, and those whose dependencies have all been put in order. -/
structure Ordering where
  visited : Finset String := ∅
  order : List String := []

def topoOrder (tasks : Tasks) : Nat → Ordering → String → Except Failure Ordering
  | 0, _, _ => .error .outOfFuel
  | fuel + 1, o, root =>
    if root ∈ o.visited then return o
    else
      let o := { o with visited := insert root o.visited }
      match tasks.find? root with
      | none => return o
      | some task => do
        let o ← task.dependsOn.foldlM (topoOrder tasks fuel) o
        return { o with order := o.order ++ [root] }

section RunTask

variable {ω : Type} (platform : Platform ω)

def runInOrder (tasks : Tasks) (taskName : String) (cliParams : SortedMap String String)
    (props : ResolvedProperties) (fuel : Nat) (lastOutputs : Outputs) (name : String) :
    SessionM ω Outputs := do
  match tasks.find? name with
  | none => throw (.failed ("no such task: '" ++ name ++ "'"))
  | some task => do
    modify fun s => { s with started := s.started ++ [name] }
    -- the command line's parameters reach the target only
    let outs ← runOneTask platform tasks props fuel task
      (if name = taskName then cliParams else .empty)
    return if name = taskName then outs else lastOutputs

def runTask (tasks : Tasks) (taskName : String) (cliParams : SortedMap String String)
    (props : ResolvedProperties) (fuel : Nat) : SessionM ω Outputs := do
  SessionM.check (validateTaskGraph tasks)
  match tasks.find? taskName with
  | none => throw (.failed ("no such task: '" ++ taskName ++ "'"))
  | some _ => do
    let o ← SessionM.check (topoOrder tasks (searchFuel tasks) {} taskName)
    o.order.foldlM (runInOrder platform tasks taskName cliParams props fuel) .empty

end RunTask

end Cajeta.Buildtool
