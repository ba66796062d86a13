import Cajeta.Lib.Delivery
import Mathlib.Logic.Function.Basic

/-!
# The CUDA driver, as the runtime uses it

Whether a driver call succeeds is up to the driver, so it is an argument of the model. A call that
fails submits or changes nothing. A graph launch runs its chain in order, with the parameters last
set for each node.
-/

namespace Cajeta.Xpu
open Delivery

/-- A function handle of the driver. -/
abbrev Fn := UInt64

abbrev Stream := UInt64

/-- The bytes from a pointer on. -/
abbrev Memory := Nat → UInt8

def Memory.read (m : Memory) (n : Nat) : List UInt8 := (List.range n).map m

abbrev Dim := UInt32 × UInt32 × UInt32

/-- A launch as the driver receives it: each argument is the bytes of one parameter. -/
structure Params where
  fn : Fn
  grid : Dim
  block : Dim
  shared : UInt32
  args : List (List UInt8)
  deriving DecidableEq

/-- The driver entries that observe what a stream has done. -/
inductive Entry where
  | cuMemcpyHtoD | cuMemcpyDtoH | cuMemcpyDtoD | cuMemFree | cuMemFreeHost | cuStreamSynchronize
  | cuStreamDestroy | cuMemcpyHtoDAsync | cuMemcpyDtoHAsync | cuEventRecord | cuEventSynchronize
  | cuEventQuery | cuStreamWaitEvent | cuCtxSynchronize | cuArrayDestroy | cuMemcpy2D
  | cuTexObjectDestroy | cuSurfObjectDestroy
  deriving DecidableEq

abbrev Event := Delivery.Event Stream Params Entry

/-- What the environment variable `CAJETA_XPU_DEFER` asks for. -/
inductive DeferMode where
  | never
  | chosen
  | all
  deriving DecidableEq

/-- What a run cannot influence. -/
structure Env where
  /-- Whether the n-th driver call or allocation succeeds. -/
  answers : Nat → Bool
  /-- The driver's own record of a function: the size of each parameter. -/
  paramSizes : Fn → List Nat
  deferMode : DeferMode
  /-- The driver exports the graph entries. -/
  graphsBound : Bool
  /-- The driver exports `cuFuncSetAttribute`. -/
  funcSetAttributeBound : Bool

structure Driver where
  calls : Nat := 0
  handles : Nat := 0
  /-- A graph's nodes, each with the node it depends on. -/
  graphs : Nat → List (Option Nat × Params) := fun _ => []
  /-- What an executable graph runs. -/
  execs : Nat → List Params := fun _ => []
  trace : List Event := []

namespace Driver

def note (d : Driver) (e : Event) : Driver := { d with trace := d.trace ++ [e] }

def call (env : Env) (effect : Driver → Driver) (d : Driver) : Bool × Driver :=
  let d' := { d with calls := d.calls + 1 }
  if env.answers d.calls then (true, effect d') else (false, d')

def cuLaunchKernel (s : Stream) (p : Params) (d : Driver) : Driver :=
  { d with calls := d.calls + 1, trace := d.trace ++ [.received s p] }

/-- A call that creates answers the new handle. -/
def create (env : Env) (effect : Nat → Driver → Driver) (d : Driver) : Option Nat × Driver :=
  let (ok, d') := d.call env fun d' => effect d.handles { d' with handles := d.handles + 1 }
  (if ok then some d.handles else none, d')

def cuGraphCreate (env : Env) (d : Driver) : Option Nat × Driver :=
  d.create env fun graph d => { d with graphs := Function.update d.graphs graph [] }

/-- A node's handle is its place in the graph. -/
def cuGraphAddKernelNode (env : Env) (graph : Nat) (dep : Option Nat) (p : Params) (d : Driver) :
    Option Nat × Driver :=
  let (ok, d') := d.call env fun d =>
    { d with graphs := Function.update d.graphs graph (d.graphs graph ++ [(dep, p)]) }
  (if ok then some (d.graphs graph).length else none, d')

/-- The order that a chain of dependencies leaves no choice about. -/
def chain : (prev : Option Nat) → (i : Nat) → List (Option Nat × Params) → Option (List Params)
  | _, _, [] => some []
  | prev, i, (dep, p) :: nodes =>
    if dep = prev then (chain (some i) (i + 1) nodes).map (p :: ·) else none

def cuGraphInstantiate (env : Env) (graph : Nat) (d : Driver) : Option Nat × Driver :=
  d.create env fun exec d => { d with
    execs := Function.update d.execs exec ((chain none 0 (d.graphs graph)).getD []) }

def cuGraphExecKernelNodeSetParams (env : Env) (exec node : Nat) (p : Params) (d : Driver) :
    Bool × Driver :=
  d.call env fun d =>
    { d with execs := Function.update d.execs exec ((d.execs exec).set node p) }

def cuGraphLaunch (env : Env) (exec : Nat) (s : Stream) (d : Driver) : Bool × Driver :=
  d.call env fun d => { d with trace := d.trace ++ (d.execs exec).map (.received s) }

def cuGraphExecDestroy (env : Env) (exec : Nat) (d : Driver) : Driver :=
  (d.call env fun d => { d with execs := Function.update d.execs exec [] }).2

def cuGraphDestroy (env : Env) (graph : Nat) (d : Driver) : Driver :=
  (d.call env fun d => { d with graphs := Function.update d.graphs graph [] }).2

end Driver

end Cajeta.Xpu
