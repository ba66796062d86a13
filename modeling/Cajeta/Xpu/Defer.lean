import Cajeta.Lib.Bytes
import Cajeta.Xpu.CudaDriver
import Mathlib.Algebra.BigOperators.Group.List.Basic

/-!
# Deferred launches and their replay

A deferred stream queues its launches with their arguments copied by value. A flush submits the
queue one by one, or through an executable graph recorded for the same sequence of kernels with the
launches that differ patched in. What an executable graph holds is mirrored in `Dgraph.last`.
-/

namespace Cajeta.Xpu
open Delivery Bytes

inductive KParamKind where
  | scalar | buffer | texture | sampler | accel | image | bufferArray
  deriving DecidableEq

structure KParam where
  kind : KParamKind
  byteSize : Nat
  /-- The alignment assumed of a buffer's base; 1 for none. -/
  align : Nat := 1
  deriving DecidableEq

/-- What a queue would have to copy, 0 when the parameter cannot be copied by value. -/
def KParam.bytes (p : KParam) : Nat :=
  match p.kind with
  | .buffer => 8
  | .scalar => p.byteSize
  | _ => 0

def deferMaxArgs : Nat := 48
def deferBlob : Nat := 384

/-- Rounded up to a multiple of 8. -/
def aligned (bytes : Nat) : Nat := (bytes + 7) / 8 * 8

def argOffs : (off : Nat) → (sizes : List Nat) → List Nat
  | _, [] => []
  | off, n :: sizes => off :: argOffs (off + aligned n) sizes

def blobLen (sizes : List Nat) : Nat := (sizes.map aligned).sum

structure Kernel (env : Env) where
  fn : Fn
  /-- Empty without a record. -/
  kparams : List KParam
  /-- The relocated `extern .shared` bytes. -/
  dynShared : UInt32 := 0
  /-- The module has the specialization globals. -/
  hasSpec : Bool := false
  /-- The module carries an alignment fault record. -/
  hasAlignFault : Bool := false
  /-- What is registered is what the function was compiled with. -/
  registered : (∀ p ∈ kparams, p.bytes ≠ 0) → kparams ≠ [] →
    kparams.map (·.bytes) = env.paramSizes fn

namespace Kernel
variable {env : Env}

def argBytes (k : Kernel env) : List Nat := k.kparams.map (·.bytes)

/-- Every parameter can be copied by value, and there is room. -/
def queueable (k : Kernel env) : Bool :=
  k.kparams ≠ [] ∧ k.kparams.length ≤ deferMaxArgs ∧ (∀ p ∈ k.kparams, p.bytes ≠ 0) ∧
    blobLen k.argBytes ≤ deferBlob

def hasAccel (k : Kernel env) : Bool := k.kparams.any (·.kind == .accel)

def needsXlat (k : Kernel env) : Bool :=
  k.kparams.any fun p => p.kind == .texture || p.kind == .image || p.kind == .bufferArray

end Kernel

/-- A queued launch. -/
structure Dl where
  fn : Fn
  grid : Dim
  block : Dim
  shared : UInt32
  off : List Nat
  blob : List UInt8

/-- What the driver reads through the argument pointers of a queued launch. -/
def Dl.node (env : Env) (l : Dl) : Params where
  fn := l.fn
  grid := l.grid
  block := l.block
  shared := l.shared
  args := (l.off.zip (env.paramSizes l.fn)).map fun (off, n) => slice l.blob off n

def dlSame (a b : Dl) : Bool :=
  a.grid = b.grid ∧ a.block = b.block ∧ a.shared = b.shared ∧ a.blob.length = b.blob.length ∧
    a.blob = b.blob

/-- A recorded sequence. -/
structure Dgraph where
  sig : UInt64
  graph : Nat
  exec : Nat
  /-- What the executable graph currently holds. -/
  last : List Dl
  use : Nat

def deferStreams : Nat := 8
def deferGraphs : Nat := 32
def deferCands : Nat := 32
def deferQueueMax : Nat := 8192
def deferMinReplay : Nat := 3

structure Dstream where
  stream : Stream
  enabled : Bool := false
  q : List Dl := []
  cap : Nat := 0
  g : Fin deferGraphs → Option Dgraph := fun _ => none
  cand : List UInt64 := List.replicate deferCands 0
  candNext : Nat := 0
  tick : Nat := 0

def dgraphDrop (env : Env) (g : Dgraph) (d : Driver) : Driver :=
  (d.cuGraphExecDestroy env g.exec).cuGraphDestroy env g.graph

/-- One kernel node per launch, each depending on the one before it. -/
def addNodes (env : Env) (graph : Nat) : (dep : Option Nat) → List Dl → Driver → Bool × Driver
  | _, [], d => (true, d)
  | dep, l :: q, d =>
    match d.cuGraphAddKernelNode env graph dep (l.node env) with
    | (some node, d) => addNodes env graph (some node) q d
    | (none, d) => (false, d)

/-- Records the queue, and answers the graph and its executable form. -/
def recordQueue (env : Env) (q : List Dl) (d : Driver) : Option (Nat × Nat) × Driver :=
  -- The arrays of the slot are allocated first.
  match d.call env id with
  | (false, d) => (none, d)
  | (true, d) =>
    match d.cuGraphCreate env with
    | (none, d) => (none, d)
    | (some graph, d) =>
      match addNodes env graph none q d with
      | (false, d) => (none, d.cuGraphDestroy env graph)
      | (true, d) =>
        match d.cuGraphInstantiate env graph with
        | (none, d) => (none, d.cuGraphDestroy env graph)
        | (some exec, d) => (some (graph, exec), d)

/-- The first free slot, or the one used longest ago. -/
def pickSlot (g : Fin deferGraphs → Option Dgraph) : Fin deferGraphs :=
  let rec go (best : Fin deferGraphs) : List (Fin deferGraphs) → Fin deferGraphs
    | [] => best
    | i :: is =>
      match g i with
      | none => i
      | some c => go (if c.use < ((g best).map (·.use)).getD 0 then i else best) is
  go ⟨0, by decide⟩ (List.finRange deferGraphs)

def dropSlot (env : Env) (i : Fin deferGraphs) (ds : Dstream) (d : Driver) : Dstream × Driver :=
  match ds.g i with
  | some g => ({ ds with g := Function.update ds.g i none }, dgraphDrop env g d)
  | none => (ds, d)

def dropSlots (env : Env) : List (Fin deferGraphs) → Dstream → Driver → Dstream × Driver
  | [], ds, d => (ds, d)
  | i :: is, ds, d =>
    let (ds, d) := dropSlot env i ds d
    dropSlots env is ds d

def dgraphBuild (env : Env) (ds : Dstream) (sig : UInt64) (d : Driver) :
    Option (Fin deferGraphs × Dgraph) × Dstream × Driver :=
  let i := pickSlot ds.g
  let (ds, d) := dropSlot env i ds d
  match recordQueue env ds.q d with
  | (none, d) => (none, ds, d)
  | (some (graph, exec), d) =>
    let g : Dgraph := { sig, graph, exec, last := ds.q, use := 0 }
    (some (i, g), { ds with g := Function.update ds.g i (some g) }, d)

/-- FNV over the functions and their numbers of arguments. -/
def signature (q : List Dl) : UInt64 :=
  q.foldl (fun sig l => (sig ^^^ (l.fn + UInt64.ofNat l.off.length)) * 1099511628211)
    (1469598103934665603 ^^^ UInt64.ofNat q.length)

/-- The signature is a hash, so the kernels are compared too. -/
def sameKernels (last q : List Dl) : Bool :=
  last.length = q.length ∧ (last.zip q).all fun (a, b) => a.fn = b.fn ∧ a.off.length = b.off.length

def findGraph (ds : Dstream) (sig : UInt64) : Option (Fin deferGraphs × Dgraph) :=
  (List.finRange deferGraphs).findSome? fun i =>
    (ds.g i).bind fun g => if g.sig = sig ∧ sameKernels g.last ds.q then some (i, g) else none

def patchNodes (env : Env) (exec : Nat) :
    (node : Nat) → (last q : List Dl) → Driver → Option (List Dl) × Driver
  | node, a :: last, l :: q, d =>
    if dlSame a l then
      let (r, d) := patchNodes env exec (node + 1) last q d
      (r.map (a :: ·), d)
    else
      match d.cuGraphExecKernelNodeSetParams env exec node (l.node env) with
      | (false, d) => (none, d)
      | (true, d) =>
        let (r, d) := patchNodes env exec (node + 1) last q d
        (r.map (l :: ·), d)
  | _, _, _, d => (some [], d)

/-- Launches the recording in slot `i`, which is dropped when the driver refuses it. -/
def launchGraph (env : Env) (i : Fin deferGraphs) (g : Dgraph) (ds : Dstream) (d : Driver) :
    Bool × Dstream × Driver :=
  match d.cuGraphLaunch env g.exec ds.stream with
  | (true, d) =>
    (true, { ds with tick := ds.tick + 1,
                     g := Function.update ds.g i (some { g with use := ds.tick + 1 }) }, d)
  | (false, d) => (false, dropSlot env i ds d)

/-- Whether the queue was submitted as a graph. -/
def replay (env : Env) (ds : Dstream) (d : Driver) : Bool × Dstream × Driver :=
  let sig := signature ds.q
  match findGraph ds sig with
  | some (i, g) =>
    match patchNodes env g.exec 0 g.last ds.q d with
    | (some last, d) =>
      let g := { g with last }
      launchGraph env i g { ds with g := Function.update ds.g i (some g) } d
    | (none, d) => (false, dropSlot env i ds d)
  | none =>
    -- The second sight of a sequence records it.
    if sig ∈ ds.cand then
      match dgraphBuild env ds sig d with
      | (some (i, g), ds, d) => launchGraph env i g ds d
      | (none, ds, d) => (false, ds, d)
    else
      (false, { ds with cand := ds.cand.set ds.candNext sig,
                        candNext := (ds.candNext + 1) % deferCands }, d)

def submitOneByOne (env : Env) (s : Stream) (q : List Dl) (d : Driver) : Driver :=
  q.foldl (fun d l => d.cuLaunchKernel s (l.node env)) d

def deferFlushLocked (env : Env) (ds : Dstream) (d : Driver) : Dstream × Driver :=
  let (done, ds, d) :=
    if ds.q.length ≥ deferMinReplay ∧ env.graphsBound then replay env ds d else (false, ds, d)
  ({ ds with q := [] }, if done then d else submitOneByOne env ds.stream ds.q d)

end Cajeta.Xpu
