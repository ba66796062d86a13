import Cajeta.Xpu.Defer

/-!
# Launches, toggles, flushes and observations

The calls a program makes, and what the runtime does for each of them. Every observing driver entry
is wrapped to submit the queues first; an OptiX launch reaches the driver by entries of its own.
-/

namespace Cajeta.Xpu
open Delivery Bytes

structure State where
  slots : Fin deferStreams → Option Dstream := fun _ => none
  /-- `g_defer_pending`: launches queued, over every stream. -/
  pending : Nat := 0
  /-- A profiler's device sink is live. -/
  profiled : Bool := false
  /-- The count last written to a module's specialization globals. -/
  lastSpecCount : Fn → Option Nat := fun _ => none
  drv : Driver := {}

namespace State

def note (st : State) (e : Event) : State := { st with drv := st.drv.note e }

def dstreamFind (st : State) (s : Stream) : Option (Fin deferStreams × Dstream) :=
  (List.finRange deferStreams).findSome? fun i =>
    (st.slots i).bind fun ds => if ds.stream = s then some (i, ds) else none

def freeSlot (st : State) : Option (Fin deferStreams) :=
  (List.finRange deferStreams).find? fun i => (st.slots i).isNone

def setSlot (st : State) (i : Fin deferStreams) (ds : Dstream) : State :=
  { st with slots := Function.update st.slots i (some ds) }

/-- Finds the stream's record or makes one, when a slot is left. -/
def dstreamCreate (st : State) (s : Stream) : Option (Fin deferStreams × Dstream) × State :=
  match st.dstreamFind s with
  | some r => (some r, st)
  | none =>
    match st.freeSlot with
    | some i => (some (i, { stream := s }), st.setSlot i { stream := s })
    | none => (none, st)

def flushSlot (env : Env) (i : Fin deferStreams) (ds : Dstream) (st : State) : State :=
  let (ds', drv) := deferFlushLocked env ds st.drv
  { st with slots := Function.update st.slots i (some ds')
            pending := st.pending - ds.q.length
            drv }

def deferFlushAll (env : Env) (st : State) : State :=
  (List.finRange deferStreams).foldl (fun st i =>
    match st.slots i with
    | some ds => flushSlot env i ds st
    | none => st) st

def deferFlushStream (env : Env) (s : Stream) (st : State) : State :=
  match st.dstreamFind s with
  | some (i, ds) => flushSlot env i ds st
  | none => st

/-- What every wrapper does before the driver's own entry. -/
def deferSubmit (env : Env) (st : State) : State :=
  if st.pending ≠ 0 then deferFlushAll env st else st

/-- A wrapped entry, and whether the driver accepted it. -/
def observe (env : Env) (e : Entry) (st : State) : Bool × State :=
  let st := st.deferSubmit env
  let (ok, drv) := st.drv.call env id
  (ok, { st with drv := drv.note (.observed e) })

def observeAll (env : Env) (es : List Entry) (st : State) : State :=
  es.foldl (fun st e => (st.observe env e).2) st

def deferStreamGone (env : Env) (s : Stream) (st : State) : State :=
  match st.dstreamFind s with
  | some (i, ds) =>
    { st with slots := Function.update st.slots i none
              drv := (dropSlots env (List.finRange deferGraphs) ds st.drv).2 }
  | none => st

def streamDestroy (env : Env) (s : Stream) (st : State) : State :=
  let st := (st.deferSubmit env).deferStreamGone env s
  let (_, drv) := st.drv.call env id
  { st with drv := drv.note (.observed .cuStreamDestroy) }

def streamSetDeferred (env : Env) (s : Stream) (on : Bool) (st : State) : State :=
  let (r, st) := if on then st.dstreamCreate s else (st.dstreamFind s, st)
  match r with
  | some (i, ds) =>
    let st := if on then st else flushSlot env i ds st
    let ds := (st.slots i).getD ds
    st.setSlot i { ds with enabled := on }
  | none => st

def streamFlush (env : Env) (s : Stream) (st : State) : State :=
  if st.pending = 0 then st else deferFlushStream env s st

def deferWants (env : Env) (s : Stream) (st : State) : Bool :=
  match env.deferMode with
  | .never => false
  | .all => !st.profiled
  | .chosen => !st.profiled && ((st.dstreamFind s).map (·.2.enabled)).getD false

/-- Copies the arguments of these sizes to their places in the blob. -/
def copyArgs : (argv : Nat → Memory) → (offs sizes : List Nat) → List UInt8 → List UInt8
  | argv, off :: offs, n :: sizes, blob =>
    copyArgs (fun i => argv (i + 1)) offs sizes (Bytes.patch blob off ((argv 0).read n))
  | _, _, _, blob => blob

def queued {env : Env} (k : Kernel env) (grid block : Dim) (shared : UInt32) (argv : Nat → Memory) :
    Dl where
  fn := k.fn
  grid := grid
  block := block
  shared := shared
  off := argOffs 0 k.argBytes
  blob := copyArgs argv (argOffs 0 k.argBytes) k.argBytes (List.replicate (blobLen k.argBytes) 0)

/-- Makes room for one more launch; `none` when the allocation fails. -/
def makeRoom (env : Env) (i : Fin deferStreams) (ds : Dstream) (st : State) :
    Option Dstream × State :=
  if ds.q.length = ds.cap then
    if ds.cap ≥ deferQueueMax then
      let st := flushSlot env i ds st
      (st.slots i, st)
    else
      let (ok, drv) := st.drv.call env id
      (if ok then some { ds with cap := if ds.cap ≠ 0 then ds.cap * 2 else 64 } else none,
        { st with drv })
  else (some ds, st)

/-- Queues one launch; false when it could not be queued and must go directly. -/
def deferEnqueue (env : Env) (s : Stream) (l : Dl) (p : Params) (st : State) : Bool × State :=
  match st.dstreamCreate s with
  | (none, st) => (false, st)
  | (some (i, ds), st) =>
    match makeRoom env i ds st with
    | (none, st) => (false, st)
    | (some ds, st) =>
      let st := st.setSlot i { ds with q := ds.q ++ [l] }
      (true, { st with pending := st.pending + 1 }.note (.called s p))

end State

/-! ## Launches -/

/-- What the resolution of a launch's acceleration structure came to. -/
inductive OptixRoute where
  | notTaken
  | refused
  | launched (p : Params)

structure Launch (env : Env) where
  /-- `none` when no function is registered under the name. -/
  kernel : Option (Kernel env)
  grid : Dim
  block : Dim
  sharedBytes : UInt32 := 0
  argv : Option (Nat → Memory)
  stream : Stream
  specCount : Nat := 0
  optix : OptixRoute := .notTaken
  /-- The observing calls of the OptiX glue outside of a launch that it carries out: those of the
  build of an acceleration structure, and of a launch it gives up. -/
  optixCalls : List Entry := []
  /-- The arguments with the textures, images, buffer arrays and acceleration structures replaced,
  `none` when one of them could not be made, -/
  translated : Option (Nat → Memory) := none
  /-- the observing calls made to replace them, -/
  translation : List Entry := []
  /-- and those that release what was made. -/
  release : List Entry := []
  /-- The observing calls of the profiler's bracket before the launch, and after it. -/
  bracketBegin : List Entry := []
  bracketEnd : List Entry := []

def staticSharedCap : UInt32 := 49152

/-- The arguments of these sizes, as they stand. -/
def readArgs : (argv : Nat → Memory) → (sizes : List Nat) → List (List UInt8)
  | _, [] => []
  | argv, n :: sizes => (argv 0).read n :: readArgs (fun i => argv (i + 1)) sizes

namespace Launch
variable {env : Env}

def needsTranslation (k : Kernel env) : Bool := k.needsXlat || k.hasAccel

def useArgv (l : Launch env) (k : Kernel env) : Option (Nat → Memory) :=
  if needsTranslation k then l.translated else l.argv

/-- The launch as it is called: what goes to the driver when nothing is deferred. -/
def params (l : Launch env) (k : Kernel env) : Params where
  fn := k.fn
  grid := l.grid
  block := l.block
  shared := max k.dynShared l.sharedBytes
  args := ((l.useArgv k).map (readArgs · (env.paramSizes k.fn))).getD []

/-- A buffer the kernel reads in words is not based at a word. -/
def misaligned (l : Launch env) (k : Kernel env) : Bool :=
  l.argv.any fun argv => k.kparams.zipIdx.any fun (p, i) =>
    p.align > 1 && p.kind == .buffer && (ofLE ((argv i).read 8) &&& (p.align - 1)) != 0

def unbacked (l : Launch env) (k : Kernel env) : Bool :=
  k.needsXlat && l.argv.any fun argv => k.kparams.zipIdx.any fun (p, i) =>
    (p.kind == .image || p.kind == .texture) && ofLE ((argv i).read 8) == 0

end Launch

/-- A refused launch is named in an error; a taken one is the driver's to run, now or later. -/
inductive Outcome where
  | refused
  | taken
  deriving DecidableEq

namespace State
variable {env : Env}

/-- Opts the function into more than the static cap of shared memory. -/
def sharedOptIn (k : Kernel env) (st : State) : Bool × State :=
  if k.dynShared ≤ staticSharedCap then (true, st)
  else if env.funcSetAttributeBound then
    let (ok, drv) := st.drv.call env id
    (ok, { st with drv })
  else (false, st)

/-- Writes the specialization constants, unless there are none and none were there. -/
def writeSpec (l : Launch env) (k : Kernel env) (st : State) : Bool × State :=
  let count := min l.specCount 60
  if k.hasSpec && !(count == 0 && st.lastSpecCount k.fn == some 0) then
    let st := (st.observe env .cuMemcpyHtoD).2
    let st := { st with lastSpecCount := Function.update st.lastSpecCount k.fn (some count) }
    (true, if count > 0 then (st.observe env .cuMemcpyHtoD).2 else st)
  else (false, st)

def zeroAlignFault (k : Kernel env) (st : State) : Bool × State :=
  if k.hasAlignFault then st.observe env .cuMemcpyHtoD else (false, st)

def readAlignFault (st : State) : State :=
  let (ok, st) := st.observe env .cuStreamSynchronize
  if ok then (st.observe env .cuMemcpyDtoH).2 else st

def launchDirect (l : Launch env) (k : Kernel env) (alignChecked : Bool) (st : State) :
    Outcome × State :=
  let st := if Launch.needsTranslation k then st.observeAll env l.translation else st
  if Launch.needsTranslation k && l.translated.isNone then
    (.refused, st.observeAll env l.release)
  else
    let st := st.observeAll env l.bracketBegin
    let ok := env.answers st.drv.calls
    let st := st.note (.called l.stream (l.params k))
    let st := { st with drv := st.drv.cuLaunchKernel l.stream (l.params k) }
    let st := st.observeAll env l.bracketEnd
    -- The launch still reads what was made for it.
    let st := if Launch.needsTranslation k && !l.release.isEmpty then
        st.observeAll env (.cuCtxSynchronize :: l.release)
      else st
    (.taken, if ok && alignChecked then @readAlignFault env st else st)

/-- The OptiX glue calls driver entries of its own, which are not wrapped. -/
def optixGlue (es : List Entry) (st : State) : State :=
  es.foldl (fun st e => st.note (.observed e)) st

/-- The OptiX pipeline runs on the default stream. -/
def launchOptix (s : Stream) (p : Params) (st : State) : State :=
  ((((st.note (.observed .cuMemcpyHtoD)).note (.called s p)).note (.received 0 p)).note
    (.observed .cuStreamSynchronize)).note (.observed .cuMemFree)

/-- Queues what a deferred stream can queue: arguments of known sizes, and nothing written or
checked around the launch. -/
def tryQueue (l : Launch env) (k : Kernel env) (specWrote alignChecked : Bool) (st : State) :
    Bool × State :=
  match l.argv with
  | some argv =>
    if k.queueable && !k.needsXlat && !k.hasAccel && !specWrote && !alignChecked then
      st.deferEnqueue env l.stream (queued k l.grid l.block (max k.dynShared l.sharedBytes) argv)
        (l.params k)
    else (false, st)
  | none => (false, st)

/-- What cannot be queued goes directly, behind the queue. -/
def submit (l : Launch env) (k : Kernel env) (specWrote alignChecked : Bool) (st : State) :
    Outcome × State :=
  if st.deferWants env l.stream then
    let (done, st) := st.tryQueue l k specWrote alignChecked
    if done then (.taken, st) else (st.deferFlushStream env l.stream).launchDirect l k alignChecked
  else
    -- Deferral may just have been turned off under a queue.
    (if st.pending ≠ 0 then st.deferFlushStream env l.stream else st).launchDirect l k alignChecked

def launchCuda (l : Launch env) (st : State) : Outcome × State :=
  let st := st.optixGlue l.optixCalls
  match l.optix with
  | .launched p => (.taken, st.launchOptix l.stream p)
  | .refused => (.refused, st)
  | .notTaken =>
    match l.kernel with
    | none => (.refused, st)
    | some k =>
      if l.misaligned k || l.unbacked k then (.refused, st)
      else
        match st.sharedOptIn k with
        | (false, st) => (.refused, st)
        | (true, st) =>
          let (specWrote, st) := st.writeSpec l k
          let (alignChecked, st) := st.zeroAlignFault k
          st.submit l k specWrote alignChecked

end State

inductive Op (env : Env) where
  | launch (l : Launch env)
  | setDeferred (s : Stream) (on : Bool)
  | flush (s : Stream)
  | observe (e : Entry)
  | streamDestroy (s : Stream)
  /-- A profiler's device sink comes or goes. -/
  | profile (live : Bool)

variable {env : Env}

def State.step (st : State) : Op env → State
  | .launch l => (st.launchCuda l).2
  | .setDeferred s on => st.streamSetDeferred env s on
  | .flush s => st.streamFlush env s
  | .observe e => (st.observe env e).2
  | .streamDestroy s => st.streamDestroy env s
  | .profile live => { st with profiled := live }

def run (ops : List (Op env)) (st : State) : State := ops.foldl State.step st

def Launch.called (l : Launch env) : Option (Stream × Params) :=
  match l.optix with
  | .launched p => some (l.stream, p)
  | _ => l.kernel.map fun k => (l.stream, l.params k)

/-- The launch an operation calls, unless the runtime refuses it. -/
def Op.accepted (st : State) : Op env → List (Stream × Params)
  | .launch l => if (st.launchCuda l).1 = .taken then l.called.toList else []
  | _ => []

/-- The launches called and not refused, in call order. -/
def history : List (Op env) → State → List (Stream × Params)
  | [], _ => []
  | op :: ops, st => op.accepted st ++ history ops (st.step op)

end Cajeta.Xpu
