import Cajeta.Xpu.Defer
import Cajeta.Xpu.Manifest

/-!
# Kernel registries

The tables of device images, kernel parameters, relocated shared blocks, ray-query programs and
manifests, the two generations that registrations move, and the epochs that drop what a program has
registered. A name is the bytes of a C string; an entry keeps 255 of them.
-/

namespace Cajeta.Xpu

abbrev Name := List UInt8

abbrev Addr := UInt64

def Name.stored (name : Name) : Name := name.take 255

/-! ## Entries -/

/-- A module that the driver has loaded; `fault` tells whether it has the global of the alignment
fault record. -/
structure Loaded where
  id : Nat
  fault : Bool
deriving DecidableEq

def Loaded.faultRecord (l : Loaded) : Option Nat := if l.fault then some l.id else none

/-- `alignState` and `alignFaultG`. -/
inductive AlignState where
  | unasked
  | absent
  | present (record : Nat)
deriving DecidableEq

/-- `cajeta_xpu_module`; backend -1 serves anyone. -/
structure Module where
  name : Name
  backend : Int
  image : Addr
  len : Nat
  module : Option Loaded
  function : Bool
  alignState : AlignState
deriving DecidableEq

/-- `cajeta_kparams`; `hasAlign` tells whether the alignments have been registered too. -/
structure KernelParams where
  name : Name
  params : List KParam
  hasAlign : Bool
deriving DecidableEq

structure KernelManifest where
  name : Name
  backend : Int
  arch : List UInt8
  json : List UInt8
deriving DecidableEq

/-- A table whose count may drop while its entries stay where they are. -/
structure Table (α : Type) where
  entries : List α
  count : Nat

namespace Table

def active (t : Table α) : List α := t.entries.take t.count

def set (t : Table α) (i : Nat) (a : α) : Table α := { t with entries := t.entries.set i a }

def append (t : Table α) (a : α) : Table α :=
  ⟨t.active ++ a :: t.entries.drop (t.count + 1), t.count + 1⟩

def compact (t : Table α) (keep : α → Bool) : Table α :=
  let kept := t.active.filter keep
  ⟨kept ++ t.entries.drop kept.length, kept.length⟩

end Table

def maxModules : Nat := 1024
def maxKparams : Nat := 1024
def maxDynshared : Nat := 256
def maxOptixRq : Nat := 32
def maxManifests : Nat := 2 * maxModules

def cuda : Int := 0
def vulkan : Int := 2

/-- What `__cajeta_rt_epoch_push` saves. -/
structure Epoch where
  modules : Nat
  manifests : Nat
  kparams : Nat
  dynshared : Nat
  backend : Int

def epochMax : Nat := 64

structure Registry where
  modules : List Module
  kparams : List KernelParams
  dynshared : List (Name × UInt32)
  /-- The names of the ray-query programs. -/
  optix : List Name
  manifests : Table KernelManifest
  /-- `g_xpu_registry_gen`. -/
  registryGen : UInt32
  /-- `g_xpu_manifest_gen`. -/
  manifestGen : UInt32
  /-- The active backend. -/
  backend : Int
  epochs : List Epoch

namespace Registry

def initial (backend : Int) : Registry := ⟨[], [], [], [], ⟨[], 0⟩, 1, 0, backend, []⟩

/-- `cajeta_xpu_register_module_impl`: a repeat overwrites, but for the alignment fault record. -/
def registerModule (r : Registry) (name : Name) (image : Addr) (len : Nat) (backend : Int) :
    Registry :=
  let modules :=
    match r.modules.findIdx? fun e => e.backend = backend ∧ e.name = name with
    | some i => r.modules.modify i fun e =>
        { e with image, len, module := none, function := false }
    | none =>
      if r.modules.length < maxModules then
        r.modules ++ [⟨name.stored, backend, image, len, none, false, .unasked⟩]
      else r.modules
  { r with modules, registryGen := r.registryGen + 1 }

/-- `__cajeta_xpu_register_kernel_params`. -/
def registerKernelParams (r : Registry) (name : Name) (params : List KParam) : Registry :=
  match r.kparams.findIdx? fun e => e.name = name with
  | some i =>
    { r with kparams := r.kparams.set i ⟨name.stored, params, false⟩
             registryGen := r.registryGen + 1 }
  | none =>
    if r.kparams.length < maxKparams then
      { r with kparams := r.kparams ++ [⟨name.stored, params, false⟩]
               registryGen := r.registryGen + 1 }
    else r

def withAlign (params : List KParam) (align : List Nat) : List KParam :=
  params.zipWith (fun p a => { p with align := a }) align

/-- `__cajeta_xpu_register_kernel_param_align`. -/
def registerKernelParamAlign (r : Registry) (name : Name) (align : List Nat) : Registry :=
  let kparams :=
    match r.kparams.findIdx? fun e => e.name = name with
    | some i => r.kparams.modify i fun e =>
        if e.params.length = align.length then
          { e with params := withAlign e.params align, hasAlign := true }
        else e
    | none => r.kparams
  { r with kparams, registryGen := r.registryGen + 1 }

/-- `__cajeta_xpu_register_dynamic_shared`. -/
def registerDynamicShared (r : Registry) (name : Name) (bytes : UInt32) : Registry :=
  match r.dynshared.findIdx? fun e => e.1 = name with
  | some i =>
    { r with dynshared := r.dynshared.set i (name.stored, bytes)
             registryGen := r.registryGen + 1 }
  | none =>
    if r.dynshared.length < maxDynshared then
      { r with dynshared := r.dynshared ++ [(name.stored, bytes)]
               registryGen := r.registryGen + 1 }
    else r

/-- `__cajeta_xpu_register_optix_rayquery`. -/
def registerOptixRayquery (r : Registry) (name : Name) : Registry :=
  match r.optix.findIdx? fun e => e = name with
  | some i => { r with optix := r.optix.set i name.stored, registryGen := r.registryGen + 1 }
  | none =>
    if r.optix.length < maxOptixRq then
      { r with optix := r.optix ++ [name.stored], registryGen := r.registryGen + 1 }
    else r

/-- `__cajeta_xpu_register_kernel_manifest`. -/
def registerKernelManifest (r : Registry) (name : Name) (backend : Int) (arch json : List UInt8) :
    Registry :=
  let manifests :=
    match r.manifests.active.findIdx? fun e => e.backend = backend ∧ e.name = name ∧ e.arch =
      arch with
    | some i =>
      { r.manifests with entries := r.manifests.entries.modify i fun e => { e with json } }
    | none =>
      if r.manifests.count < maxManifests then
        r.manifests.append ⟨name.stored, backend, arch.take 63, json⟩
      else r.manifests
  { r with manifests, manifestGen := r.manifestGen + 1 }

/-- `__cajeta_xpu_unregister_kernel_manifest`. -/
def unregisterKernelManifest (r : Registry) (name : Name) (backend : Int) : Registry :=
  { r with manifests := r.manifests.compact fun e => !(e.backend = backend ∧ e.name = name)
           manifestGen := r.manifestGen + 1 }

/-- `__cajeta_rt_epoch_push`. -/
def epochPush (r : Registry) : Registry :=
  if epochMax ≤ r.epochs.length then r
  else { r with epochs := r.epochs ++
    [⟨r.modules.length, r.manifests.count, r.kparams.length, r.dynshared.length, r.backend⟩] }

/-- `__cajeta_rt_epoch_pop_to`. -/
def epochPopTo (r : Registry) (depth : Nat) : Registry :=
  if depth < 1 then r
  else
    match r.epochs[depth - 1]? with
    | none => r
    | some e =>
      { r with
        modules := r.modules.take e.modules
        manifests := { r.manifests with count := e.manifests }
        kparams := r.kparams.take e.kparams
        dynshared := r.dynshared.take e.dynshared
        registryGen := r.registryGen + 1
        manifestGen := r.manifestGen + 1
        backend := e.backend
        epochs := r.epochs.take (depth - 1) }

/-- `cajeta_xpu_find_module`: an exact match wins, the first entry that serves anyone comes next. -/
def findModule (r : Registry) (name : Name) (backend : Int) : Option Nat :=
  (r.modules.findIdx? fun e => e.name = name ∧ (backend = -1 ∨ e.backend = backend)) <|>
    r.modules.findIdx? fun e => e.name = name ∧ e.backend = -1

/-- `cajeta_xpu_find_kparams`. -/
def findKparams (r : Registry) (name : Name) : Option KernelParams :=
  r.kparams.find? fun e => e.name = name

/-- `caj_xpu_manifest_text`. -/
def manifestText (r : Registry) (name : Name) (backend : Int) : Option (List UInt8) :=
  (r.manifests.active.find? fun e => e.backend = backend ∧ e.name = name).map (·.json)

/-- What a launch site's name resolves to: `caj_kres` without its key. -/
structure Resolved where
  mod : Option Nat
  kp : Option Nat
  rq : Option Nat
  dynShared : UInt32
  hasAccel : Bool
  needsXlat : Bool
  queueable : Bool
  alignChecked : Bool
  argBytes : List Nat
  argOff : List Nat
  nargs : Nat
  blobLen : Nat
deriving DecidableEq

/-- `caj_kres_fill`. -/
def resolve (r : Registry) (name : Name) : Resolved :=
  let kparams := r.findKparams name
  let params := (kparams.map (·.params)).getD []
  let sizes := params.map (·.bytes)
  let queueable := decide (params ≠ [] ∧ params.length ≤ deferMaxArgs ∧ (∀ n ∈ sizes, n ≠ 0) ∧
    Xpu.blobLen sizes ≤ deferBlob)
  { mod := r.findModule name cuda
    kp := r.kparams.findIdx? fun e => e.name = name
    rq := r.optix.findIdx? fun e => e = name
    dynShared := ((r.dynshared.find? fun e => e.1 = name).map (·.2)).getD 0
    hasAccel := params.any (·.kind == .accel)
    needsXlat := params.any fun p =>
      p.kind == .texture || p.kind == .image || p.kind == .bufferArray
    queueable
    alignChecked := (kparams.map (·.hasAlign)).getD false
    argBytes := sizes.take deferMaxArgs
    argOff := (argOffs 0 sizes).take deferMaxArgs
    nargs := if queueable then params.length else 0
    blobLen := if queueable then Xpu.blobLen sizes else 0 }

def planParams : Nat := 64

/-- What a plan says about an argument: none where it is no buffer. -/
abbrev PlanSlot := Option (Option AccessMode)

/-- `caj_xpu_sub_plan` without its key. -/
structure Plan where
  classified : Bool
  mode : List PlanSlot
deriving DecidableEq

def isAccess : KParamKind → Bool
  | .buffer | .texture | .image => true
  | _ => false

/-- The modes of the parameters from the `access`-th entry of the manifest on. -/
def planModes (json : Option (List UInt8)) : (access : Nat) → List KParamKind → List PlanSlot
  | _, [] => []
  | access, kind :: kinds =>
    if isAccess kind then
      some (json.bind (manifestAccessMode · access)) :: planModes json (access + 1) kinds
    else none :: planModes json access kinds

def kinds (r : Registry) (name : Name) : List KParamKind :=
  ((r.findKparams name).map fun e => e.params.map (·.kind)).getD []

/-- `caj_xpu_sub_plan_fill`. -/
def plan (r : Registry) (name : Name) (backend : Int) : Plan :=
  let json := r.manifestText name backend
  { classified := json.isSome
    mode := planModes json 0 ((r.kinds name).take planParams) }

def pinnedBlock (r : Registry) (name : Name) (backend : Int) : Option Block :=
  (r.manifestText name backend).bind manifestBlock

end Registry

end Cajeta.Xpu
