import Cajeta.Lib.Stamped
import Cajeta.Lib.Transition
import Cajeta.Xpu.Registry

/-!
# What a launch takes from caches

Resolved names, submission plans and pinned blocks are kept by the address of the launch site's name
and the generation they were made in; whether an image declares the fault binding is kept by the
image's address; the fault record of a module is kept in its entry. Names and images are what the
memory holds at their addresses.
-/

namespace Cajeta.Xpu
open Stamped

/-- `n` slots from `base` on, around the table. -/
def probes (base size n : Nat) : List Nat := (List.range n).map fun p => (base + p) % size

def kresSlots : Nat := 2048
def subPlanSlots : Nat := 1024
def pinSlots : Nat := 1024
def bindingSlots : Nat := 1024

def kresBase (name : Addr) : Nat :=
  let h := name ^^^ (name >>> 17)
  let h := h * 0x9E3779B97F4A7C15
  let h := h ^^^ (h >>> 29)
  (h &&& 2047).toNat

/-- The slot of a plan or of a pinned block, in a table of `size` slots. -/
def siteBase (size : Nat) (name : Addr) (backend : Int) : Nat :=
  ((name >>> 4) ^^^ UInt64.ofInt backend).toNat % size

def bindingBase (spirv : Addr) : Nat := (((spirv >>> 4) * 2654435761) &&& 1023).toNat

/-- The key of a resolved name: its address, and the bytes that were there. -/
abbrev KresKey := Addr × Name

/-- The address of a launch site's name and a backend. -/
abbrev SiteKey := Addr × Int

abbrev BindingKey := Addr × UInt32

/-- The slot with the name's address, else the first empty one, else the first. -/
def kresSlot (c : Slots KresKey Registry.Resolved) (name : Addr) : Nat :=
  let ps := probes (kresBase name) kresSlots 8
  ((ps.find? fun i => (c i).any fun s => s.key.1 = name) <|> ps.find? fun i => (c i).isNone).getD
    (kresBase name)

def siteSlot [DecidableEq κ] (c : Slots κ β) (base size n : Nat) (key : κ) : Option Nat :=
  (probes base size n).find? fun i => (c i).all fun s => s.key = key

/-- A launched image's words and a byte length: the words that a scan reads. -/
def scanned (words : List UInt32) (len : Nat) : List UInt32 := words.take (len / 4)

structure Runtime where
  registry : Registry
  /-- The string at an address. -/
  names : Addr → Name
  /-- The image at an address. -/
  images : Addr → List UInt32
  /-- How often the driver has loaded a module. -/
  loads : Nat
  kres : Slots KresKey Registry.Resolved
  plans : Slots SiteKey Registry.Plan
  pins : Slots SiteKey (Option Block)
  bindings : Slots BindingKey Bool

namespace Runtime

def initial (backend : Int) (names : Addr → Name) (images : Addr → List UInt32) : Runtime :=
  ⟨.initial backend, names, images, 0, .empty, .empty, .empty, .empty⟩

def kresFact (m : Runtime) (k : KresKey) : Registry.Resolved := m.registry.resolve k.2

def planFact (m : Runtime) (k : SiteKey) : Registry.Plan := m.registry.plan (m.names k.1) k.2

def pinFact (m : Runtime) (k : SiteKey) : Option Block := m.registry.pinnedBlock (m.names k.1) k.2

def bindingFact (m : Runtime) (len : Nat) (k : BindingKey) : Bool :=
  declaresBinding (scanned (m.images k.1) len) k.2

/-- `caj_kres_get`; a name of 128 bytes or more has no slot. -/
def kresGet (m : Runtime) (name : Addr) : Registry.Resolved × Runtime :=
  let slot := if 128 ≤ (m.names name).length then none else some (kresSlot m.kres name)
  let (r, kres) := m.kres.get m.kresFact m.registry.registryGen slot (name, m.names name)
  (r, { m with kres })

/-- `caj_xpu_sub_plan_for`. -/
def subPlanFor (m : Runtime) (name : Addr) : Registry.Plan × Runtime :=
  let key := (name, m.registry.backend)
  let base := siteBase subPlanSlots name m.registry.backend
  let slot := (siteSlot m.plans base subPlanSlots 8 key).getD base
  let (p, plans) := m.plans.get m.planFact m.registry.manifestGen (some slot) key
  (p, { m with plans })

/-- `caj_xpu_pinned_block`. -/
def pinnedBlock (m : Runtime) (name : Addr) : Option Block × Runtime :=
  let key := (name, m.registry.backend)
  let slot := siteSlot m.pins (siteBase pinSlots name m.registry.backend) pinSlots 8 key
  let (b, pins) := m.pins.get m.pinFact m.registry.manifestGen slot key
  (b, { m with pins })

/-- `caj_vk_has_fault_binding`: its slots carry no generation. -/
def hasFaultBinding (m : Runtime) (spirv : Addr) (len : Nat) (binding : UInt32) : Bool × Runtime :=
  let key := (spirv, binding)
  let slot := siteSlot m.bindings (bindingBase spirv) bindingSlots bindingSlots key
  let (b, bindings) := m.bindings.get (m.bindingFact len) 0 slot key
  (b, { m with bindings })

/-! ## Launches -/

inductive Fact where
  | plan (p : Registry.Plan)
  | pin (b : Option Block)
  | resolved (r : Registry.Resolved)
  | faultRecord (record : Option Nat)
  | faultBinding (declared : Bool)
deriving DecidableEq

def setModule (m : Runtime) (i : Nat) (e : Module) : Runtime :=
  { m with registry := { m.registry with modules := m.registry.modules.set i e } }

section
variable (declaresFault : List UInt32 → Bool)

/-- `cuModuleLoadData` and `cuModuleGetFunction`, when the entry has no function yet. -/
def load (m : Runtime) (e : Module) (loads resolves : Bool) : Module × Runtime :=
  if e.function then (e, m)
  else
    let (e, m) :=
      if e.module.isSome || !loads then (e, m)
      else ({ e with module := some ⟨m.loads, declaresFault (m.images e.image)⟩ },
        { m with loads := m.loads + 1 })
    ({ e with function := e.module.isSome && resolves }, m)

def askAlign (e : Module) : Module :=
  match e.alignState with
  | .unasked =>
    match e.module.bind Loaded.faultRecord with
    | some record => { e with alignState := .present record }
    | none => { e with alignState := .absent }
  | _ => e

def alignFault (e : Module) : Option Nat :=
  match e.alignState with
  | .present record => some record
  | _ => none

/-- What the caller and the driver decide in a cuda launch: whether the module loads and the
function resolves, and whether the launch gets as far as the fault record. -/
structure CudaCall where
  name : Addr
  loads : Bool
  resolves : Bool
  reaches : Bool

/-- `cajeta_xpu_launch_cuda`, up to where the last fact is taken. -/
def launchCuda (m : Runtime) (call : CudaCall) : List Fact × Runtime :=
  let (r, m) := m.kresGet call.name
  match r.mod.bind fun i => (m.registry.modules[i]?).map (i, ·) with
  | none => ([.resolved r], m)
  | some (i, e) =>
    let (e, m) := m.load declaresFault e call.loads call.resolves
    if e.function && call.reaches then
      let e := askAlign e
      ([.resolved r, .faultRecord (alignFault e)], m.setModule i e)
    else ([.resolved r], m.setModule i e)

/-- A Vulkan launch of the variant `suffix` of a kernel. -/
structure VulkanCall where
  name : Addr
  suffix : Name

/-- The image that the call launches, and the first binding after the kernel's own. -/
def vulkanImage (m : Runtime) (call : VulkanCall) : Option (Module × UInt32) := do
  let kp ← m.registry.findKparams (m.names call.name)
  let n := kp.params.length
  let i ← m.registry.findModule (m.names call.name ++ call.suffix) vulkan
  let e ← m.registry.modules[i]?
  if 0 < n ∧ n < 64 ∧ 4 ≤ e.len then some (e, UInt32.ofNat n) else none

/-- `cajeta_xpu_launch_vulkan`, up to where the fault binding is asked for. -/
def launchVulkan (m : Runtime) (call : VulkanCall) : List Fact × Runtime :=
  match m.vulkanImage call with
  | none => ([], m)
  | some (e, n) =>
    let (b, m) := m.hasFaultBinding e.image e.len n
    ([.faultBinding b], m)

inductive Registration where
  | module (name : Name) (image : Addr) (len : Nat) (backend : Int)
  | kernelParams (name : Name) (params : List KParam)
  | kernelParamAlign (name : Name) (align : List Nat)
  | dynamicShared (name : Name) (bytes : UInt32)
  | optixRayquery (name : Name)
  | kernelManifest (name : Name) (backend : Int) (arch json : List UInt8)
  | noKernelManifest (name : Name) (backend : Int)
  | epochPush
  | epochPopTo (depth : Nat)
  | selectBackend (backend : Int)

inductive Action where
  | register (c : Registration)
  /-- The address of a name gets other contents. -/
  | writeName (name : Addr) (contents : Name)
  /-- The address of an image gets other contents. -/
  | writeImage (image : Addr) (contents : List UInt32)
  /-- `__cajeta_xpu_submit_v1` takes the plan of its launch. -/
  | submit (name : Addr)
  /-- `__cajeta_xpu_launch_v3` takes the block that its kernel was built for. -/
  | checkBlock (name : Addr)
  | launchCuda (call : CudaCall)
  | launchVulkan (call : VulkanCall)

end

def register (r : Registry) : Registration → Registry
  | .module name image len backend => r.registerModule name image len backend
  | .kernelParams name params => r.registerKernelParams name params
  | .kernelParamAlign name align => r.registerKernelParamAlign name align
  | .dynamicShared name bytes => r.registerDynamicShared name bytes
  | .optixRayquery name => r.registerOptixRayquery name
  | .kernelManifest name backend arch json => r.registerKernelManifest name backend arch json
  | .noKernelManifest name backend => r.unregisterKernelManifest name backend
  | .epochPush => r.epochPush
  | .epochPopTo depth => r.epochPopTo depth
  | .selectBackend backend => { r with backend }

section
variable (declaresFault : List UInt32 → Bool)

/-- The facts that an action takes, and the state after it. -/
def step (m : Runtime) : Action → List Fact × Runtime
  | .register c => ([], { m with registry := register m.registry c })
  | .writeName name contents => ([], { m with names := Function.update m.names name contents })
  | .writeImage image contents => ([], { m with images := Function.update m.images image contents })
  | .submit name => let (p, m) := m.subPlanFor name; ([.plan p], m)
  | .checkBlock name => let (b, m) := m.pinnedBlock name; ([.pin b], m)
  | .launchCuda call => m.launchCuda declaresFault call
  | .launchVulkan call => m.launchVulkan call

/-- The image that a Vulkan launch passes to the driver is still where it was registered. -/
def inPlace (m : Runtime) : Action → Prop
  | .launchVulkan call => ∀ e n, m.vulkanImage call = some (e, n) →
      (m.images e.image).length = e.len / 4
  | _ => True

abbrev Step (m : Runtime) (a : Action) (m' : Runtime) : Prop :=
  m.inPlace a ∧ (m.step declaresFault a).2 = m'

/-- The facts of an action, each looked up afresh. -/
def freshFacts (m : Runtime) : Action → List Fact
  | .submit name => [.plan (m.planFact (name, m.registry.backend))]
  | .checkBlock name => [.pin (m.pinFact (name, m.registry.backend))]
  | .launchCuda call =>
    let r := m.registry.resolve (m.names call.name)
    .resolved r ::
      match r.mod.bind fun i => m.registry.modules[i]? with
      | none => []
      | some e =>
        let e := (m.load declaresFault e call.loads call.resolves).1
        if e.function && call.reaches then [.faultRecord (e.module.bind Loaded.faultRecord)] else []
  | .launchVulkan call =>
    match m.vulkanImage call with
    | none => []
    | some (e, n) => [.faultBinding (m.bindingFact e.len (e.image, n))]
  | _ => []

end

end Runtime

end Cajeta.Xpu
