import Cajeta.Lib.Transition
import Mathlib.Data.List.Basic
import Mathlib.Tactic.Common

/-!
# Execution epochs

The registries that the constructors of a program fill, and the epochs that cut them back to what
they held before. An epoch saves the number of entries of each table and the value of each
variable; a registration may also write over an entry that is there.
-/

namespace Cajeta.Runtime

/-- The bytes of a C string. -/
abbrev Name := List UInt8

/-- A pointer; zero is `NULL`. -/
abbrev Addr := UInt64

/-- What an array of `n` chars keeps of a string. -/
def stored (n : Nat) (name : Name) : Name := name.take (n - 1)

/-! ## Tables -/

/-- What the registration of an entry does to a table: the first entry found is updated, and else
a new one is appended if there is room. -/
structure Registration (α : Type) where
  same : α → Bool
  update : α → α
  fresh : α
  /-- The number of entries there is room for. -/
  cap : Option Nat

namespace Registration

def apply (r : Registration α) (t : List α) : List α :=
  match t.findIdx? r.same with
  | some i => t.modify i r.update
  | none => if r.cap.any (· ≤ t.length) then t else t ++ [r.fresh]

/-- The registration leaves the first `n` entries as they are. -/
def Spares (r : Registration α) (n : Nat) (t : List α) : Prop :=
  ∀ i e, t.findIdx? r.same = some i → t[i]? = some e → i < n → r.update e = e

end Registration

structure ClassEntry where
  name : Name
  classObject : Addr
  deriving DecidableEq

/-- `cajeta_xpu_module` -/
structure ModuleEntry where
  name : Name
  backend : Int
  image : Addr
  len : Nat
  module : Addr
  function : Addr
  specState : Int
  lastSpecCount : Int
  alignState : Int
  deriving DecidableEq

/-- `cajeta_xpu_manifest` -/
structure ManifestEntry where
  name : Name
  backend : Int
  arch : Name
  json : Addr
  len : Nat
  lds : Nat
  deriving DecidableEq

/-- `cajeta_kparams` -/
structure KparamsEntry where
  name : Name
  count : Int
  kind : Addr
  byteSize : Addr
  align : Addr
  deriving DecidableEq

/-- `cajeta_dynshared` -/
structure DynsharedEntry where
  name : Name
  bytes : Nat
  deriving DecidableEq

/-- `caj_cpu_kernel` -/
structure CpuKernelEntry where
  name : Name
  fn : Addr
  level : Int
  refused : Bool
  deriving DecidableEq

structure CensusEntry where
  name : Name
  launches : Nat
  deriving DecidableEq

/-- `caj_xpu_calib_record` -/
structure CalibEntry where
  slot : Name
  bytes : Addr
  len : Int
  deriving DecidableEq

/-- `CajetaAtExitNode`; a node of the list is known by the number of nodes behind it. -/
structure AtExitNode where
  fn : Addr
  arg : Addr
  deriving DecidableEq

/-- The registries that an epoch covers. -/
structure Registries where
  classes : List ClassEntry
  modules : List ModuleEntry
  manifests : List ManifestEntry
  kparams : List KparamsEntry
  dynshared : List DynsharedEntry
  cpuKernels : List CpuKernelEntry
  census : List CensusEntry
  calib : List CalibEntry
  /-- A backend's bit. -/
  bundled : Int → Bool
  active : Int
  forced : Int
  dbgEntries : Addr
  dbgCount : Int
  atexit : List AtExitNode

/-- The registries of a process that has registered nothing. -/
def Registries.none : Registries where
  classes := []
  modules := []
  manifests := []
  kparams := []
  dynshared := []
  cpuKernels := []
  census := []
  calib := []
  bundled _ := false
  active := -2
  forced := -1
  dbgEntries := 0
  dbgCount := 0
  atexit := []

/-! ## Registrations -/

/-- `__cajeta_register_class` -/
def registerClass (name : Name) (classObject : Addr) : Registration ClassEntry where
  same e := e.name = name
  update e := { e with classObject }
  fresh := ⟨name, classObject⟩
  cap := none

/-- `cajeta_xpu_register_module_impl` -/
def registerModule (name : Name) (image : Addr) (len : Nat) (backend : Int) :
    Registration ModuleEntry where
  same e := e.backend = backend && e.name = name
  update e := { e with image, len, module := 0, function := 0, specState := 0, lastSpecCount := -1 }
  fresh := ⟨stored 256 name, backend, image, len, 0, 0, 0, -1, 0⟩
  cap := some 1024

/-- `__cajeta_xpu_register_kernel_manifest`; `lds` is read from the JSON. -/
def registerKernelManifest (name : Name) (backend : Int) (arch : Name) (json : Addr)
    (len lds : Nat) : Registration ManifestEntry where
  same e := e.backend = backend && e.name = name && e.arch = arch
  update e := { e with json, len, lds }
  fresh := ⟨stored 256 name, backend, stored 64 arch, json, len, lds⟩
  cap := some 2048

/-- `__cajeta_xpu_register_kernel_params` -/
def registerKernelParams (name : Name) (count : Int) (kind byteSize : Addr) :
    Registration KparamsEntry where
  same e := e.name = name
  update _ := ⟨stored 256 name, count, kind, byteSize, 0⟩
  fresh := ⟨stored 256 name, count, kind, byteSize, 0⟩
  cap := some 1024

/-- `__cajeta_xpu_register_kernel_param_align`, which adds no entry. -/
def registerKernelParamAlign (name : Name) (count : Int) (align : Addr) :
    Registration KparamsEntry where
  same e := e.name = name
  update e := if e.count = count then { e with align } else e
  fresh := ⟨stored 256 name, count, 0, 0, align⟩
  cap := some 0

/-- `__cajeta_xpu_register_dynamic_shared` -/
def registerDynamicShared (name : Name) (bytes : Nat) : Registration DynsharedEntry where
  same e := e.name = name
  update _ := ⟨stored 256 name, bytes⟩
  fresh := ⟨stored 256 name, bytes⟩
  cap := some 256

/-- `__cajeta_xpu_register_cpu_kernel_at` -/
def registerCpuKernel (name : Name) (level : Int) (fn : Addr) : Registration CpuKernelEntry where
  same e := e.level = level && e.name = name
  update e := { e with fn }
  fresh := ⟨name, fn, level, false⟩
  cap := none

/-- `cajeta_xpu_census_note_launch` -/
def noteLaunch (name : Name) : Registration CensusEntry where
  same e := e.name = name
  update e := { e with launches := e.launches + 1 }
  fresh := ⟨stored 256 name, 1⟩
  cap := some 2048

/-- `__cajeta_xpu_register_calibration_record` -/
def registerCalibration (slot : Name) (bytes : Addr) (len : Int) : Registration CalibEntry where
  same e := e.slot = slot
  update _ := ⟨slot, bytes, len⟩
  fresh := ⟨slot, bytes, len⟩
  cap := some 256

/-- `cajeta_xpu_select_locked`, with the backend named in the environment and the ones that are
available. -/
def select (env : Int) (available : Int → Bool) (r : Registries) : Int :=
  if r.active ≠ -2 then r.active
  else
    let forced := if r.forced ≥ 0 then r.forced else env
    (([0, 1, 2, 3] : List Int).find? fun id =>
      (forced = -1 || id = forced) && r.bundled id && available id).getD (-1)

/-- The calls that write to a registry. -/
inductive Call where
  | registerClass (name : Name) (classObject : Addr)
  | registerModule (name : Name) (image : Addr) (len : Nat) (backend : Int)
  | registerKernelManifest (name : Name) (backend : Int) (arch : Name) (json : Addr) (len lds : Nat)
  | registerKernelParams (name : Name) (count : Int) (kind byteSize : Addr)
  | registerKernelParamAlign (name : Name) (count : Int) (align : Addr)
  | registerDynamicShared (name : Name) (bytes : Nat)
  | registerCpuKernel (name : Name) (level : Int) (fn : Addr)
  | noteLaunch (name : Name)
  | registerCalibration (slot : Name) (bytes : Addr) (len : Int)
  | registerBackend (id : Int)
  | forceBackend (id : Int)
  | select (env : Int) (available : Int → Bool)
  | registerLocTable (entries : Addr) (count : Int)
  | atexitPush (fn arg : Addr)

namespace Registries

/-- The arguments that a call does not return on at once. -/
def accepts : Call → Bool
  | .registerClass _ classObject => classObject ≠ 0
  | .registerModule _ image _ _ => image ≠ 0
  | .registerKernelManifest _ _ _ json _ _ => json ≠ 0
  | .registerKernelParamAlign _ _ align => align ≠ 0
  | .registerCpuKernel _ level fn => fn ≠ 0 && (level = 100 || 0 ≤ level && level ≤ 3)
  | .noteLaunch name => name ≠ []
  | .registerCalibration slot bytes len => bytes ≠ 0 && 0 < len && slot.length < 128
  | .registerBackend id => 0 ≤ id && id < 4
  | .atexitPush fn _ => fn ≠ 0
  | _ => true

def write (r : Registries) : Call → Registries
  | .registerClass name obj => { r with classes := (registerClass name obj).apply r.classes }
  | .registerModule name image len backend =>
    { r with modules := (registerModule name image len backend).apply r.modules }
  | .registerKernelManifest name backend arch json len lds =>
    { r with
      manifests := (registerKernelManifest name backend arch json len lds).apply r.manifests }
  | .registerKernelParams name count kind byteSize =>
    { r with kparams := (registerKernelParams name count kind byteSize).apply r.kparams }
  | .registerKernelParamAlign name count align =>
    { r with kparams := (registerKernelParamAlign name count align).apply r.kparams }
  | .registerDynamicShared name bytes =>
    { r with dynshared := (registerDynamicShared name bytes).apply r.dynshared }
  | .registerCpuKernel name level fn =>
    { r with cpuKernels := (registerCpuKernel name level fn).apply r.cpuKernels }
  | .noteLaunch name => { r with census := (noteLaunch name).apply r.census }
  | .registerCalibration slot bytes len =>
    { r with calib := (registerCalibration slot bytes len).apply r.calib }
  | .registerBackend id => { r with bundled := fun b => b = id || r.bundled b }
  | .forceBackend id =>
    if r.active ≠ -2 then r else { r with forced := if 0 ≤ id ∧ id < 4 then id else -1 }
  | .select env available => { r with active := select env available r }
  | .registerLocTable entries count =>
    if entries = 0 ∨ count ≤ 0 then { r with dbgEntries := 0, dbgCount := 0 }
    else { r with dbgEntries := entries, dbgCount := count }
  | .atexitPush fn arg => { r with atexit := ⟨fn, arg⟩ :: r.atexit }

def call (r : Registries) (c : Call) : Registries := if accepts c then r.write c else r

end Registries

/-! ## Epochs -/

/-- `caj_rt_epoch`, with the registries at the push, which nothing reads. -/
structure Epoch where
  classes : Nat
  modules : Nat
  manifests : Nat
  kparams : Nat
  dynshared : Nat
  cpuKernels : Nat
  census : Nat
  calib : Nat
  bundled : Int → Bool
  active : Int
  forced : Int
  dbgEntries : Addr
  dbgCount : Int
  atexitHead : Nat
  before : Registries

structure Program where
  regs : Registries
  epochs : List Epoch

namespace Program

def saved (r : Registries) : Epoch where
  classes := r.classes.length
  modules := r.modules.length
  manifests := r.manifests.length
  kparams := r.kparams.length
  dynshared := r.dynshared.length
  cpuKernels := r.cpuKernels.length
  census := r.census.length
  calib := r.calib.length
  bundled := r.bundled
  active := r.active
  forced := r.forced
  dbgEntries := r.dbgEntries
  dbgCount := r.dbgCount
  atexitHead := r.atexit.length
  before := r

/-- `__cajeta_rt_epoch_push` -/
def epochPush (p : Program) : Program :=
  if p.epochs.length ≥ 64 then p else { p with epochs := p.epochs ++ [saved p.regs] }

/-- The loop that frees nodes down to the saved head. -/
def freeNodes (head : Nat) : List AtExitNode → List AtExitNode
  | [] => []
  | n :: rest => if rest.length + 1 = head then n :: rest else freeNodes head rest

/-- `__cajeta_rt_epoch_pop_to` -/
def epochPopTo (p : Program) (depth : Nat) : Program :=
  if depth < 1 then p
  else
    match p.epochs[depth - 1]? with
    | none => p
    | some e =>
      { regs :=
          { classes := p.regs.classes.take e.classes
            modules := p.regs.modules.take e.modules
            manifests := p.regs.manifests.take e.manifests
            kparams := p.regs.kparams.take e.kparams
            dynshared := p.regs.dynshared.take e.dynshared
            cpuKernels := p.regs.cpuKernels.take e.cpuKernels
            census := p.regs.census.take e.census
            calib := p.regs.calib.take e.calib
            bundled := e.bundled
            active := e.active
            forced := e.forced
            dbgEntries := e.dbgEntries
            dbgCount := e.dbgCount
            atexit := freeNodes e.atexitHead p.regs.atexit }
        epochs := p.epochs.take (depth - 1) }

inductive Op where
  | call (c : Call)
  | epochPush
  | epochPopTo (depth : Nat)

def step (p : Program) : Op → Program
  | .call c => { p with regs := p.regs.call c }
  | .epochPush => p.epochPush
  | .epochPopTo depth => p.epochPopTo depth

def run (p : Program) (ops : List Op) : Program := ops.foldl step p

end Program

end Cajeta.Runtime
