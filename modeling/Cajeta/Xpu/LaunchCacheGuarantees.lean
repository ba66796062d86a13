import Cajeta.Xpu.LaunchCache
import Mathlib.Tactic.Common

/-!
# No stale facts

The stamped caches answer as a fresh lookup as long as a change of what they hold moves their
generation; the fault record of a module and the fault binding of an image have no generation.
-/

namespace Cajeta.Xpu
open Stamped

namespace Registry
variable {r : Registry}

theorem gen_succ_ne (x : UInt32) : x + 1 ≠ x := by
  intro h
  have hnat := congrArg UInt32.toNat h
  rw [UInt32.toNat_add] at hnat
  have hlt := x.toNat_lt
  have hone : (1 : UInt32).toNat = 1 := rfl
  omega

theorem resolve_congr {r r' : Registry}
    (hmodules : r'.modules.map (fun e => (e.name, e.backend)) =
      r.modules.map fun e => (e.name, e.backend))
    (hkparams : r'.kparams = r.kparams) (hdynshared : r'.dynshared = r.dynshared)
    (hoptix : r'.optix = r.optix) : r'.resolve name = r.resolve name := by
  have hfind : ∀ p : Name × Int → Bool, r'.modules.findIdx? (fun e => p (e.name, e.backend)) =
      r.modules.findIdx? fun e => p (e.name, e.backend) := by
    intro p
    have h := congrArg (List.findIdx? p) hmodules
    rw [List.findIdx?_map, List.findIdx?_map] at h
    exact h
  have hmodule : r'.findModule name cuda = r.findModule name cuda :=
    congrArg₂ (fun i j => i <|> j) (hfind fun e => e.1 = name ∧ (cuda = -1 ∨ e.2 = cuda))
      (hfind fun e => e.1 = name ∧ e.2 = -1)
  cases r
  cases r'
  subst hkparams hdynshared hoptix
  unfold resolve
  rw [hmodule]
  rfl

theorem plan_congr {r r' : Registry} {backend : Int} (hmanifests : r'.manifests = r.manifests)
    (hkinds : r'.kinds name = r.kinds name) : r'.plan name backend = r.plan name backend := by
  simp only [plan, manifestText, hmanifests, hkinds]

theorem pinnedBlock_congr {r r' : Registry} {backend : Int}
    (hmanifests : r'.manifests = r.manifests) :
    r'.pinnedBlock name backend = r.pinnedBlock name backend := by
  simp only [pinnedBlock, manifestText, hmanifests]

end Registry

namespace Runtime
variable {m m' : Runtime} {declaresFault : List UInt32 → Bool}

theorem register_manifests (r : Registry) (c : Registration)
    (h : (register r c).manifestGen = r.manifestGen) : (register r c).manifests = r.manifests := by
  cases c with
  | kernelManifest => exact absurd h (Registry.gen_succ_ne _)
  | noKernelManifest => exact absurd h (Registry.gen_succ_ne _)
  | epochPopTo depth =>
    revert h
    simp only [register, Registry.epochPopTo]
    split
    · exact fun _ => rfl
    · split
      · exact fun _ => rfl
      · exact fun h => absurd h (Registry.gen_succ_ne _)
  | epochPush =>
    simp only [register, Registry.epochPush]
    split <;> rfl
  | kernelParams =>
    simp only [register, Registry.registerKernelParams]
    split
    · rfl
    · split <;> rfl
  | dynamicShared =>
    simp only [register, Registry.registerDynamicShared]
    split
    · rfl
    · split <;> rfl
  | optixRayquery =>
    simp only [register, Registry.registerOptixRayquery]
    split
    · rfl
    · split <;> rfl
  | _ => rfl

/-- A registration that leaves the registry generation leaves what is resolved. -/
theorem register_resolve (r : Registry) (c : Registration)
    (h : (register r c).registryGen = r.registryGen) :
    (register r c).resolve name = r.resolve name := by
  cases c with
  | module => exact absurd h (Registry.gen_succ_ne _)
  | kernelParamAlign => exact absurd h (Registry.gen_succ_ne _)
  | kernelParams =>
    revert h
    simp only [register, Registry.registerKernelParams]
    split
    · exact fun h => absurd h (Registry.gen_succ_ne _)
    · split
      · exact fun h => absurd h (Registry.gen_succ_ne _)
      · exact fun _ => rfl
  | dynamicShared =>
    revert h
    simp only [register, Registry.registerDynamicShared]
    split
    · exact fun h => absurd h (Registry.gen_succ_ne _)
    · split
      · exact fun h => absurd h (Registry.gen_succ_ne _)
      · exact fun _ => rfl
  | optixRayquery =>
    revert h
    simp only [register, Registry.registerOptixRayquery]
    split
    · exact fun h => absurd h (Registry.gen_succ_ne _)
    · split
      · exact fun h => absurd h (Registry.gen_succ_ne _)
      · exact fun _ => rfl
  | epochPopTo =>
    revert h
    simp only [register, Registry.epochPopTo]
    split
    · exact fun _ => rfl
    · split
      · exact fun _ => rfl
      · exact fun h => absurd h (Registry.gen_succ_ne _)
  | epochPush =>
    simp only [register, Registry.epochPush]
    split <;> rfl
  | _ => rfl

structure Module.Aligned (e : Module) : Prop where
  function : e.function → e.module.isSome
  asked : e.alignState = .unasked ∨
    e.module.isSome ∧ alignFault e = e.module.bind Loaded.faultRecord

/-- What every covered action keeps. -/
structure Sound (m : Runtime) : Prop where
  kres : m.kres.Current m.kresFact m.registry.registryGen
  plans : m.plans.Current m.planFact m.registry.manifestGen
  pins : m.pins.Current m.pinFact m.registry.manifestGen
  bindings : m.bindings.Current (fun k => declaresBinding (m.images k.1) k.2) 0
  aligned : ∀ e ∈ m.registry.modules, Module.Aligned e

theorem sound_initial {backend : Int} {names : Addr → Name} {images : Addr → List UInt32} :
    (initial backend names images).Sound :=
  ⟨Slots.current_empty, Slots.current_empty, Slots.current_empty, Slots.current_empty,
    fun _ h => (by cases h)⟩

/-- The generations of `r` are new to the caches where they move, and where the manifest generation
stays the kernels of the plans keep the kinds of their parameters. -/
structure Moves (m : Runtime) (r : Registry) : Prop where
  kres : r.registryGen ≠ m.registry.registryGen → m.kres.Unused r.registryGen
  plans : r.manifestGen ≠ m.registry.manifestGen → m.plans.Unused r.manifestGen
  pins : r.manifestGen ≠ m.registry.manifestGen → m.pins.Unused r.manifestGen
  kinds : r.manifestGen = m.registry.manifestGen →
    ∀ key, m.plans.Holds m.registry.manifestGen key →
      r.kinds (m.names key.1) = m.registry.kinds (m.names key.1)

def Covered (m : Runtime) : Action → Prop
  | .register c => m.Moves (register m.registry c) ∧
    match c with
    | .module name _ _ backend => ∀ e ∈ m.registry.modules,
        e.backend = backend → e.name = name → e.alignState = .unasked
    | _ => True
  | .writeName name contents => contents = m.names name ∨
    ∀ backend, ¬ m.plans.Holds m.registry.manifestGen (name, backend) ∧
      ¬ m.pins.Holds m.registry.manifestGen (name, backend)
  | .writeImage image contents => contents = m.images image ∨
    ∀ binding, ¬ m.bindings.Holds 0 (image, binding)
  | _ => True

theorem Sound.kresGet (h : m.Sound) :
    (m.kresGet x).1 = m.registry.resolve (m.names x) ∧ (m.kresGet x).2.Sound :=
  ⟨h.kres.get_value, { h with kres := h.kres.get_current }⟩

theorem Sound.subPlanFor (h : m.Sound) :
    (m.subPlanFor name).1 = m.planFact (name, m.registry.backend) ∧
      (m.subPlanFor name).2.Sound := by
  unfold Runtime.subPlanFor
  exact ⟨h.plans.get_value, { h with plans := h.plans.get_current }⟩

theorem Sound.pinnedBlock (h : m.Sound) :
    (m.pinnedBlock name).1 = m.pinFact (name, m.registry.backend) ∧
      (m.pinnedBlock name).2.Sound := by
  unfold Runtime.pinnedBlock
  exact ⟨h.pins.get_value, { h with pins := h.pins.get_current }⟩

theorem Sound.hasFaultBinding (h : m.Sound) (hplace : (m.images spirv).length = len / 4) :
    (m.hasFaultBinding spirv len b).1 = m.bindingFact len (spirv, b) ∧
      (m.hasFaultBinding spirv len b).2.Sound := by
  have hfact : m.bindingFact len (spirv, b) = declaresBinding (m.images spirv) b := by
    rw [bindingFact, scanned, List.take_of_length_le (Nat.le_of_eq hplace)]
  have hget : ∀ slot, m.bindings.get (m.bindingFact len) 0 slot (spirv, b) =
      m.bindings.get (fun k => declaresBinding (m.images k.1) k.2) 0 slot (spirv, b) :=
    fun _ => Slots.get_congr hfact
  unfold Runtime.hasFaultBinding
  dsimp only
  generalize siteSlot m.bindings _ bindingSlots bindingSlots (spirv, b) = slot
  rw [hget, hfact]
  exact ⟨h.bindings.get_value, { h with bindings := h.bindings.get_current }⟩

/-! ## cuda launches -/

theorem load_spec (m : Runtime) (declaresFault : List UInt32 → Bool) (loads resolves : Bool)
    (he : Module.Aligned e) :
    Module.Aligned (m.load declaresFault e loads resolves).1 ∧
      ((m.load declaresFault e loads resolves).1.name,
        (m.load declaresFault e loads resolves).1.backend) = (e.name, e.backend) ∧
      ∃ n, (m.load declaresFault e loads resolves).2 = { m with loads := n } := by
  unfold load
  split
  · exact ⟨he, rfl, _, rfl⟩
  · dsimp only
    split
    · refine ⟨⟨fun hfunction => ?_, he.asked⟩, rfl, _, rfl⟩
      rw [Bool.and_eq_true] at hfunction
      exact hfunction.1
    · rename_i hmodule
      refine ⟨⟨fun _ => rfl, .inl ?_⟩, rfl, _, rfl⟩
      rcases he.asked with hasked | ⟨hsome, -⟩
      · exact hasked
      · rw [hsome] at hmodule
        exact absurd rfl hmodule

theorem askAlign_spec (he : Module.Aligned e) (hmodule : e.module.isSome) :
    Module.Aligned (askAlign e) ∧ alignFault (askAlign e) = e.module.bind Loaded.faultRecord ∧
      ((askAlign e).name, (askAlign e).backend) = (e.name, e.backend) := by
  unfold askAlign
  split
  · split
    · rename_i record hrecord
      exact ⟨⟨fun _ => hmodule, .inr ⟨hmodule, hrecord.symm⟩⟩, hrecord.symm, rfl⟩
    · rename_i hrecord
      exact ⟨⟨fun _ => hmodule, .inr ⟨hmodule, hrecord.symm⟩⟩, hrecord.symm, rfl⟩
  · rename_i hasked
    rcases he.asked with h | h
    · exact absurd h hasked
    · exact ⟨he, h.2, rfl⟩

theorem Sound.setModule (h : m.Sound) (hi : m.registry.modules[i]? = some e)
    (hname : (e'.name, e'.backend) = (e.name, e.backend)) (he' : Module.Aligned e') :
    (m.setModule i e').Sound := by
  have hmap : (m.registry.modules.set i e').map (fun e => (e.name, e.backend)) =
      m.registry.modules.map fun e => (e.name, e.backend) := by
    apply List.ext_getElem?
    intro j
    rw [List.getElem?_map, List.getElem?_map]
    by_cases hj : j = i
    · subst hj
      rw [List.getElem?_set_self (List.getElem?_eq_some_iff.mp hi).1, hi]
      exact congrArg some hname
    · rw [List.getElem?_set_ne (Ne.symm hj)]
  refine ⟨h.kres.congr fun key _ => Registry.resolve_congr hmap rfl rfl rfl, h.plans, h.pins,
    h.bindings, fun x hx => ?_⟩
  rcases List.mem_or_eq_of_mem_set hx with hx | rfl
  · exact h.aligned x hx
  · exact he'

theorem Sound.launchCuda (h : m.Sound) :
    (m.launchCuda declaresFault call).1 = m.freshFacts declaresFault (.launchCuda call) ∧
      (m.launchCuda declaresFault call).2.Sound := by
  obtain ⟨hr, hs⟩ := h.kresGet (x := call.name)
  have hregistry : (m.kresGet call.name).2.registry = m.registry := rfl
  have hload : ∀ e, ((m.kresGet call.name).2.load declaresFault e call.loads call.resolves).1 =
      (m.load declaresFault e call.loads call.resolves).1 := by
    intro e
    unfold load
    split
    · rfl
    · dsimp only
      split <;> rfl
  simp only [Runtime.launchCuda, freshFacts, hr, hregistry]
  cases hmod : (m.registry.resolve (m.names call.name)).mod with
  | none => exact ⟨rfl, hs⟩
  | some i =>
    rw [Option.bind_some, Option.bind_some]
    cases hi : m.registry.modules[i]? with
    | none => exact ⟨rfl, hs⟩
    | some e =>
      obtain ⟨halign, hname, n, hm⟩ :=
        load_spec (m.kresGet call.name).2 declaresFault call.loads call.resolves
          (h.aligned e (List.mem_of_getElem? hi))
      have hs' :
          ((m.kresGet call.name).2.load declaresFault e call.loads call.resolves).2.Sound := by
        rw [hm]
        exact { hs with }
      rw [hload] at halign hname
      simp only [Option.map_some, hload]
      split
      · rename_i hreach
        rw [Bool.and_eq_true] at hreach
        obtain ⟨hask, hfault, hsame⟩ := askAlign_spec halign (halign.function hreach.1)
        rw [hfault]
        exact ⟨rfl, hs'.setModule (by rw [hm]; exact hi) (hsame.trans hname) hask⟩
      · exact ⟨rfl, hs'.setModule (by rw [hm]; exact hi) hname halign⟩

/-! ## Actions -/

theorem Sound.facts (h : m.Sound) (hplace : m.inPlace a) :
    (m.step declaresFault a).1 = m.freshFacts declaresFault a := by
  cases a with
  | submit name => exact congrArg (fun p => [Fact.plan p]) h.subPlanFor.1
  | checkBlock name => exact congrArg (fun b => [Fact.pin b]) h.pinnedBlock.1
  | launchCuda call => exact h.launchCuda.1
  | launchVulkan call =>
    simp only [step, Runtime.launchVulkan, freshFacts]
    cases himage : m.vulkanImage call with
    | none => rfl
    | some found =>
      exact congrArg (fun b => [Fact.faultBinding b]) (h.hasFaultBinding (hplace _ _ himage)).1
  | _ => rfl

/-- A registration drops entries, adds one that has not been asked, or overwrites one. -/
theorem register_modules (haligned : ∀ e ∈ r.modules, Module.Aligned e)
    (hentry : ∀ name image len backend, c = .module name image len backend →
      ∀ e ∈ r.modules, e.backend = backend → e.name = name → e.alignState = .unasked) :
    ∀ e ∈ (Runtime.register r c).modules, Module.Aligned e := by
  intro e he
  cases c with
  | module name image len backend =>
    simp only [Runtime.register, Registry.registerModule] at he
    split at he
    · rename_i i hi
      obtain ⟨hlt, hfound, -⟩ := List.findIdx?_eq_some_iff_getElem.mp hi
      obtain ⟨j, hj⟩ := List.mem_iff_getElem?.mp he
      rw [List.getElem?_modify] at hj
      split at hj
      · rename_i heq
        subst heq
        rw [List.getElem?_eq_getElem hlt] at hj
        obtain ⟨hbackend, hname⟩ := of_decide_eq_true hfound
        have hunasked := hentry _ _ _ _ rfl _ (List.getElem_mem hlt) hbackend hname
        rw [← Option.some.inj hj]
        exact ⟨fun hfunction => (by cases hfunction), .inl hunasked⟩
      · have hkept : r.modules[j]? = some e := by simpa using hj
        exact haligned e (List.mem_of_getElem? hkept)
    · split at he
      · rcases List.mem_append.mp he with he | he
        · exact haligned e he
        · rw [List.mem_singleton.mp he]
          exact ⟨fun hfunction => (by cases hfunction), .inl rfl⟩
      · exact haligned e he
  | epochPopTo depth =>
    simp only [Runtime.register, Registry.epochPopTo] at he
    split at he
    · exact haligned e he
    · split at he
      · exact haligned e he
      · exact haligned e (List.mem_of_mem_take he)
  | epochPush =>
    simp only [Runtime.register, Registry.epochPush] at he
    split at he <;> exact haligned e he
  | kernelParams =>
    simp only [Runtime.register, Registry.registerKernelParams] at he
    split at he
    · exact haligned e he
    · split at he <;> exact haligned e he
  | dynamicShared =>
    simp only [Runtime.register, Registry.registerDynamicShared] at he
    split at he
    · exact haligned e he
    · split at he <;> exact haligned e he
  | optixRayquery =>
    simp only [Runtime.register, Registry.registerOptixRayquery] at he
    split at he
    · exact haligned e he
    · split at he <;> exact haligned e he
  | _ => exact haligned e he

theorem Sound.register (h : m.Sound) (hcov : m.Covered (.register c)) :
    (m.step declaresFault (.register c)).2.Sound := by
  obtain ⟨hmoves, hentry⟩ := hcov
  refine ⟨?_, ?_, ?_, h.bindings, ?_⟩
  · show m.kres.Current (fun k => (Runtime.register m.registry c).resolve k.2) _
    by_cases hgen : (Runtime.register m.registry c).registryGen = m.registry.registryGen
    · show m.kres.Current _ (Runtime.register m.registry c).registryGen
      rw [hgen]
      exact h.kres.congr fun key _ => register_resolve _ _ hgen
    · exact (hmoves.kres hgen).current
  · show m.plans.Current (fun k => (Runtime.register m.registry c).plan (m.names k.1) k.2) _
    by_cases hgen : (Runtime.register m.registry c).manifestGen = m.registry.manifestGen
    · show m.plans.Current _ (Runtime.register m.registry c).manifestGen
      rw [hgen]
      exact h.plans.congr fun key hkey =>
        Registry.plan_congr (register_manifests _ _ hgen) (hmoves.kinds hgen key hkey)
    · exact (hmoves.plans hgen).current
  · show m.pins.Current (fun k => (Runtime.register m.registry c).pinnedBlock (m.names k.1) k.2) _
    by_cases hgen : (Runtime.register m.registry c).manifestGen = m.registry.manifestGen
    · show m.pins.Current _ (Runtime.register m.registry c).manifestGen
      rw [hgen]
      exact h.pins.congr fun key _ => Registry.pinnedBlock_congr (register_manifests _ _ hgen)
    · exact (hmoves.pins hgen).current
  · refine register_modules h.aligned ?_
    rintro name image len backend rfl
    exact hentry

theorem Sound.writeName (h : m.Sound) (hcov : m.Covered (.writeName name contents)) :
    (m.step declaresFault (.writeName name contents)).2.Sound := by
  have hnames : ∀ key : SiteKey, key.1 ≠ name ∨ contents = m.names name →
      Function.update m.names name contents key.1 = m.names key.1 := by
    intro key hkey
    rcases hkey with hkey | hkey
    · exact Function.update_of_ne hkey _ _
    · rw [hkey, Function.update_eq_self]
  refine ⟨h.kres, h.plans.congr fun key hkey => ?_, h.pins.congr fun key hkey => ?_, h.bindings,
    h.aligned⟩
  · show m.registry.plan (Function.update m.names name contents key.1) key.2 = _
    rw [hnames key]
    · rfl
    · refine hcov.symm.imp_left fun hheld heq => ?_
      subst heq
      exact (hheld key.2).1 hkey
  · show m.registry.pinnedBlock (Function.update m.names name contents key.1) key.2 = _
    rw [hnames key]
    · rfl
    · refine hcov.symm.imp_left fun hheld heq => ?_
      subst heq
      exact (hheld key.2).2 hkey

theorem Sound.writeImage (h : m.Sound) (hcov : m.Covered (.writeImage image contents)) :
    (m.step declaresFault (.writeImage image contents)).2.Sound := by
  refine ⟨h.kres, h.plans, h.pins, h.bindings.congr fun key hkey => ?_, h.aligned⟩
  show declaresBinding (Function.update m.images image contents key.1) key.2 = _
  rcases hcov with hsame | hheld
  · rw [hsame, Function.update_eq_self]
  · have hne : key.1 ≠ image := by
      intro heq
      subst heq
      exact hheld key.2 hkey
    rw [Function.update_of_ne hne]

theorem Sound.step (h : m.Sound) (hcov : m.Covered a) (hstep : Step declaresFault m a m') :
    m'.Sound := by
  obtain ⟨hplace, rfl⟩ := hstep
  cases a with
  | register c => exact h.register hcov
  | writeName => exact h.writeName hcov
  | writeImage => exact h.writeImage hcov
  | submit => exact h.subPlanFor.2
  | checkBlock => exact h.pinnedBlock.2
  | launchCuda => exact h.launchCuda.2
  | launchVulkan call =>
    simp only [Runtime.step, Runtime.launchVulkan]
    cases himage : m.vulkanImage call with
    | none => exact h
    | some found =>
      obtain ⟨e, n⟩ := found
      have hafter := (h.hasFaultBinding (b := n) (hplace _ _ himage)).2
      dsimp only
      generalize m.hasFaultBinding e.image e.len n = out at hafter ⊢
      exact hafter

/-- In every run whose actions meet the condition, each fact that a launch takes is the one that a
fresh lookup gives. -/
theorem launch_fresh {backend : Int} {names : Addr → Name} {images : Addr → List UInt32}
    {acts : List Action}
    (h : Steps (Steps.guarded (Step declaresFault) Covered) (initial backend names images) acts m) :
    ∀ a, m.inPlace a → (m.step declaresFault a).1 = m.freshFacts declaresFault a := by
  have hs : m.Sound :=
    h.preserves (P := Sound) (fun _ _ _ ha hs => hs.step ha.1 ha.2) sound_initial
  exact fun a hplace => hs.facts hplace

def sampleNames : Addr → Name := fun _ => [107]

def sampleCall : CudaCall := ⟨16, true, true, true⟩

/-- A module is registered and launched twice; a third launch takes the facts as they are. -/
theorem launch_fresh_sample : ∃ m : Runtime,
    (m.step (fun _ => true) (.launchCuda sampleCall)).1 =
      m.freshFacts (fun _ => true) (.launchCuda sampleCall) ∧ m.loads = 1 := by
  have hrun : ∃ m : Runtime, m.loads = 1 ∧
      Steps (Steps.guarded (Step fun _ => true) Covered) (initial cuda sampleNames fun _ => [])
        [.register (.module [107] 4096 64 cuda), .launchCuda sampleCall,
          .launchCuda sampleCall] m :=
    ⟨_, rfl, .cons ⟨⟨⟨fun _ _ _ h => (by cases h), fun h => absurd rfl h, fun h => absurd rfl h,
      fun _ _ _ => rfl⟩, fun _ h => (by cases h)⟩, trivial, rfl⟩ <|
      .cons ⟨trivial, trivial, rfl⟩ <| .cons ⟨trivial, trivial, rfl⟩ .nil⟩
  obtain ⟨m, hloads, hsteps⟩ := hrun
  exact ⟨m, launch_fresh hsteps _ trivial, hloads⟩

/-- After its module is registered again, a launch still takes the fault record of the module that
was loaded first. -/
theorem not_launch_fresh_registeredAgain :
    ¬ ∀ (declaresFault : List UInt32 → Bool) backend names images acts m,
      Steps (Step declaresFault) (initial backend names images) acts m →
        ∀ a, m.inPlace a → (m.step declaresFault a).1 = m.freshFacts declaresFault a := by
  intro hall
  have hrun : ∃ m : Runtime,
      (m.step (fun _ => true) (.launchCuda sampleCall)).1[1]? = some (.faultRecord (some 0)) ∧
      (m.freshFacts (fun _ => true) (.launchCuda sampleCall))[1]? = some (.faultRecord (some 1)) ∧
      Steps (Step fun _ => true) (initial cuda sampleNames fun _ => [])
        [.register (.module [107] 4096 64 cuda), .launchCuda sampleCall,
          .register (.module [107] 8192 64 cuda)] m :=
    ⟨_, rfl, rfl, .cons ⟨trivial, rfl⟩ <| .cons ⟨trivial, rfl⟩ <| .cons ⟨trivial, rfl⟩ .nil⟩
  obtain ⟨m, hcached, hfresh, hsteps⟩ := hrun
  have hsame := hall _ _ _ _ _ _ hsteps (.launchCuda sampleCall) trivial
  rw [hsame, hfresh] at hcached
  cases hcached

end Runtime

end Cajeta.Xpu
