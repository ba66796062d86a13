import Cajeta.Runtime.Epoch

/-!
# What an epoch restores

Between a push and the pop that matches it the registries only grow beyond what they held at the
push, provided that no registration changes an entry that was there. The pop then restores them.
-/

namespace Cajeta.Runtime

theorem Registration.prefix_apply {r : Registration α} (h : r.Spares t₀.length t) (ht : t₀ <+: t) :
    t₀ <+: r.apply t := by
  unfold apply
  split
  next i hi =>
    refine List.prefix_iff_getElem?.mpr fun k hk => ?_
    have hk' := List.prefix_iff_getElem?.mp ht k hk
    by_cases hik : i = k
    · subst hik
      have he := h i _ hi hk' hk
      simp only [List.getElem?_modify, if_true, hk', Option.map_eq_map, Option.map_some, he]
    · simp only [List.getElem?_modify, if_neg hik, hk', Option.map_eq_map, Option.map_some]
  next =>
    split
    · exact ht
    · exact ht.trans (List.prefix_append ..)

theorem prefix_take (ht : t₀ <+: t) (hn : t₀.length ≤ n) : t₀ <+: t.take n :=
  List.prefix_take_iff.mpr ⟨ht, hn⟩

namespace Program

theorem freeNodes_length (hn : head ≤ t.length) : (freeNodes head t).length = head := by
  induction t with
  | nil => exact (Nat.le_zero.mp hn).symm
  | cons a t ih =>
    rw [freeNodes]
    split
    · assumption
    · next hne =>
      have : head ≠ t.length + 1 := fun h => hne h.symm
      rw [List.length_cons] at hn
      exact ih (by omega)

theorem freeNodes_suffix : freeNodes head t <:+ t := by
  induction t with
  | nil => exact List.suffix_refl _
  | cons a t ih =>
    rw [freeNodes]
    split
    · exact List.suffix_refl _
    · exact ih.trans (List.suffix_cons ..)

theorem suffix_freeNodes (ht : t₀ <:+ t) (hn : t₀.length ≤ head) (hlen : head ≤ t.length) :
    t₀ <:+ freeNodes head t :=
  List.suffix_of_suffix_length_le ht freeNodes_suffix (by rw [freeNodes_length hlen]; exact hn)

/-- The entries of `r` are the first ones of `r'`. -/
structure Extends (r r' : Registries) : Prop where
  classes : r.classes <+: r'.classes
  modules : r.modules <+: r'.modules
  manifests : r.manifests <+: r'.manifests
  kparams : r.kparams <+: r'.kparams
  dynshared : r.dynshared <+: r'.dynshared
  cpuKernels : r.cpuKernels <+: r'.cpuKernels
  census : r.census <+: r'.census
  calib : r.calib <+: r'.calib
  atexit : r.atexit <:+ r'.atexit

/-- The entries of `r` are among the ones that the epoch saves. -/
structure Covers (r : Registries) (e : Epoch) : Prop where
  classes : r.classes.length ≤ e.classes
  modules : r.modules.length ≤ e.modules
  manifests : r.manifests.length ≤ e.manifests
  kparams : r.kparams.length ≤ e.kparams
  dynshared : r.dynshared.length ≤ e.dynshared
  cpuKernels : r.cpuKernels.length ≤ e.cpuKernels
  census : r.census.length ≤ e.census
  calib : r.calib.length ≤ e.calib
  atexit : r.atexit.length ≤ e.atexitHead

/-- The call changes no entry of the registries `r` of a push before it. -/
def Spares (r r' : Registries) : Call → Prop
  | .registerClass name obj => (registerClass name obj).Spares r.classes.length r'.classes
  | .registerModule name image len backend =>
    (registerModule name image len backend).Spares r.modules.length r'.modules
  | .registerKernelManifest name backend arch json len lds =>
    (registerKernelManifest name backend arch json len lds).Spares r.manifests.length r'.manifests
  | .registerKernelParams name count kind byteSize =>
    (registerKernelParams name count kind byteSize).Spares r.kparams.length r'.kparams
  | .registerKernelParamAlign name count align =>
    (registerKernelParamAlign name count align).Spares r.kparams.length r'.kparams
  | .registerDynamicShared name bytes =>
    (registerDynamicShared name bytes).Spares r.dynshared.length r'.dynshared
  | .registerCpuKernel name level fn =>
    (registerCpuKernel name level fn).Spares r.cpuKernels.length r'.cpuKernels
  | .noteLaunch name => (noteLaunch name).Spares r.census.length r'.census
  | .registerCalibration slot bytes len =>
    (registerCalibration slot bytes len).Spares r.calib.length r'.calib
  | _ => True

theorem Extends.refl : Extends r r := by
  constructor <;> first | exact List.prefix_refl _ | exact List.suffix_refl _

theorem Extends.covers (h : Extends r r') : Covers r (saved r') where
  classes := h.classes.length_le
  modules := h.modules.length_le
  manifests := h.manifests.length_le
  kparams := h.kparams.length_le
  dynshared := h.dynshared.length_le
  cpuKernels := h.cpuKernels.length_le
  census := h.census.length_le
  calib := h.calib.length_le
  atexit := h.atexit.length_le

theorem Extends.write (h : Extends r r') (hc : Spares r r' c) : Extends r (r'.write c) := by
  cases c with
  | registerClass => exact { h with classes := Registration.prefix_apply hc h.classes }
  | registerModule => exact { h with modules := Registration.prefix_apply hc h.modules }
  | registerKernelManifest => exact { h with manifests := Registration.prefix_apply hc h.manifests }
  | registerKernelParams => exact { h with kparams := Registration.prefix_apply hc h.kparams }
  | registerKernelParamAlign => exact { h with kparams := Registration.prefix_apply hc h.kparams }
  | registerDynamicShared => exact { h with dynshared := Registration.prefix_apply hc h.dynshared }
  | registerCpuKernel => exact { h with cpuKernels := Registration.prefix_apply hc h.cpuKernels }
  | noteLaunch => exact { h with census := Registration.prefix_apply hc h.census }
  | registerCalibration => exact { h with calib := Registration.prefix_apply hc h.calib }
  | registerBackend => exact { h with }
  | forceBackend =>
    rw [Registries.write]
    split
    · exact h
    · exact { h with }
  | select => exact { h with }
  | registerLocTable =>
    rw [Registries.write]
    split <;> exact { h with }
  | atexitPush => exact { h with atexit := h.atexit.trans (List.suffix_cons ..) }

/-! ## Runs -/

def Admits (p q : Program) : Op → Prop
  | .call c => Registries.accepts c → Spares p.regs q.regs c
  | .epochPush => True
  | .epochPopTo depth => depth = 0 ∨ p.epochs.length + 1 < depth

/-- `q` is a state above a push at `p`. -/
structure Above (p q : Program) (opened : List Epoch) : Prop where
  epochs : q.epochs = p.epochs ++ saved p.regs :: opened
  regs : Extends p.regs q.regs
  covers : ∀ e ∈ opened, Covers p.regs e
  heads : (opened.map (·.atexitHead)).Pairwise (· ≤ ·)
  head_le : ∀ e ∈ opened, e.atexitHead ≤ q.regs.atexit.length

theorem Above.push (h : Above p q opened) : ∃ opened, Above p q.epochPush opened := by
  rw [epochPush]
  split
  · exact ⟨opened, h⟩
  refine ⟨opened ++ [saved q.regs], ?_, h.regs, ?_, ?_, ?_⟩
  · rw [h.epochs, List.append_assoc, List.cons_append]
  · intro e he
    rcases List.mem_append.mp he with he | he
    · exact h.covers e he
    · rw [List.mem_singleton.mp he]
      exact h.regs.covers
  · rw [List.map_append, List.pairwise_append]
    refine ⟨h.heads, List.pairwise_singleton .., fun a ha b hb => ?_⟩
    obtain ⟨e, he, rfl⟩ := List.mem_map.mp ha
    rw [List.map_singleton, List.mem_singleton] at hb
    rw [hb]
    exact h.head_le e he
  · intro e he
    rcases List.mem_append.mp he with he | he
    · exact h.head_le e he
    · rw [List.mem_singleton.mp he]
      exact Nat.le_refl _

theorem Above.call (h : Above p q opened) (hc : Registries.accepts c → Spares p.regs q.regs c) :
    Above p { q with regs := q.regs.call c } opened := by
  have hlen : q.regs.atexit.length ≤ (q.regs.call c).atexit.length := by
    unfold Registries.call Registries.write
    split
    · split <;> first | exact Nat.le_refl _ | skip
      · split <;> exact Nat.le_refl _
      · split <;> exact Nat.le_refl _
      · exact Nat.le_succ _
    · exact Nat.le_refl _
  refine ⟨h.epochs, ?_, h.covers, h.heads, fun e he => Nat.le_trans (h.head_le e he) hlen⟩
  unfold Registries.call
  split
  · next ha => exact h.regs.write (hc ha)
  · exact h.regs

theorem Extends.cut {q : Program} (h : Extends r q.regs) (hc : Covers r e) (hd : ¬depth < 1)
    (he : q.epochs[depth - 1]? = some e) (hlen : e.atexitHead ≤ q.regs.atexit.length) :
    Extends r (q.epochPopTo depth).regs := by
  rw [epochPopTo, if_neg hd, he]
  exact {
    classes := prefix_take h.classes hc.classes
    modules := prefix_take h.modules hc.modules
    manifests := prefix_take h.manifests hc.manifests
    kparams := prefix_take h.kparams hc.kparams
    dynshared := prefix_take h.dynshared hc.dynshared
    cpuKernels := prefix_take h.cpuKernels hc.cpuKernels
    census := prefix_take h.census hc.census
    calib := prefix_take h.calib hc.calib
    atexit := suffix_freeNodes h.atexit hc.atexit hlen }

theorem Above.pop (h : Above p q opened) (hd : depth = 0 ∨ p.epochs.length + 1 < depth) :
    ∃ opened, Above p (q.epochPopTo depth) opened := by
  rcases hd with rfl | hd
  · exact ⟨opened, h⟩
  cases he : q.epochs[depth - 1]? with
  | none =>
    rw [epochPopTo, if_neg (by omega), he]
    exact ⟨opened, h⟩
  | some e =>
    obtain ⟨k, rfl⟩ : ∃ k, depth = p.epochs.length + 1 + k + 1 :=
      ⟨depth - (p.epochs.length + 2), by omega⟩
    have hk : opened[k]? = some e := by
      rw [h.epochs, List.getElem?_append_right (by omega)] at he
      rw [← he, show p.epochs.length + 1 + k + 1 - 1 - p.epochs.length = k + 1 by omega,
        List.getElem?_cons_succ]
    have hmem := List.mem_of_getElem? hk
    have hregs := h.regs.cut (h.covers e hmem) (by omega) he (h.head_le e hmem)
    have hlen : (q.epochPopTo (p.epochs.length + 1 + k + 1)).regs.atexit.length = e.atexitHead := by
      rw [epochPopTo, if_neg (by omega), he]
      exact freeNodes_length (h.head_le e hmem)
    refine ⟨opened.take k, ?_, hregs, fun e' he' => h.covers e' (List.mem_of_mem_take he'), ?_,
      fun e' he' => ?_⟩
    · rw [epochPopTo, if_neg (by omega), he, h.epochs]
      show List.take (p.epochs.length + 1 + k) _ = _
      rw [Nat.add_assoc, List.take_length_add_append, Nat.add_comm, List.take_succ_cons]
    · rw [List.map_take]
      exact h.heads.take
    · rw [hlen]
      obtain ⟨i, hi, rfl⟩ := List.mem_take_iff_getElem.mp he'
      obtain ⟨hk', rfl⟩ := List.getElem?_eq_some_iff.mp hk
      have := List.pairwise_iff_getElem.mp h.heads i k (by simp; omega) (by simpa) (by omega)
      simpa using this

theorem Above.step (h : Above p q opened) (hop : Admits p q op) :
    ∃ opened, Above p (q.step op) opened := by
  cases op with
  | call c => exact ⟨opened, h.call hop⟩
  | epochPush => exact h.push
  | epochPopTo depth => exact h.pop hop

/-- Every operation of the list is admitted in the state that it starts from. -/
def Between (p : Program) : Program → List Op → Prop
  | _, [] => True
  | q, op :: ops => Admits p q op ∧ Between p (q.step op) ops

theorem Above.run (h : Above p q opened) (hops : Between p q ops) :
    ∃ opened, Above p (q.run ops) opened := by
  induction ops generalizing q opened with
  | nil => exact ⟨opened, h⟩
  | cons op ops ih =>
    obtain ⟨opened, h'⟩ := h.step hops.1
    exact ih h' hops.2

theorem Above.restored (h : Above p q opened) : q.epochPopTo (p.epochs.length + 1) = p := by
  have he : q.epochs[p.epochs.length + 1 - 1]? = some (saved p.regs) := by
    rw [h.epochs, Nat.add_sub_cancel, List.getElem?_append_right (Nat.le_refl _), Nat.sub_self]
    rfl
  have hx := h.regs
  have hlen := hx.atexit.length_le
  have hat : freeNodes (saved p.regs).atexitHead q.regs.atexit = p.regs.atexit :=
    (List.IsSuffix.eq_of_length (suffix_freeNodes hx.atexit (Nat.le_refl _) hlen)
      (freeNodes_length hlen).symm).symm
  rw [epochPopTo, if_neg (by omega), he]
  obtain ⟨regs, epochs⟩ := p
  simp only [hat, Program.mk.injEq]
  refine ⟨?_, ?_⟩
  · simp only [saved]
    rw [← List.prefix_iff_eq_take.mp hx.classes, ← List.prefix_iff_eq_take.mp hx.modules,
      ← List.prefix_iff_eq_take.mp hx.manifests, ← List.prefix_iff_eq_take.mp hx.kparams,
      ← List.prefix_iff_eq_take.mp hx.dynshared, ← List.prefix_iff_eq_take.mp hx.cpuKernels,
      ← List.prefix_iff_eq_take.mp hx.census, ← List.prefix_iff_eq_take.mp hx.calib]
  · rw [h.epochs]
    simp

/-- If no registration between a push and the pop that matches it changes an entry that was there
at the push, then the pop restores every registry. -/
theorem epochPopTo_restores (p : Program) (ops : List Op) (hroom : p.epochs.length < 64)
    (hops : Between p p.epochPush ops) :
    (p.epochPush.run ops).epochPopTo (p.epochs.length + 1) = p := by
  have h : Above p p.epochPush [] := by
    rw [epochPush, if_neg (by omega)]
    exact ⟨rfl, .refl, by simp, .nil, by simp⟩
  obtain ⟨opened, h⟩ := h.run hops
  exact h.restored

/-- A program with a class `A` pushes an epoch, in which classes are registered and an opened epoch
comes and goes. -/
theorem epochPopTo_restores_nested :
    let p : Program := ⟨{ Registries.none with classes := [⟨[65], 1⟩] }, []⟩
    (p.epochPush.run [.call (.registerClass [66] 2), .epochPush, .call (.registerClass [67] 3),
      .epochPopTo 2, .call (.atexitPush 4 5)]).epochPopTo 1 = p := by
  refine epochPopTo_restores _ _ (by decide) ⟨?_, trivial, ?_, Or.inr (by decide), ?_, trivial⟩
  · intro _ i e hi he hlt
    cases hi
  · intro _ i e hi he hlt
    cases hi
  · intro _
    trivial

/-- A class that is registered again under its name keeps the class object of the epoch. -/
theorem epochPopTo_stale :
    let p : Program := ⟨{ Registries.none with classes := [⟨[65], 1⟩] }, []⟩
    ((p.epochPush.run [.call (.registerClass [65] 2)]).epochPopTo 1).regs.classes = [⟨[65], 2⟩] ∧
      ((p.epochPush.run [.call (.registerClass [65] 2)]).epochPopTo 1).regs.classes ≠
        p.regs.classes := by
  decide

end Program

end Cajeta.Runtime
