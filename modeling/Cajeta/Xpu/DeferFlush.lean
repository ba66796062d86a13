import Mathlib.Data.List.Forall2
import Cajeta.Xpu.Defer

/-!
# A flush submits the queue, once and in order

Whichever way a queue goes out, the driver receives its launches as they were queued. The invariant
is that every recording mirrors what the driver's executable graph holds.
-/

namespace Cajeta.Xpu
open Delivery

variable {env : Env} {ds ds' : Dstream} {d d' : Driver}

theorem Driver.call_cases (env : Env) (effect : Driver → Driver) (d : Driver) :
    d.call env effect = (true, effect { d with calls := d.calls + 1 }) ∨
      d.call env effect = (false, { d with calls := d.calls + 1 }) := by
  unfold Driver.call
  split
  · exact .inl rfl
  · exact .inr rfl

/-- The driver after a step that submits nothing, and leaves alone the executable graphs that were
there except those at `owned`. -/
structure Quiet (owned : Nat → Prop) (d d' : Driver) : Prop where
  trace : d'.trace = d.trace
  handles : d.handles ≤ d'.handles
  execs : ∀ h < d.handles, ¬ owned h → d'.execs h = d.execs h

namespace Quiet
variable {owned owned' : Nat → Prop} {d'' : Driver}

theorem refl (d : Driver) : Quiet owned d d := ⟨rfl, Nat.le_refl _, fun _ _ _ => rfl⟩

theorem trans (h : Quiet owned d d') (h' : Quiet owned' d' d'')
    (howned : ∀ n < d.handles, owned' n → owned n) : Quiet owned d d'' where
  trace := h'.trace.trans h.trace
  handles := Nat.le_trans h.handles h'.handles
  execs n hn hno := (h'.execs n (Nat.lt_of_lt_of_le hn h.handles)
    fun ho => hno (howned n hn ho)).trans (h.execs n hn hno)

theorem call {effect : Driver → Driver}
    (h : Quiet owned d (effect { d with calls := d.calls + 1 })) :
    Quiet owned d (d.call env effect).2 := by
  rcases d.call_cases env effect with hcall | hcall
  · rw [hcall]
    exact h
  · rw [hcall]
    exact ⟨rfl, Nat.le_refl _, fun _ _ _ => rfl⟩

theorem cuGraphExecDestroy (env : Env) (exec : Nat) (d : Driver) :
    Quiet (· = exec) d (d.cuGraphExecDestroy env exec) :=
  call ⟨rfl, Nat.le_refl _, fun _ _ hne => Function.update_of_ne hne _ _⟩

theorem cuGraphDestroy (env : Env) (graph : Nat) (d : Driver) :
    Quiet (fun _ => False) d (d.cuGraphDestroy env graph) :=
  call ⟨rfl, Nat.le_refl _, fun _ _ _ => rfl⟩

theorem dgraphDrop (env : Env) (g : Dgraph) (d : Driver) :
    Quiet (· = g.exec) d (dgraphDrop env g d) :=
  (cuGraphExecDestroy env g.exec d).trans (cuGraphDestroy env g.graph _) fun _ _ h => h.elim

end Quiet

/-! ## Recording -/

theorem chain_append (hnodes : Driver.chain prev i nodes = some ps)
    (hdep : dep = if nodes = [] then prev else some (i + nodes.length - 1)) :
    Driver.chain prev i (nodes ++ [(dep, p)]) = some (ps ++ [p]) := by
  induction nodes generalizing prev i ps with
  | nil =>
    cases hnodes
    simp only [if_true] at hdep
    simp [Driver.chain, hdep]
  | cons node nodes ih =>
    obtain ⟨dep', p'⟩ := node
    rw [List.cons_append, Driver.chain]
    rw [Driver.chain] at hnodes
    split at hnodes
    · next heq =>
      obtain ⟨ps', hps', rfl⟩ := Option.map_eq_some_iff.mp hnodes
      rw [if_pos heq, ih hps' ?_]
      · rfl
      · rw [hdep, if_neg (List.cons_ne_nil _ _), List.length_cons]
        cases nodes with
        | nil => simp
        | cons n ns =>
          rw [if_neg (List.cons_ne_nil _ _), List.length_cons]
          congr 1
          omega
    · cases hnodes

/-- A call that fails leaves the driver as it was, but for the number of calls. -/
def Driver.ticked (d : Driver) : Driver := { d with calls := d.calls + 1 }

def Driver.withNode (d : Driver) (graph : Nat) (dep : Option Nat) (p : Params) : Driver :=
  { d.ticked with graphs := Function.update d.graphs graph (d.graphs graph ++ [(dep, p)]) }

theorem cuGraphAddKernelNode_cases (env : Env) (graph : Nat) (dep : Option Nat) (p : Params)
    (d : Driver) :
    d.cuGraphAddKernelNode env graph dep p =
        (some (d.graphs graph).length, d.withNode graph dep p) ∨
      d.cuGraphAddKernelNode env graph dep p = (none, d.ticked) := by
  unfold Driver.cuGraphAddKernelNode Driver.call
  cases env.answers d.calls
  · exact .inr rfl
  · exact .inl rfl

theorem addNodes_spec (hchain : Driver.chain none 0 (d.graphs graph) = some ps)
    (hdep : dep = if d.graphs graph = [] then none else some ((d.graphs graph).length - 1))
    (hadd : addNodes env graph dep q d = (ok, d')) :
    Quiet (fun _ => False) d d' ∧ (ok = true →
      Driver.chain none 0 (d'.graphs graph) = some (ps ++ q.map (Dl.node env))) := by
  induction q generalizing dep d ps with
  | nil =>
    cases hadd
    exact ⟨.refl _, fun _ => by simpa using hchain⟩
  | cons l q ih =>
    unfold addNodes at hadd
    rcases cuGraphAddKernelNode_cases env graph dep (l.node env) d with hcall | hcall
    · rw [hcall] at hadd
      have hgraph : (d.withNode graph dep (l.node env)).graphs graph =
          d.graphs graph ++ [(dep, l.node env)] := Function.update_self ..
      obtain ⟨hquiet, hdone⟩ := ih
        (by rw [hgraph]; exact chain_append hchain (by simpa using hdep))
        (by rw [hgraph]; simp) hadd
      refine ⟨⟨hquiet.trace, hquiet.handles, hquiet.execs⟩, fun hok => ?_⟩
      rw [hdone hok, List.map_cons, List.append_assoc]
      rfl
    · rw [hcall] at hadd
      cases hadd
      exact ⟨⟨rfl, Nat.le_refl _, fun _ _ _ => rfl⟩, nofun⟩

theorem Quiet.ticked (d : Driver) : Quiet owned d d.ticked :=
  ⟨rfl, Nat.le_refl _, fun _ _ _ => rfl⟩

theorem alloc_spec (h : d.call env id = (ok, d')) : d' = d.ticked := by
  rcases d.call_cases env id with hcall | hcall
  all_goals
    rw [hcall] at h
    exact (Prod.mk.inj h).2.symm

theorem create_cases (env : Env) (effect : Nat → Driver → Driver) (d : Driver) :
    d.create env effect =
        (some d.handles, effect d.handles { d.ticked with handles := d.handles + 1 }) ∨
      d.create env effect = (none, d.ticked) := by
  unfold Driver.create Driver.call
  cases env.answers d.calls
  · exact .inr rfl
  · exact .inl rfl

theorem cuGraphCreate_spec (h : d.cuGraphCreate env = (r, d')) :
    Quiet (fun _ => False) d d' ∧ ∀ graph, r = some graph → d'.graphs graph = [] := by
  unfold Driver.cuGraphCreate at h
  rcases create_cases env _ d with hcall | hcall
  all_goals
    rw [hcall] at h
    cases h
  · exact ⟨⟨rfl, Nat.le_succ _, fun _ _ _ => rfl⟩, fun graph hg => by
      cases hg
      exact Function.update_self ..⟩
  · exact ⟨.ticked d, nofun⟩

theorem cuGraphInstantiate_spec (h : d.cuGraphInstantiate env graph = (r, d')) :
    Quiet (fun _ => False) d d' ∧ ∀ exec, r = some exec → d.handles ≤ exec ∧ exec < d'.handles ∧
      d'.execs exec = (Driver.chain none 0 (d.graphs graph)).getD [] := by
  unfold Driver.cuGraphInstantiate at h
  rcases create_cases env _ d with hcall | hcall
  all_goals
    rw [hcall] at h
    cases h
  · refine ⟨⟨rfl, Nat.le_succ _, fun n hn _ => Function.update_of_ne (Nat.ne_of_lt hn) _ _⟩, ?_⟩
    rintro exec hexec
    cases hexec
    exact ⟨Nat.le_refl _, Nat.lt_succ_self _, Function.update_self ..⟩
  · exact ⟨.ticked d, nofun⟩

theorem recordQueue_spec (h : recordQueue env q d = (r, d')) :
    Quiet (fun _ => False) d d' ∧ ∀ graph exec, r = some (graph, exec) →
      d.handles ≤ exec ∧ exec < d'.handles ∧ d'.execs exec = q.map (Dl.node env) := by
  have hnever : ∀ {n : Nat}, ∀ m < n, False → False := fun _ _ h => h
  unfold recordQueue at h
  split at h
  · next d₁ halloc =>
    cases h
    exact ⟨alloc_spec halloc ▸ .ticked d, nofun⟩
  next d₁ halloc =>
  have hq₁ : Quiet (fun _ => False) d d₁ := alloc_spec halloc ▸ .ticked d
  split at h
  · next d₂ hcreate =>
    cases h
    exact ⟨hq₁.trans (cuGraphCreate_spec hcreate).1 hnever, nofun⟩
  next graph d₂ hcreate =>
  have hq₂ := hq₁.trans (cuGraphCreate_spec hcreate).1 hnever
  have hempty := (cuGraphCreate_spec hcreate).2 graph rfl
  split at h
  · next d₃ hadd =>
    cases h
    have hq₃ := (addNodes_spec (by rw [hempty]; rfl) (by rw [hempty]; rfl) hadd).1
    exact ⟨(hq₂.trans hq₃ hnever).trans (.cuGraphDestroy env graph d₃) hnever, nofun⟩
  next d₃ hadd =>
  obtain ⟨hq₃, hnodes⟩ := addNodes_spec (by rw [hempty]; rfl) (by rw [hempty]; rfl) hadd
  replace hq₃ := hq₂.trans hq₃ hnever
  split at h
  · next d₄ hinst =>
    cases h
    exact ⟨(hq₃.trans (cuGraphInstantiate_spec hinst).1 hnever).trans
      (.cuGraphDestroy env graph d₄) hnever, nofun⟩
  next exec d₄ hinst =>
  cases h
  obtain ⟨hq₄, hexec⟩ := cuGraphInstantiate_spec hinst
  refine ⟨hq₃.trans hq₄ hnever, fun graph' exec' heq => ?_⟩
  cases heq
  obtain ⟨hnew, hlt, hholds⟩ := hexec exec rfl
  refine ⟨Nat.le_trans hq₃.handles hnew, hlt, ?_⟩
  rw [hholds, hnodes rfl]
  rfl

/-! ## Mirrors -/

/-- A queued launch whose arguments stand where the function's parameters say. -/
def Dl.Packed (env : Env) (l : Dl) : Prop := l.off = argOffs 0 (env.paramSizes l.fn)

/-- Every recording of the stream holds what the driver runs for it. -/
structure Mirrors (env : Env) (ds : Dstream) (d : Driver) : Prop where
  holds : ∀ i g, ds.g i = some g → d.execs g.exec = g.last.map (Dl.node env)
  old : ∀ i g, ds.g i = some g → g.exec < d.handles
  packed : ∀ i g, ds.g i = some g → ∀ l ∈ g.last, l.Packed env
  apart : ∀ i j g g', ds.g i = some g → ds.g j = some g' → g.exec = g'.exec → i = j

/-- The executable graphs a stream has recorded. -/
def Owned (ds : Dstream) (exec : Nat) : Prop := ∃ i g, ds.g i = some g ∧ g.exec = exec

/-- One stream's recordings and the driver, after a step that sent `sent` on the stream. -/
structure Evolves (env : Env) (ds : Dstream) (d : Driver) (sent : List Params) (ds' : Dstream)
    (d' : Driver) : Prop where
  stream : ds'.stream = ds.stream
  q : ds'.q = ds.q
  trace : d'.trace = d.trace ++ sent.map (.received ds.stream)
  handles : d.handles ≤ d'.handles
  execs : ∀ n < d.handles, ¬ Owned ds n → d'.execs n = d.execs n
  owned : ∀ n < d.handles, Owned ds' n → Owned ds n
  mirrors : Mirrors env ds' d'

namespace Evolves
variable {ds'' : Dstream} {d'' : Driver} {sent sent' : List Params}

theorem refl (h : Mirrors env ds d) : Evolves env ds d [] ds d :=
  ⟨rfl, rfl, by simp, Nat.le_refl _, fun _ _ _ => rfl, fun _ _ h => h, h⟩

theorem trans (h : Evolves env ds d sent ds' d') (h' : Evolves env ds' d' sent' ds'' d'') :
    Evolves env ds d (sent ++ sent') ds'' d'' where
  stream := h'.stream.trans h.stream
  q := h'.q.trans h.q
  trace := by
    rw [h'.trace, h.trace, h.stream, List.map_append, List.append_assoc]
  handles := Nat.le_trans h.handles h'.handles
  execs n hn hno := (h'.execs n (Nat.lt_of_lt_of_le hn h.handles)
    fun ho => hno (h.owned n hn ho)).trans (h.execs n hn hno)
  owned n hn ho := h.owned n hn (h'.owned n (Nat.lt_of_lt_of_le hn h.handles) ho)
  mirrors := h'.mirrors

end Evolves

/-- One slot changes, while the driver changes nothing that another slot holds. -/
theorem Mirrors.change (h : Mirrors env ds d) (hquiet : Quiet owned d d')
    (hsame : ∀ j ≠ i, ds'.g j = ds.g j)
    (hothers : ∀ j ≠ i, ∀ g', ds.g j = some g' → ¬ owned g'.exec)
    (hnew : ∀ g, ds'.g i = some g → d'.execs g.exec = g.last.map (Dl.node env) ∧
      g.exec < d'.handles ∧ (∀ l ∈ g.last, l.Packed env) ∧
      ∀ j ≠ i, ∀ g', ds.g j = some g' → g'.exec ≠ g.exec) :
    Mirrors env ds' d' where
  holds j g' hg' := by
    by_cases hij : j = i
    · exact (hnew g' (hij ▸ hg')).1
    · rw [hsame j hij] at hg'
      rw [hquiet.execs _ (h.old j g' hg') (hothers j hij g' hg'), h.holds j g' hg']
  old j g' hg' := by
    by_cases hij : j = i
    · exact (hnew g' (hij ▸ hg')).2.1
    · rw [hsame j hij] at hg'
      exact Nat.lt_of_lt_of_le (h.old j g' hg') hquiet.handles
  packed j g' hg' := by
    by_cases hij : j = i
    · exact (hnew g' (hij ▸ hg')).2.2.1
    · rw [hsame j hij] at hg'
      exact h.packed j g' hg'
  apart j k g₁ g₂ hg₁ hg₂ heq := by
    by_cases hj : j = i <;> by_cases hk : k = i
    · rw [hj, hk]
    · rw [hsame k hk] at hg₂
      exact absurd heq.symm ((hnew g₁ (hj ▸ hg₁)).2.2.2 k hk g₂ hg₂)
    · rw [hsame j hj] at hg₁
      exact absurd heq ((hnew g₂ (hk ▸ hg₂)).2.2.2 j hj g₁ hg₁)
    · rw [hsame j hj] at hg₁
      rw [hsame k hk] at hg₂
      exact h.apart j k g₁ g₂ hg₁ hg₂ heq

theorem dropSlot_some (h : Mirrors env ds d) (hg : ds.g i = some g)
    (hbefore : Quiet (· = g.exec) d d') :
    Evolves env ds d [] (dropSlot env i ds d').1 (dropSlot env i ds d').2 := by
  have hquiet := hbefore.trans (.dgraphDrop env g d') fun _ _ h => h
  have hsame : ∀ j ≠ i, Function.update ds.g i none j = ds.g j :=
    fun j hij => Function.update_of_ne hij _ _
  have hclear : Function.update ds.g i none i = none := Function.update_self ..
  simp only [dropSlot, hg]
  refine ⟨rfl, rfl, by rw [hquiet.trace]; simp, hquiet.handles, fun n hn hno => ?_,
    fun n _ => ?_, h.change hquiet hsame
      (fun j hij g' hg' heq => hij (h.apart j i g' g hg' hg heq)) fun g' hg' => ?_⟩
  · exact hquiet.execs n hn fun heq => hno ⟨i, g, hg, heq.symm⟩
  · rintro ⟨j, g', hg', heq⟩
    by_cases hij : j = i
    · rw [hij] at hg'
      cases hclear.symm.trans hg'
    · exact ⟨j, g', (hsame j hij).symm.trans hg', heq⟩
  · cases hclear.symm.trans hg'

theorem dropSlot_spec (env : Env) (i : Fin deferGraphs) (h : Mirrors env ds d) :
    Evolves env ds d [] (dropSlot env i ds d).1 (dropSlot env i ds d).2 := by
  cases hg : ds.g i with
  | some g => exact dropSlot_some h hg (.refl d)
  | none =>
    simp only [dropSlot, hg]
    exact .refl h

theorem dropSlot_empty (env : Env) (i : Fin deferGraphs) (ds : Dstream) (d : Driver) :
    (dropSlot env i ds d).1.g i = none := by
  unfold dropSlot
  split
  · exact Function.update_self ..
  · next h => exact h

theorem dgraphBuild_spec (h : Mirrors env ds d) (hq : ∀ l ∈ ds.q, l.Packed env)
    (hbuild : dgraphBuild env ds sig d = (r, ds', d')) :
    Evolves env ds d [] ds' d' ∧ ∀ i g, r = some (i, g) → ds'.g i = some g ∧ g.last = ds.q := by
  have hdrop := dropSlot_spec env (pickSlot ds.g) h
  have hempty := dropSlot_empty env (pickSlot ds.g) ds d
  rcases hdropped : dropSlot env (pickSlot ds.g) ds d with ⟨ds₁, d₁⟩
  simp only [dgraphBuild, hdropped] at hbuild hdrop hempty
  have hothers : ∀ j ≠ pickSlot ds.g, ∀ g', ds₁.g j = some g' → ¬ False := fun _ _ _ _ => not_false
  split at hbuild
  · next d₂ hrec =>
    cases hbuild
    have hquiet := (recordQueue_spec hrec).1
    have hkeep : Evolves env ds' d₁ [] ds' d' :=
      ⟨rfl, rfl, by rw [hquiet.trace]; simp, hquiet.handles,
        fun n hn _ => hquiet.execs n hn not_false, fun _ _ h => h,
        hdrop.mirrors.change hquiet (fun _ _ => rfl) hothers
          fun g hg => by rw [hempty] at hg; cases hg⟩
    exact ⟨hdrop.trans hkeep, nofun⟩
  · next graph exec d₂ hrec =>
    obtain ⟨hquiet, hexec⟩ := recordQueue_spec hrec
    obtain ⟨hnew, hlt, hholds⟩ := hexec graph exec rfl
    cases hbuild
    have hsame : ∀ (x : Option Dgraph), ∀ j ≠ pickSlot ds.g,
        Function.update ds₁.g (pickSlot ds.g) x j = ds₁.g j :=
      fun x j hij => Function.update_of_ne hij _ _
    have hput : ∀ x : Option Dgraph,
        Function.update ds₁.g (pickSlot ds.g) x (pickSlot ds.g) = x :=
      fun x => Function.update_self ..
    refine ⟨hdrop.trans ⟨rfl, rfl, by rw [hquiet.trace]; simp, hquiet.handles,
      fun n hn _ => hquiet.execs n hn not_false, fun n hn => ?_,
      hdrop.mirrors.change hquiet (hsame _) hothers fun g hg => ?_⟩, fun i g heq => ?_⟩
    · rintro ⟨j, g', hg', heq⟩
      by_cases hij : j = pickSlot ds.g
      · rw [hij] at hg'
        cases (hput _).symm.trans hg'
        exact absurd (heq ▸ hnew) (Nat.not_le.mpr hn)
      · exact ⟨j, g', (hsame _ j hij).symm.trans hg', heq⟩
    · cases (hput _).symm.trans hg
      refine ⟨hholds, hlt, fun l hl => hq l (hdrop.q ▸ hl), fun j _ g' hg' heq => ?_⟩
      have hold := hdrop.mirrors.old j g' hg'
      rw [heq] at hold
      exact absurd hold (Nat.not_lt.mpr hnew)
    · cases heq
      exact ⟨hput _, hdrop.q⟩

/-! ## Replaying -/

theorem node_eq_of_dlSame (hsame : dlSame a l = true) (hfn : a.fn = l.fn) (ha : a.Packed env)
    (hl : l.Packed env) : a.node env = l.node env := by
  simp only [dlSame, decide_eq_true_eq] at hsame
  obtain ⟨hgrid, hblock, hshared, -, hblob⟩ := hsame
  have hoff : a.off = l.off := by rw [ha, hl, hfn]
  simp only [Dl.node, hgrid, hblock, hshared, hblob, hoff, hfn]

theorem forall₂_of_sameKernels (h : sameKernels last q = true) :
    List.Forall₂ (fun a l => a.fn = l.fn) last q := by
  simp only [sameKernels, decide_eq_true_eq, List.all_eq_true, Prod.forall] at h
  exact List.forall₂_iff_zip.mpr ⟨h.1, fun {a b} hab => (h.2 a b hab).1⟩

def Driver.withExec (d : Driver) (exec : Nat) (ps : List Params) : Driver :=
  { d.ticked with execs := Function.update d.execs exec ps }

theorem cuGraphExecKernelNodeSetParams_cases (env : Env) (exec node : Nat) (p : Params)
    (d : Driver) :
    d.cuGraphExecKernelNodeSetParams env exec node p =
        (true, d.withExec exec ((d.execs exec).set node p)) ∨
      d.cuGraphExecKernelNodeSetParams env exec node p = (false, d.ticked) := by
  unfold Driver.cuGraphExecKernelNodeSetParams Driver.call
  cases env.answers d.calls
  · exact .inr rfl
  · exact .inl rfl

/-- Once patched, the executable graph holds the queue, and its mirror says so. -/
theorem patchNodes_spec (hfn : List.Forall₂ (fun a l => a.fn = l.fn) last q)
    (hlast : ∀ a ∈ last, a.Packed env) (hq : ∀ l ∈ q, l.Packed env)
    (hexec : d.execs exec = pre ++ last.map (Dl.node env))
    (hpatch : patchNodes env exec pre.length last q d = (r, d')) :
    Quiet (· = exec) d d' ∧ ∀ last', r = some last' →
      d'.execs exec = pre ++ q.map (Dl.node env) ∧
      last'.map (Dl.node env) = q.map (Dl.node env) ∧ ∀ a ∈ last', a.Packed env := by
  induction hfn generalizing pre d r with
  | nil =>
    cases hpatch
    exact ⟨.refl _, fun last' heq => by cases heq; exact ⟨hexec, rfl, nofun⟩⟩
  | @cons a l last q hal _ ih =>
    obtain ⟨ha, hlast⟩ := List.forall_mem_cons.mp hlast
    obtain ⟨hl, hq⟩ := List.forall_mem_cons.mp hq
    unfold patchNodes at hpatch
    -- The node holds the launch already, or is patched; the rest goes on from there.
    have hrest : ∀ (d₁ : Driver) (b : Dl), Quiet (· = exec) d d₁ → b.Packed env →
        b.node env = l.node env →
        d₁.execs exec = (pre ++ [l.node env]) ++ last.map (Dl.node env) →
        ((patchNodes env exec (pre.length + 1) last q d₁).1.map (b :: ·),
          (patchNodes env exec (pre.length + 1) last q d₁).2) = (r, d') →
        Quiet (· = exec) d d' ∧ ∀ last', r = some last' →
          d'.execs exec = pre ++ (l :: q).map (Dl.node env) ∧
          last'.map (Dl.node env) = (l :: q).map (Dl.node env) ∧ ∀ a ∈ last', a.Packed env := by
      intro d₁ b hquiet hb hnode hexec₁ heq
      rcases hrec : patchNodes env exec (pre.length + 1) last q d₁ with ⟨r₁, d₂⟩
      rw [hrec] at heq
      cases heq
      obtain ⟨hquiet₁, hdone⟩ := ih hlast hq hexec₁ (by rw [List.length_append]; exact hrec)
      refine ⟨hquiet.trans hquiet₁ fun _ _ h => h, fun last' hlast' => ?_⟩
      obtain ⟨last₁, hlast₁, rfl⟩ := Option.map_eq_some_iff.mp hlast'
      obtain ⟨hexec₂, hmap, hpacked⟩ := hdone last₁ hlast₁
      refine ⟨by rw [hexec₂, List.append_assoc]; rfl, ?_, List.forall_mem_cons.mpr ⟨hb, hpacked⟩⟩
      rw [List.map_cons, List.map_cons, hnode, hmap]
    split at hpatch
    · next hsame =>
      have hnode := node_eq_of_dlSame hsame hal ha hl
      refine hrest d a (.refl d) ha hnode ?_ hpatch
      rw [hexec, List.map_cons, hnode, List.append_assoc]
      rfl
    · rcases cuGraphExecKernelNodeSetParams_cases env exec pre.length (l.node env) d with
        hcall | hcall
      all_goals rw [hcall] at hpatch
      · have hset : (d.execs exec).set pre.length (l.node env) =
            (pre ++ [l.node env]) ++ last.map (Dl.node env) := by
          rw [hexec, List.set_append_right _ _ (Nat.le_refl _), Nat.sub_self, List.append_assoc]
          rfl
        rw [hset] at hpatch
        exact hrest (d.withExec exec _) l
          ⟨rfl, Nat.le_refl _, fun n _ hne => Function.update_of_ne hne _ _⟩ hl rfl
          (Function.update_self ..) hpatch
      · cases hpatch
        exact ⟨.ticked d, nofun⟩

/-- Putting the same recording back with another mirror or another time of use. -/
theorem Evolves.reput (g' : Dgraph) (ds' : Dstream) (h : Mirrors env ds d) (hg : ds.g i = some g)
    (hquiet : Quiet (· = g.exec) d d') (hexec : g'.exec = g.exec)
    (hholds : d'.execs g.exec = g'.last.map (Dl.node env)) (hpacked : ∀ l ∈ g'.last, l.Packed env)
    (hstream : ds'.stream = ds.stream) (hq : ds'.q = ds.q)
    (hslots : ds'.g = Function.update ds.g i (some g')) : Evolves env ds d [] ds' d' := by
  have hsame : ∀ j ≠ i, ds'.g j = ds.g j :=
    fun j hij => by rw [hslots, Function.update_of_ne hij]
  have hput : ds'.g i = some g' := by rw [hslots, Function.update_self]
  refine ⟨hstream, hq, by rw [hquiet.trace]; simp, hquiet.handles,
    fun n hn hno => hquiet.execs n hn fun heq => hno ⟨i, g, hg, heq.symm⟩, fun n _ => ?_,
    h.change hquiet hsame (fun j hij g₁ hg₁ heq => hij (h.apart j i g₁ g hg₁ hg heq))
      fun g₁ hg₁ => ?_⟩
  · rintro ⟨j, g₁, hg₁, heq⟩
    by_cases hij : j = i
    · rw [hij, hput] at hg₁
      cases hg₁
      exact ⟨i, g, hg, hexec.symm.trans heq⟩
    · exact ⟨j, g₁, (hsame j hij).symm.trans hg₁, heq⟩
  · cases hput.symm.trans hg₁
    rw [hexec]
    exact ⟨hholds, Nat.lt_of_lt_of_le (h.old i g hg) hquiet.handles, hpacked,
      fun j hij g₂ hg₂ heq => hij (h.apart j i g₂ g hg₂ hg heq)⟩

theorem cuGraphLaunch_cases (env : Env) (exec : Nat) (s : Stream) (d : Driver) :
    d.cuGraphLaunch env exec s =
        (true, { d.ticked with trace := d.trace ++ (d.execs exec).map (.received s) }) ∨
      d.cuGraphLaunch env exec s = (false, d.ticked) := by
  unfold Driver.cuGraphLaunch Driver.call
  cases env.answers d.calls
  · exact .inr rfl
  · exact .inl rfl

theorem launchGraph_spec (h : Mirrors env ds d) (hg : ds.g i = some g)
    (hlaunch : launchGraph env i g ds d = (done, ds', d')) :
    Evolves env ds d (if done then g.last.map (Dl.node env) else []) ds' d' := by
  unfold launchGraph at hlaunch
  rcases cuGraphLaunch_cases env g.exec ds.stream d with hcall | hcall
  all_goals rw [hcall] at hlaunch
  · cases hlaunch
    have hput := Evolves.reput { g with use := ds.tick + 1 }
      { ds with tick := ds.tick + 1,
                g := Function.update ds.g i (some { g with use := ds.tick + 1 }) }
      h hg (.ticked d) rfl (h.holds i g hg) (h.packed i g hg) rfl rfl rfl
    refine ⟨rfl, rfl, ?_, hput.handles, hput.execs, hput.owned, ?_⟩
    · rw [h.holds i g hg]
      rfl
    · exact ⟨hput.mirrors.holds, hput.mirrors.old, hput.mirrors.packed, hput.mirrors.apart⟩
  · obtain ⟨rfl, hdrop⟩ := Prod.mk.inj hlaunch
    have hdropped := dropSlot_some h hg (.ticked d)
    rw [hdrop] at hdropped
    exact hdropped

theorem findGraph_some (h : findGraph ds sig = some (i, g)) :
    ds.g i = some g ∧ sameKernels g.last ds.q = true := by
  obtain ⟨j, -, hj⟩ := List.exists_of_findSome?_eq_some h
  obtain ⟨g', hg', hj⟩ := Option.bind_eq_some_iff.mp hj
  split at hj
  · next hsame =>
    cases hj
    exact ⟨hg', hsame.2⟩
  · cases hj

theorem replay_spec (h : Mirrors env ds d) (hq : ∀ l ∈ ds.q, l.Packed env)
    (hreplay : replay env ds d = (done, ds', d')) :
    Evolves env ds d (if done then ds.q.map (Dl.node env) else []) ds' d' := by
  unfold replay at hreplay
  simp only at hreplay
  split at hreplay
  · next i g hfind =>
    obtain ⟨hg, hsame⟩ := findGraph_some hfind
    have hpatchSpec {r d₁} (hpatch : patchNodes env g.exec 0 g.last ds.q d = (r, d₁)) :
        Quiet (· = g.exec) d d₁ ∧ ∀ last', r = some last' →
          d₁.execs g.exec = [] ++ ds.q.map (Dl.node env) ∧
          last'.map (Dl.node env) = ds.q.map (Dl.node env) ∧ ∀ a ∈ last', a.Packed env :=
      patchNodes_spec (forall₂_of_sameKernels hsame) (h.packed i g hg) hq (h.holds i g hg) hpatch
    split at hreplay
    · next last d₁ hpatch =>
      obtain ⟨hquiet, hdone⟩ := hpatchSpec hpatch
      obtain ⟨hexec, hmap, hpacked⟩ := hdone last rfl
      rw [List.nil_append, ← hmap] at hexec
      have hput := Evolves.reput { g with last }
        { ds with g := Function.update ds.g i (some { g with last }) }
        h hg hquiet rfl hexec hpacked rfl rfl rfl
      have hsent := launchGraph_spec hput.mirrors (Function.update_self ..) hreplay
      rw [hmap] at hsent
      exact hput.trans hsent
    · next d₁ hpatch =>
      obtain ⟨rfl, hdrop⟩ := Prod.mk.inj hreplay
      have hdropped := dropSlot_some h hg (hpatchSpec hpatch).1
      rw [hdrop] at hdropped
      exact hdropped
  · split at hreplay
    · split at hreplay
      · next i g ds₁ d₁ hbuild =>
        obtain ⟨hbuilt, hslot⟩ := dgraphBuild_spec h hq hbuild
        obtain ⟨hg, hlast⟩ := hslot i g rfl
        have hsent := launchGraph_spec hbuilt.mirrors hg hreplay
        rw [hlast] at hsent
        exact hbuilt.trans hsent
      · next ds₁ d₁ hbuild =>
        cases hreplay
        exact (dgraphBuild_spec h hq hbuild).1
    · cases hreplay
      exact ⟨rfl, rfl, by simp, Nat.le_refl _, fun _ _ _ => rfl, fun _ _ h => h,
        ⟨h.holds, h.old, h.packed, h.apart⟩⟩

theorem submitOneByOne_spec (env : Env) (s : Stream) (q : List Dl) (d : Driver) :
    (submitOneByOne env s q d).trace = d.trace ++ (q.map (Dl.node env)).map (.received s) ∧
      (submitOneByOne env s q d).handles = d.handles ∧
      (submitOneByOne env s q d).execs = d.execs := by
  induction q generalizing d with
  | nil => simp [submitOneByOne]
  | cons l q ih =>
    obtain ⟨htrace, hhandles, hexecs⟩ := ih (d.cuLaunchKernel s (l.node env))
    refine ⟨?_, hhandles, hexecs⟩
    change (submitOneByOne env s q (d.cuLaunchKernel s (l.node env))).trace = _
    rw [htrace, Driver.cuLaunchKernel]
    simp

theorem deferFlushLocked_spec (h : Mirrors env ds d) (hq : ∀ l ∈ ds.q, l.Packed env) :
    ∃ ds₁ d₁, deferFlushLocked env ds d = ({ ds₁ with q := [] }, d₁) ∧
      Evolves env ds d (ds.q.map (Dl.node env)) ds₁ d₁ := by
  have hdirect : ∀ {ds₁ d₁}, Evolves env ds d [] ds₁ d₁ →
      Evolves env ds d (ds.q.map (Dl.node env)) ds₁
        (submitOneByOne env ds₁.stream ds₁.q d₁) := by
    intro ds₁ d₁ hev
    obtain ⟨htrace, hhandles, hexecs⟩ := submitOneByOne_spec env ds₁.stream ds₁.q d₁
    have hsent : Evolves env ds₁ d₁ (ds₁.q.map (Dl.node env)) ds₁
        (submitOneByOne env ds₁.stream ds₁.q d₁) :=
      ⟨rfl, rfl, htrace, Nat.le_of_eq hhandles.symm, fun n _ _ => congrFun hexecs n,
        fun _ _ h => h, fun i g hg => by rw [hexecs, hev.mirrors.holds i g hg],
        fun i g hg => by rw [hhandles]; exact hev.mirrors.old i g hg, hev.mirrors.packed,
        hev.mirrors.apart⟩
    have hboth := hev.trans hsent
    rw [List.nil_append] at hboth
    rw [hev.q] at hboth ⊢
    exact hboth
  rcases hchoice : (if ds.q.length ≥ deferMinReplay ∧ env.graphsBound then replay env ds d
    else (false, ds, d)) with ⟨done, ds₁, d₁⟩
  have hev : Evolves env ds d (if done then ds.q.map (Dl.node env) else []) ds₁ d₁ := by
    split at hchoice
    · exact replay_spec h hq hchoice
    · cases hchoice
      exact .refl h
  rw [deferFlushLocked, hchoice]
  cases done with
  | true => exact ⟨ds₁, d₁, rfl, hev⟩
  | false => exact ⟨ds₁, _, rfl, hdirect hev⟩

end Cajeta.Xpu
