import Cajeta.Xpu.DeferQueue

/-!
# Deferral changes nothing but when a launch is submitted

Every operation keeps the runtime a buffer, so in every run the driver receives on each stream what
was called on it, in order, and all of it before it observes. The exception is a launch that takes
the OptiX route, which passes the queues by.
-/

namespace Cajeta.Xpu
open Delivery

variable {env : Env} {st st' : State}

/-! ## Streams coming and going -/

theorem setSlot_kept (h : Inv env st) (hi : st.slots i = some ds) (hstream : ds'.stream = ds.stream)
    (hq : ds'.q = ds.q) (hg : ds'.g = ds.g) : Kept env st (st.setSlot i ds') := by
  have htakes : st.Takes i ds' := .of_slot h.unique hi hstream
  have hqueue : Function.update st.queueOf ds'.stream ds'.q = st.queueOf := by
    rw [hstream, hq, ← State.queueOf_slot h.unique hi, Function.update_eq_self]
  have hm := h.mirrors i ds hi
  refine ⟨h.change htakes rfl ?_ ?_ ?_ ?_ fun j hij dj hj => ⟨h.mirrors j dj hj, ?_⟩,
    fun _ => rfl, fun s hs => ?_⟩
  · rw [hqueue]
    exact h.holds
  · rw [hi, hq]
    rfl
  · rw [hq]
    exact h.packed i ds hi
  · exact ⟨fun k g hk => hm.holds k g (hg ▸ hk), fun k g hk => hm.old k g (hg ▸ hk),
      fun k g hk => hm.packed k g (hg ▸ hk),
      fun k k' g g' hk hk' => hm.apart k k' g g' (hg ▸ hk) (hg ▸ hk')⟩
  · rintro n hjn ⟨k, g, hk, rfl⟩
    exact hij (h.apart j i dj ds _ hj hi hjn ⟨k, g, hg ▸ hk, rfl⟩)
  · rw [htakes.queueOf h.unique rfl, hqueue, hs]

theorem dstreamCreate_spec (h : Inv env st) (hcreate : st.dstreamCreate s = (r, st')) :
    Kept env st st' ∧ ∀ i ds, r = some (i, ds) → st'.slots i = some ds ∧ ds.stream = s := by
  unfold State.dstreamCreate at hcreate
  split at hcreate
  · next r' hfind =>
    cases hcreate
    refine ⟨.refl h, fun i ds heq => ?_⟩
    cases heq
    exact State.dstreamFind_some hfind
  · next hfind =>
    split at hcreate
    · next i hfree =>
      cases hcreate
      have hnone : st.slots i = none := by
        have := List.find?_some hfree
        exact Option.isNone_iff_eq_none.mp this
      have hsame : ∀ j dj, st.slots j = some dj → dj.stream ≠ s :=
        fun j dj hj => State.dstreamFind_none hfind hj
      have htakes : st.Takes i { stream := s } :=
        ⟨fun ds hi => hsame i ds hi |>.elim (by rw [hnone] at hi; nomatch hi),
          fun j _ dj hj => hsame j dj hj⟩
      have hqueue : Function.update st.queueOf s [] = st.queueOf := by
        rw [← State.queueOf_nil hsame, Function.update_eq_self]
      refine ⟨⟨h.change htakes rfl ?_ ?_ nofun ⟨nofun, nofun, nofun, nofun⟩
        fun j _ dj hj => ⟨h.mirrors j dj hj, ?_⟩, fun _ => rfl, fun s' hs' => ?_⟩, ?_⟩
      · rw [hqueue]
        exact h.holds
      · rw [hnone]
        rfl
      · rintro n - ⟨k, g, hk, -⟩
        cases hk
      · rw [htakes.queueOf h.unique rfl, hqueue, hs']
      · intro j ds heq
        cases heq
        exact ⟨Function.update_self .., rfl⟩
    · cases hcreate
      exact ⟨.refl h, nofun⟩

theorem streamSetDeferred_kept (env : Env) (s : Stream) (on : Bool) (h : Inv env st) :
    Kept env st (st.streamSetDeferred env s on) := by
  -- With deferral turned off the queue goes out before the flag is written.
  have hwrite : ∀ {st₁ : State} {i ds}, Inv env st₁ → st₁.slots i = some ds →
      Kept env st₁ (st₁.setSlot i { ds with enabled := on }) :=
    fun h hi => setSlot_kept h hi rfl rfl rfl
  unfold State.streamSetDeferred
  cases on with
  | true =>
    simp only [if_true]
    rcases hcreate : st.dstreamCreate s with ⟨r, st₁⟩
    obtain ⟨hkept, hfound⟩ := dstreamCreate_spec h hcreate
    cases r with
    | none => exact hkept
    | some r =>
      have hi := (hfound r.1 r.2 rfl).1
      simp only [hi, Option.getD_some]
      exact hkept.trans (hwrite hkept.inv hi)
  | false =>
    simp only [Bool.false_eq_true, if_false]
    cases hfind : st.dstreamFind s with
    | none => exact .refl h
    | some r =>
      have hi := (State.dstreamFind_some hfind).1
      obtain ⟨hflush, -, ds', hslots, -, -⟩ := flushSlot_spec h hi
      have hi' : (State.flushSlot env r.1 r.2 st).slots r.1 = some ds' := by
        rw [hslots, Function.update_self]
      simp only [hi', Option.getD_some]
      exact hflush.trans (hwrite hflush.inv hi')

theorem dropSlots_spec (is : List (Fin deferGraphs)) (h : Mirrors env ds d) :
    Evolves env ds d [] (dropSlots env is ds d).1 (dropSlots env is ds d).2 := by
  induction is generalizing ds d with
  | nil => exact .refl h
  | cons i is ih =>
    have hone := dropSlot_spec env i h
    exact hone.trans (ih hone.mirrors)

theorem remove_kept (h : Inv env st) (hempty : ∀ s, st.queueOf s = [])
    (hi : st.slots i = some ds) (hev : Evolves env ds st.drv [] ds' d')
    (hst : st' = { st with slots := Function.update st.slots i none, drv := d' }) :
    Kept env st st' := by
  have hq : ds.q = [] := (State.queueOf_slot h.unique hi).symm.trans (hempty ds.stream)
  have hdrv : st'.drv = d' := by rw [hst]
  have htrace : d'.trace = st.drv.trace := by rw [hev.trace]; simp
  have hslot : ∀ j dj, st'.slots j = some dj → j ≠ i ∧ st.slots j = some dj := by
    intro j dj hj
    rw [hst] at hj
    by_cases hij : j = i
    · simp [hij] at hj
    · exact ⟨hij, by simpa [Function.update_of_ne hij] using hj⟩
  have hunique : st'.Unique :=
    fun j k dj dk hj hk => h.unique j k dj dk (hslot j dj hj).2 (hslot k dk hk).2
  have hqueue : ∀ s, st'.queueOf s = [] := by
    intro s
    cases hfind : st'.dstreamFind s with
    | none => exact State.queueOf_nil fun _ _ hj => State.dstreamFind_none hfind hj
    | some r =>
      obtain ⟨hj, rfl⟩ := State.dstreamFind_some hfind
      rw [State.queueOf_slot hunique hj, ← State.queueOf_slot h.unique (hslot _ _ hj).2, hempty]
  refine ⟨⟨hunique, ?_, ?_, fun j dj hj => h.packed j dj (hslot j dj hj).2,
    fun j dj hj => ?_, fun j k dj dk n hj hk => h.apart j k dj dk n (hslot j dj hj).2
      (hslot k dk hk).2⟩, fun s => by rw [hdrv, htrace], fun s _ => hqueue s⟩
  · have hholds := h.holds
    simp only [hempty] at hholds
    simp only [hqueue]
    rw [hdrv, htrace]
    exact hholds
  · rw [hst]
    change st.pending = _
    rw [h.pending]
    refine Finset.sum_congr rfl fun j _ => ?_
    by_cases hij : j = i
    · simp [hij, hi, hq]
    · simp [Function.update_of_ne hij]
  · obtain ⟨hij, hj⟩ := hslot j dj hj
    have hm := h.mirrors j dj hj
    rw [hdrv]
    exact ⟨fun k g hg => by
        rw [hev.execs _ (hm.old k g hg) fun hn => hij (h.apart j i dj ds _ hj hi ⟨k, g, hg,
          rfl⟩ hn),
          hm.holds k g hg],
      fun k g hg => Nat.lt_of_lt_of_le (hm.old k g hg) hev.handles, hm.packed, hm.apart⟩

theorem deferStreamGone_kept (env : Env) (s : Stream) (h : Inv env st)
    (hempty : ∀ s, st.queueOf s = []) : Kept env st (st.deferStreamGone env s) := by
  unfold State.deferStreamGone
  cases hfind : st.dstreamFind s with
  | none => exact .refl h
  | some r =>
    have hi := (State.dstreamFind_some hfind).1
    exact remove_kept h hempty hi (dropSlots_spec _ (h.mirrors _ _ hi)) rfl

theorem streamDestroy_kept (env : Env) (s : Stream) (h : Inv env st) :
    Kept env st (st.streamDestroy env s) := by
  obtain ⟨hsubmit, hempty⟩ := deferSubmit_spec env h
  have hgone := deferStreamGone_kept env s hsubmit.inv hempty
  have hcall := call_kept hgone.inv
  exact ((hsubmit.trans hgone).trans hcall).trans
    (note_observed hcall.inv (fun s => hcall.empty s (hgone.empty s (hempty s))) _)

theorem streamFlush_kept (env : Env) (s : Stream) (h : Inv env st) :
    Kept env st (st.streamFlush env s) := by
  unfold State.streamFlush
  split
  · exact .refl h
  · exact (deferFlushStream_spec env s h).1

/-! ## Launching -/

def onStream (s : Stream) (ls : List (Stream × Params)) : List Params :=
  ls.filterMap fun (s', p) => if s' = s then some p else none

theorem onStream_append (s : Stream) (ls ls' : List (Stream × Params)) :
    onStream s (ls ++ ls') = onStream s ls ++ onStream s ls' := List.filterMap_append

/-- A step in which the launches `ls` are called. -/
structure Runs (env : Env) (st st' : State) (ls : List (Stream × Params)) : Prop where
  inv : Inv env st'
  called : ∀ s, calledOn s st'.drv.trace = calledOn s st.drv.trace ++ onStream s ls

theorem Kept.runs (h : Kept env st st') : Runs env st st' [] :=
  ⟨h.inv, fun s => (h.called s).trans (List.append_nil _).symm⟩

theorem Runs.trans (h : Runs env st st' ls) (h' : Runs env st' st'' ls') :
    Runs env st st'' (ls ++ ls') where
  inv := h'.inv
  called s := by rw [h'.called, h.called, onStream_append, List.append_assoc]

theorem Runs.kept (h : Runs env st st' ls) (h' : Kept env st' st'') : Runs env st st'' ls := by
  have hboth := h.trans h'.runs
  rwa [List.append_nil] at hboth

theorem Kept.then (h : Kept env st st') (h' : Runs env st' st'' ls) : Runs env st st'' ls :=
  h.runs.trans h'

theorem calledOn_called_eq (s s' : Stream) (p : Params) (t : List Event) :
    calledOn s (t ++ [.called s' p]) = calledOn s t ++ onStream s [(s', p)] := by
  rw [calledOn_append, calledOn_called]
  by_cases h : s' = s <;> simp [onStream, h]

theorem makeRoom_spec (h : Inv env st) (hi : st.slots i = some ds)
    (hroom : st.makeRoom env i ds = (r, st')) :
    Kept env st st' ∧ ∀ ds', r = some ds' → ∃ ds₀, st'.slots i = some ds₀ ∧
      ds'.stream = ds.stream ∧ ds₀.stream = ds.stream ∧ ds'.q = ds₀.q ∧ ds'.g = ds₀.g := by
  unfold State.makeRoom at hroom
  split at hroom
  · split at hroom
    · cases hroom
      obtain ⟨hkept, -, ds₁, hslots, hstream, -⟩ := flushSlot_spec h hi
      have hi' : (State.flushSlot env i ds st).slots i = some ds₁ := by
        rw [hslots, Function.update_self]
      refine ⟨hkept, fun ds' heq => ?_⟩
      cases hi'.symm.trans heq
      exact ⟨_, hi', hstream, hstream, rfl, rfl⟩
    · cases hroom
      refine ⟨call_kept h, fun ds' heq => ⟨ds, hi, ?_⟩⟩
      split at heq
      · cases heq
        exact ⟨rfl, rfl, rfl, rfl⟩
      · cases heq
  · cases hroom
    refine ⟨.refl h, fun ds' heq => ⟨ds, hi, ?_⟩⟩
    cases heq
    exact ⟨rfl, rfl, rfl, rfl⟩

theorem push_spec {ds ds₀ : Dstream} {l : Dl} (h : Inv env st) (hi : st.slots i = some ds₀)
    (hstream : ds.stream = ds₀.stream)
    (hq : ds.q = ds₀.q) (hg : ds.g = ds₀.g) (hl : l.Packed env)
    (hst : st' = { st.setSlot i { ds with q := ds.q ++ [l] } with pending := st.pending + 1 }.note
      (.called ds.stream (l.node env))) :
    Runs env st st' [(ds.stream, l.node env)] := by
  have htakes : st.Takes i { ds with q := ds.q ++ [l] } := .of_slot h.unique hi hstream
  have hqueue := State.queueOf_slot h.unique hi
  have hm := h.mirrors i ds₀ hi
  subst hst
  refine ⟨h.change htakes rfl ?_ ?_ ?_ ?_ fun j hij dj hj => ⟨?_, ?_⟩, fun s => ?_⟩
  · have hcalled := h.holds.called ds.stream (l.node env)
    have hmap : (fun s => (Function.update st.queueOf ds.stream (ds.q ++
      [l]) s).map (Dl.node env)) =
        Function.update (fun s => (st.queueOf s).map (Dl.node env)) ds.stream
          ((st.queueOf ds.stream).map (Dl.node env) ++ [l.node env]) := by
      funext s
      by_cases hs : s = ds.stream
      · rw [hs, Function.update_self, Function.update_self, hstream, hqueue, hq, List.map_append]
        rfl
      · rw [Function.update_of_ne hs, Function.update_of_ne hs]
    exact hmap ▸ hcalled
  · rw [hi]
    simp only [State.note, State.setSlot, Option.elim_some, List.length_append, List.length_cons,
      List.length_nil, hq]
    omega
  · intro a ha
    rcases List.mem_append.mp ha with ha | ha
    · exact h.packed i ds₀ hi a (hq ▸ ha)
    · rw [List.mem_singleton.mp ha]
      exact hl
  · exact ⟨fun k g hk => hm.holds k g (hg ▸ hk), fun k g hk => hm.old k g (hg ▸ hk),
      fun k g hk => hm.packed k g (hg ▸ hk),
      fun k k' g g' hk hk' => hm.apart k k' g g' (hg ▸ hk) (hg ▸ hk')⟩
  · have hmj := h.mirrors j dj hj
    exact ⟨hmj.holds, hmj.old, hmj.packed, hmj.apart⟩
  · rintro n hjn ⟨k, g, hk, rfl⟩
    exact hij (h.apart j i dj ds₀ _ hj hi hjn ⟨k, g, hg ▸ hk, rfl⟩)
  · exact calledOn_called_eq s ds.stream (l.node env) st.drv.trace

theorem deferEnqueue_spec {l : Dl} (h : Inv env st) (hl : l.Packed env)
    (hqueue : st.deferEnqueue env s l (l.node env) = (ok, st')) :
    if ok then Runs env st st' [(s, l.node env)] else Kept env st st' := by
  unfold State.deferEnqueue at hqueue
  rcases hcreate : st.dstreamCreate s with ⟨r, st₁⟩
  obtain ⟨hkept₁, hfound⟩ := dstreamCreate_spec h hcreate
  rw [hcreate] at hqueue
  cases r with
  | none =>
    cases hqueue
    exact hkept₁
  | some r =>
    obtain ⟨i, ds⟩ := r
    obtain ⟨hi, rfl⟩ := hfound i ds rfl
    rcases hroom : st₁.makeRoom env i ds with ⟨r, st₂⟩
    obtain ⟨hkept₂, hslot⟩ := makeRoom_spec hkept₁.inv hi hroom
    simp only [hroom] at hqueue
    cases r with
    | none =>
      cases hqueue
      exact hkept₁.trans hkept₂
    | some ds' =>
      obtain ⟨ds₀, hi₀, hstream, hstream₀, hq, hg⟩ := hslot ds' rfl
      obtain ⟨rfl, hst⟩ := Prod.mk.inj hqueue
      rw [← hstream] at hst ⊢
      exact (hkept₁.trans hkept₂).then
        (push_spec hkept₂.inv hi₀ (hstream.trans hstream₀.symm) hq hg hl hst.symm)

theorem cuLaunchKernel_spec (h : Inv env st) (hempty : st.queueOf s = []) (p : Params) :
    Runs env st { st.note (.called s p) with
      drv := (st.note (.called s p)).drv.cuLaunchKernel s p } [(s, p)] := by
  have hdirect := h.holds.direct s (by rw [hempty]; rfl) p
  have htrace : st.drv.trace ++ [.called s p, .received s p] =
      (st.drv.trace ++ [.called s p]) ++ [.received s p] := by simp
  rw [htrace] at hdirect
  refine ⟨h.driver rfl rfl rfl rfl hdirect, fun s' => ?_⟩
  have hcalled := calledOn_called_eq s' s p st.drv.trace
  have hreceived := @calledOn_received _ _ Entry _ s' s [p]
  change calledOn s' ((st.drv.trace ++ [.called s p]) ++ [p].map (.received s)) = _
  rw [calledOn_append, hcalled, hreceived, List.append_nil]

theorem readAlignFault_kept (h : Inv env st) : Kept env st (@State.readAlignFault env st) := by
  obtain ⟨hsync, -⟩ := observe_spec env .cuStreamSynchronize h
  rcases hobserve : st.observe env .cuStreamSynchronize with ⟨ok, st₁⟩
  simp only [State.readAlignFault, hobserve] at hsync ⊢
  cases ok with
  | true => exact hsync.trans (observe_spec env _ hsync.inv).1
  | false => exact hsync

/-- What a launch call adds to the launches called. -/
def Outcome.calls (o : Outcome) (c : Stream × Params) : List (Stream × Params) :=
  if o = .taken then [c] else []

theorem launchDirect_spec (l : Launch env) (k : Kernel env) (alignChecked : Bool) (h : Inv env st)
    (hempty : st.queueOf l.stream = []) :
    Runs env st (st.launchDirect l k alignChecked).2
      ((st.launchDirect l k alignChecked).1.calls (l.stream, l.params k)) := by
  unfold State.launchDirect
  obtain ⟨st₁, hst₁⟩ : ∃ st₁, st₁ =
    if Launch.needsTranslation k then st.observeAll env l.translation else st := ⟨_, rfl⟩
  have hkept₁ : Kept env st st₁ := by
    rw [hst₁]
    split
    · exact observeAll_kept env _ h
    · exact .refl h
  simp only [← hst₁]
  split
  · exact (hkept₁.trans (observeAll_kept env _ hkept₁.inv)).runs
  · have hkept₂ := hkept₁.trans (observeAll_kept env l.bracketBegin hkept₁.inv)
    have hruns := hkept₂.then
      (cuLaunchKernel_spec hkept₂.inv (hkept₂.empty _ hempty) (l.params k))
    replace hruns := hruns.kept (observeAll_kept env l.bracketEnd hruns.inv)
    generalize State.observeAll env l.bracketEnd _ = st₂ at hruns ⊢
    obtain ⟨st₃, hst₃⟩ : ∃ st₃, st₃ =
      if Launch.needsTranslation k && !l.release.isEmpty then
        st₂.observeAll env (.cuCtxSynchronize :: l.release) else st₂ := ⟨_, rfl⟩
    have hruns₃ : Runs env st st₃ [(l.stream, l.params k)] := by
      rw [hst₃]
      split
      · exact hruns.kept (observeAll_kept env _ hruns.inv)
      · exact hruns
    simp only [← hst₃]
    change Runs env st _ [(l.stream, l.params k)]
    split
    · exact hruns₃.kept (readAlignFault_kept hruns₃.inv)
    · exact hruns₃

theorem sharedOptIn_kept (k : Kernel env) (h : Inv env st) :
    Kept env st (st.sharedOptIn k).2 := by
  unfold State.sharedOptIn
  split
  · exact .refl h
  · split
    · exact call_kept h
    · exact .refl h

theorem lastSpecCount_kept (h : Inv env st) (counts : Fn → Option Nat) :
    Kept env st { st with lastSpecCount := counts } :=
  ⟨h.driver rfl rfl rfl rfl h.holds, fun _ => rfl, fun _ h => h⟩

theorem writeSpec_kept (l : Launch env) (k : Kernel env) (h : Inv env st) :
    Kept env st (st.writeSpec l k).2 := by
  unfold State.writeSpec
  simp only
  split
  · have hone := (observe_spec env .cuMemcpyHtoD h).1
    have hset := fun counts => hone.trans (lastSpecCount_kept hone.inv counts)
    split
    · exact (hset _).trans (observe_spec env _ (hset _).inv).1
    · exact hset _
  · exact .refl h

theorem zeroAlignFault_kept (k : Kernel env) (h : Inv env st) :
    Kept env st (st.zeroAlignFault k).2 := by
  unfold State.zeroAlignFault
  split
  · exact (observe_spec env _ h).1
  · exact .refl h

theorem tryQueue_spec (l : Launch env) (k : Kernel env) (h : Inv env st)
    (hqueue : st.tryQueue l k specWrote alignChecked = (ok, st')) :
    if ok then Runs env st st' [(l.stream, l.params k)] else Kept env st st' := by
  unfold State.tryQueue at hqueue
  split at hqueue
  · next argv hargv =>
    split at hqueue
    · next hcond =>
      simp only [Bool.and_eq_true, Bool.not_eq_true'] at hcond
      obtain ⟨hnode, hpacked⟩ := queued_spec k l hcond.1.1.1.1
        (by rw [Launch.needsTranslation, hcond.1.1.1.2, hcond.1.1.2]; rfl) hargv
      rw [← hnode] at hqueue ⊢
      exact deferEnqueue_spec h hpacked hqueue
    · cases hqueue
      exact .refl h
  · cases hqueue
    exact .refl h

theorem submit_spec (l : Launch env) (k : Kernel env) (specWrote alignChecked : Bool)
    (h : Inv env st) :
    Runs env st (st.submit l k specWrote alignChecked).2
      ((st.submit l k specWrote alignChecked).1.calls (l.stream, l.params k)) := by
  have hdirect : ∀ {st₁ : State}, Kept env st st₁ →
      Runs env st ((st₁.deferFlushStream env l.stream).launchDirect l k alignChecked).2
        (((st₁.deferFlushStream env l.stream).launchDirect l k alignChecked).1.calls
          (l.stream, l.params k)) := by
    intro st₁ hkept
    obtain ⟨hflush, hempty⟩ := deferFlushStream_spec env l.stream hkept.inv
    exact (hkept.trans hflush).then (launchDirect_spec l k alignChecked hflush.inv hempty)
  unfold State.submit
  split
  · rcases hqueue : st.tryQueue l k specWrote alignChecked with ⟨ok, st₁⟩
    have hspec := tryQueue_spec l k h hqueue
    cases ok with
    | true => exact hspec
    | false => exact hdirect hspec
  · split
    · exact hdirect (.refl h)
    · next hp =>
      exact launchDirect_spec l k alignChecked h (h.queueOf_of_pending (not_not.mp hp) _)

theorem launchOptix_spec (h : Inv env st) (hp : st.pending = 0) (p : Params) :
    Runs env st (st.launchOptix 0 p) [(0, p)] := by
  have hempty := h.queueOf_of_pending hp
  have hcopy := note_observed h hempty .cuMemcpyHtoD
  have hdirect := hcopy.inv.holds.direct 0 (by rw [hcopy.empty 0 (hempty 0)]; rfl) p
  have hlaunch : Runs env (st.note (.observed .cuMemcpyHtoD))
      (((st.note (.observed .cuMemcpyHtoD)).note (.called 0 p)).note (.received 0 p)) [(0, p)] := by
    refine ⟨hcopy.inv.driver rfl rfl rfl rfl ?_, fun s => ?_⟩
    · simpa [State.note, Driver.note] using hdirect
    · simp only [State.note, Driver.note]
      rw [calledOn_append, calledOn_called_eq]
      simpa using @calledOn_received _ _ Entry _ s 0 [p]
  have hempty' : ∀ s, (((st.note (.observed .cuMemcpyHtoD)).note (.called 0 p)).note
    (.received 0 p)).queueOf s = [] := hempty
  have hsync := note_observed hlaunch.inv hempty' .cuStreamSynchronize
  have hfree := note_observed hsync.inv (fun s => hsync.empty s (hempty' s)) .cuMemFree
  exact (hcopy.then hlaunch).kept (hsync.trans hfree)

theorem optixGlue_pending (es : List Entry) (st : State) :
    (st.optixGlue es).pending = st.pending := by
  induction es generalizing st with
  | nil => rfl
  | cons e es ih => exact ih (st.note (.observed e))

theorem optixGlue_kept {es : List Entry} (h : Inv env st) (hp : es ≠ [] → st.pending = 0) :
    Kept env st (st.optixGlue es) := by
  induction es generalizing st with
  | nil => exact .refl h
  | cons e es ih =>
    have hzero := hp (List.cons_ne_nil e es)
    have hnote := note_observed h (h.queueOf_of_pending hzero) e
    exact hnote.trans (ih hnote.inv fun _ => hzero)

/-- The OptiX glue copies, synchronises and frees with nothing queued, and a launch on its route is
called on the default stream. -/
def Op.KeepsOrder (st : State) : Op env → Prop
  | .launch l => (l.optixCalls ≠ [] → st.pending = 0) ∧
    ∀ p, l.optix = .launched p → l.stream = 0 ∧ st.pending = 0
  | _ => True

theorem launchCuda_spec (l : Launch env) (h : Inv env st)
    (hkeeps : (Op.launch l).KeepsOrder st) :
    Runs env st (st.launchCuda l).2 ((Op.launch l).accepted st) := by
  unfold Op.accepted Launch.called
  have hglue := optixGlue_kept h hkeeps.1
  cases hoptix : l.optix with
  | launched p =>
    obtain ⟨hs, hp⟩ := hkeeps.2 p hoptix
    simp only [State.launchCuda, hoptix, hs]
    exact hglue.then (launchOptix_spec hglue.inv ((optixGlue_pending _ _).trans hp) p)
  | refused =>
    simp only [State.launchCuda, hoptix]
    exact hglue.runs
  | notTaken =>
    cases hk : l.kernel with
    | none =>
      simp only [State.launchCuda, hoptix, hk]
      exact hglue.runs
    | some k =>
      simp only [State.launchCuda, hoptix, hk, Option.map_some, Option.toList_some]
      by_cases hbad : (l.misaligned k || l.unbacked k) = true
      · simp only [hbad, if_true]
        exact hglue.runs
      · simp only [hbad, Bool.false_eq_true, if_false]
        have hshared := hglue.trans (sharedOptIn_kept k hglue.inv)
        rcases hopt : (st.optixGlue l.optixCalls).sharedOptIn k with ⟨ok, st₁⟩
        rw [hopt] at hshared
        cases ok with
        | false => exact hshared.runs
        | true =>
          have hspec := hshared.trans (writeSpec_kept l k hshared.inv)
          have hzero := hspec.trans (zeroAlignFault_kept k hspec.inv)
          exact hzero.then (submit_spec l k _ _ hzero.inv)

theorem step_spec (op : Op env) (h : Inv env st) (hkeeps : op.KeepsOrder st) :
    Runs env st (st.step op) (op.accepted st) := by
  cases op with
  | launch l => exact launchCuda_spec l h hkeeps
  | setDeferred s on => exact (streamSetDeferred_kept env s on h).runs
  | flush s => exact (streamFlush_kept env s h).runs
  | observe e => exact (observe_spec env e h).1.runs
  | streamDestroy s => exact (streamDestroy_kept env s h).runs
  | profile live =>
    exact ⟨h.driver rfl rfl rfl rfl h.holds, fun _ => (List.append_nil _).symm⟩

/-- Every operation of the run keeps the order, in the state it starts from. -/
def KeepsOrder : List (Op env) → State → Prop
  | [], _ => True
  | op :: ops, st => op.KeepsOrder st ∧ KeepsOrder ops (st.step op)

theorem run_spec (ops : List (Op env)) (h : Inv env st) (hkeeps : KeepsOrder ops st) :
    Runs env st (run ops st) (history ops st) := by
  induction ops generalizing st with
  | nil => exact (Kept.refl h).runs
  | cons op ops ih =>
    have hstep := step_spec op h hkeeps.1
    exact hstep.trans (ih hstep.inv hkeeps.2)

/-- On every stream the driver has received the launches called and not refused, in call order, but
for those still queued; and at no moment before was it ahead, or behind at an observation. -/
theorem run_faithful (ops : List (Op env)) (hkeeps : KeepsOrder ops {}) :
    Faithful (run ops {}).drv.trace ∧ ∀ s,
      calledOn s (run ops {}).drv.trace = onStream s (history ops {}) ∧
      receivedOn s (run ops {}).drv.trace ++ ((run ops {}).queueOf s).map (Dl.node env) =
        onStream s (history ops {}) := by
  have hruns := run_spec ops .init hkeeps
  have hcalled : ∀ s, calledOn s (run ops {}).drv.trace = onStream s (history ops {}) :=
    fun s => (hruns.called s).trans (List.nil_append _)
  exact ⟨hruns.inv.holds.faithful,
    fun s => ⟨hcalled s, (hruns.inv.holds.queued s).symm.trans (hcalled s)⟩⟩

/-- A driver that accepts everything, with functions of one word each. -/
def sampleEnv : Env where
  answers _ := true
  paramSizes _ := [4]
  deferMode := .chosen
  graphsBound := true
  funcSetAttributeBound := true

def fillKernel : Kernel sampleEnv where
  fn := 1
  kparams := [{ kind := .scalar, byteSize := 4 }]
  registered _ _ := rfl

def fill : Launch sampleEnv where
  kernel := some fillKernel
  grid := (1, 1, 1)
  block := (64, 1, 1)
  argv := some fun _ _ => 7
  stream := 0

/-- A ray query that goes to OptiX. -/
def traced : Params where
  fn := 2
  grid := (1, 1, 1)
  block := (1, 1, 1)
  shared := 0
  args := []

def trace : Launch sampleEnv := { fill with kernel := none, optix := .launched traced }

def fillWith (value : UInt8) : Launch sampleEnv := { fill with argv := some fun _ _ => value }

/-- The first flush submits one by one, the second records the sequence, and the third patches the
recording before it launches it. -/
def patchedRun : List (Op sampleEnv) :=
  [.setDeferred 0 true, .launch fill, .launch fill, .launch (fillWith 8), .flush 0, .launch fill,
    .launch fill, .launch (fillWith 8), .flush 0, .launch fill, .launch (fillWith 9),
    .launch (fillWith 8), .flush 0, .launch trace]

theorem run_faithful_sample :
    (run patchedRun {}).drv.execs 1 =
        [fill, fillWith 9, fillWith 8].map (Launch.params · fillKernel) ∧
      receivedOn 0 (run patchedRun {}).drv.trace =
        [fill, fill, fillWith 8, fill, fill, fillWith 8, fill, fillWith 9, fillWith 8].map
          (Launch.params · fillKernel) ++ [traced] := by
  have hkeeps : KeepsOrder patchedRun {} := by
    have hdirect : ∀ (st : State) v, (Op.launch (fillWith v)).KeepsOrder st := fun st v =>
      ⟨fun h => absurd rfl h, fun p h => by cases h⟩
    have hfill : ∀ st : State, (Op.launch fill).KeepsOrder st := fun st =>
      ⟨fun h => absurd rfl h, fun p h => by cases h⟩
    refine ⟨trivial, hfill _, hfill _, hdirect _ _, trivial, hfill _, hfill _, hdirect _ _,
      trivial, hfill _, hdirect _ _, hdirect _ _, trivial, ⟨fun h => absurd rfl h, fun p _ => ?_⟩,
      trivial⟩
    exact ⟨rfl, by decide +kernel⟩
  have hdone := ((run_faithful _ hkeeps).2 0).2
  have hqueue : (run patchedRun {}).queueOf 0 = [] := by decide +kernel
  rw [hqueue, List.map_nil, List.append_nil] at hdone
  refine ⟨by decide +kernel, ?_⟩
  rw [hdone]
  decide +kernel

/-- A launch on the OptiX route is received before the launch queued ahead of it. -/
theorem optix_passes_queue :
    onStream 0 (history [.setDeferred 0 true, .launch fill, .launch trace, .flush 0] {}) =
      [fill.params fillKernel, traced] ∧
    receivedOn 0 (run [.setDeferred 0 true, .launch fill, .launch trace, .flush 0] {}).drv.trace =
      [traced, fill.params fillKernel] ∧
    ¬ Faithful (run [.setDeferred 0 true, .launch fill, .launch trace, .flush 0] {}).drv.trace := by
  refine ⟨by decide +kernel, by decide +kernel, fun h => ?_⟩
  have horder := h.inOrder _ (List.prefix_refl _) 0
  revert horder
  decide +kernel

end Cajeta.Xpu
