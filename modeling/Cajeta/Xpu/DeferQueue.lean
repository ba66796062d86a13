import Mathlib.Algebra.BigOperators.Group.Finset.Piecewise
import Mathlib.Algebra.Order.BigOperators.Group.Finset
import Cajeta.Xpu.DeferFlush
import Cajeta.Xpu.Launch

/-!
# The runtime as a buffer with one queue a stream

A queued launch is the launch as it was called, and the records of the streams hold the queues. The
invariant is kept by a flush and by every observation, which leaves nothing queued.
-/

namespace Cajeta.Xpu
open Delivery Bytes

variable {env : Env}

theorem le_aligned (n : Nat) : n ≤ aligned n := by
  unfold aligned
  omega

theorem Memory.length_read (m : Memory) (n : Nat) : (m.read n).length = n := by
  simp [Memory.read]

theorem copyArgs_spec (argv : Nat → Memory) (off : Nat) (sizes : List Nat) (blob : List UInt8)
    (hroom : off + blobLen sizes ≤ blob.length) :
    (∀ o n, o + n ≤ off → slice (State.copyArgs argv (argOffs off sizes) sizes blob) o n =
      slice blob o n) ∧
    ((argOffs off sizes).zip sizes).map (fun (o, n) =>
      slice (State.copyArgs argv (argOffs off sizes) sizes blob) o n) = readArgs argv sizes := by
  induction sizes generalizing argv off blob with
  | nil => exact ⟨fun _ _ _ => rfl, rfl⟩
  | cons n sizes ih =>
    have hal := le_aligned n
    have hread := (argv 0).length_read n
    simp only [blobLen, List.map_cons, List.sum_cons] at hroom
    have hfits : off + ((argv 0).read n).length ≤ blob.length := by omega
    obtain ⟨hleft, hargs⟩ := ih (fun i => argv (i + 1)) (off + aligned n)
      (patch blob off ((argv 0).read n)) (by rw [length_patch _ hfits]; unfold blobLen; omega)
    simp only [argOffs, State.copyArgs, readArgs, List.zip_cons_cons, List.map_cons]
    refine ⟨fun o m ho => ?_, ?_⟩
    · rw [hleft o m (by omega), slice_patch_left _ _ ho (by omega)]
    · have hself := slice_patch blob hfits
      rw [hread] at hself
      rw [hargs, hleft off n (by omega), hself]

theorem queued_spec (k : Kernel env) (l : Launch env) (hqueue : k.queueable = true)
    (hdirect : Launch.needsTranslation k = false) (hargv : l.argv = some argv) :
    (State.queued k l.grid l.block (max k.dynShared l.sharedBytes) argv).node env = l.params k ∧
      (State.queued k l.grid l.block (max k.dynShared l.sharedBytes) argv).Packed env := by
  simp only [Kernel.queueable, decide_eq_true_eq] at hqueue
  have hsizes : k.argBytes = env.paramSizes k.fn := k.registered hqueue.2.2.1 hqueue.1
  have hroom : 0 + blobLen k.argBytes ≤ (List.replicate (blobLen k.argBytes)
    (0 : UInt8)).length := by
    rw [List.length_replicate, Nat.zero_add]
  have hargs := (copyArgs_spec argv 0 k.argBytes _ hroom).2
  refine ⟨?_, ?_⟩
  · have huse : l.useArgv k = some argv := by
      rw [Launch.useArgv, if_neg (by rw [hdirect]; exact Bool.false_ne_true), hargv]
    simp only [Dl.node, State.queued, Launch.params, huse, Option.map_some, Option.getD_some]
    rw [← hsizes, ← hargs]
  · simp only [Dl.Packed, State.queued, hsizes]

/-! ## The queues -/

namespace State

def queueOf (st : State) (s : Stream) : List Dl := ((st.dstreamFind s).map (·.2.q)).getD []

def Unique (st : State) : Prop :=
  ∀ i j di dj, st.slots i = some di → st.slots j = some dj → di.stream = dj.stream → i = j

variable {st st' : State}

theorem dstreamFind_some (h : st.dstreamFind s = some (i, ds)) :
    st.slots i = some ds ∧ ds.stream = s := by
  obtain ⟨j, -, hj⟩ := List.exists_of_findSome?_eq_some h
  obtain ⟨ds', hds', hj⟩ := Option.bind_eq_some_iff.mp hj
  split at hj
  · next hs =>
    cases hj
    exact ⟨hds', hs⟩
  · cases hj

theorem dstreamFind_none (h : st.dstreamFind s = none) (hi : st.slots i = some ds) :
    ds.stream ≠ s := by
  intro hs
  have hnone := List.findSome?_eq_none_iff.mp h i (List.mem_finRange i)
  rw [hi, Option.bind_some, if_pos hs] at hnone
  cases hnone

theorem queueOf_slot (hu : st.Unique) (hi : st.slots i = some ds) :
    st.queueOf ds.stream = ds.q := by
  unfold queueOf
  cases hfind : st.dstreamFind ds.stream with
  | none => exact absurd rfl (dstreamFind_none hfind hi)
  | some r =>
    obtain ⟨j, dj⟩ := r
    obtain ⟨hj, hs⟩ := dstreamFind_some hfind
    obtain rfl := hu j i dj ds hj hi hs
    cases hj.symm.trans hi
    rfl

theorem queueOf_nil (h : ∀ i ds, st.slots i = some ds → ds.stream ≠ s) : st.queueOf s = [] := by
  unfold queueOf
  cases hfind : st.dstreamFind s with
  | none => rfl
  | some r =>
    obtain ⟨hj, hs⟩ := dstreamFind_some hfind
    exact absurd hs (h _ _ hj)

/-- The record `ds'` takes slot `i` from a record of the same stream, or as its first one. -/
structure Takes (st : State) (i : Fin deferStreams) (ds' : Dstream) : Prop where
  same : ∀ ds, st.slots i = some ds → ds.stream = ds'.stream
  others : ∀ j ≠ i, ∀ dj, st.slots j = some dj → dj.stream ≠ ds'.stream

theorem Takes.of_slot (hu : st.Unique) (hi : st.slots i = some ds)
    (hs : ds'.stream = ds.stream) : st.Takes i ds' where
  same d hd := by
    cases hi.symm.trans hd
    exact hs.symm
  others j hij dj hj heq := hij (hu j i dj ds hj hi (heq.trans hs))

theorem Takes.unique (h : st.Takes i ds') (hu : st.Unique)
    (hslots : st'.slots = Function.update st.slots i (some ds')) : st'.Unique := by
  have hslot : ∀ j dj, st'.slots j = some dj →
      (j = i ∧ dj.stream = ds'.stream) ∨ (j ≠ i ∧ st.slots j = some dj) := by
    intro j dj hj
    rw [hslots] at hj
    by_cases hij : j = i
    · rw [hij, Function.update_self] at hj
      cases hj
      exact .inl ⟨hij, rfl⟩
    · rw [Function.update_of_ne hij] at hj
      exact .inr ⟨hij, hj⟩
  intro j k dj dk hj hk hs
  rcases hslot j dj hj with ⟨rfl, hjs⟩ | ⟨hji, hj⟩ <;> rcases hslot k dk hk with ⟨rfl,
    hks⟩ | ⟨hki, hk⟩
  · rfl
  · exact absurd (hs.symm.trans hjs) (h.others k hki dk hk)
  · exact absurd (hs.trans hks) (h.others j hji dj hj)
  · exact hu j k dj dk hj hk hs

theorem Takes.queueOf (h : st.Takes i ds') (hu : st.Unique)
    (hslots : st'.slots = Function.update st.slots i (some ds')) :
    st'.queueOf = Function.update st.queueOf ds'.stream ds'.q := by
  have hu' := h.unique hu hslots
  have hi : st'.slots i = some ds' := by rw [hslots, Function.update_self]
  funext s
  by_cases hs : s = ds'.stream
  · rw [hs, Function.update_self, queueOf_slot hu' hi]
  · rw [Function.update_of_ne hs]
    cases hfind : st.dstreamFind s with
    | some r =>
      obtain ⟨j, dj⟩ := r
      obtain ⟨hj, rfl⟩ := dstreamFind_some hfind
      have hij : j ≠ i := by
        rintro rfl
        exact hs (h.same dj hj)
      have hj' : st'.slots j = some dj := by rw [hslots, Function.update_of_ne hij, hj]
      rw [queueOf_slot hu' hj', queueOf_slot hu hj]
    | none =>
      rw [queueOf_nil fun j dj hj => dstreamFind_none hfind hj, queueOf_nil fun j dj hj => ?_]
      rw [hslots] at hj
      by_cases hij : j = i
      · rw [hij, Function.update_self] at hj
        cases hj
        exact Ne.symm hs
      · rw [Function.update_of_ne hij] at hj
        exact dstreamFind_none hfind hj

end State

/-! ## The invariant -/

structure Inv (env : Env) (st : State) : Prop where
  unique : st.Unique
  holds : Holds st.drv.trace fun s => (st.queueOf s).map (Dl.node env)
  pending : st.pending = ∑ i, (st.slots i).elim 0 (·.q.length)
  packed : ∀ i ds, st.slots i = some ds → ∀ l ∈ ds.q, l.Packed env
  mirrors : ∀ i ds, st.slots i = some ds → Mirrors env ds st.drv
  apart : ∀ i j di dj n, st.slots i = some di → st.slots j = some dj →
    Owned di n → Owned dj n → i = j

namespace Inv
variable {st st' : State}

theorem init : Inv env {} where
  unique := nofun
  holds := .nil
  pending := by simp
  packed := nofun
  mirrors := nofun
  apart := nofun

theorem queueOf_of_pending (h : Inv env st) (hp : st.pending = 0) (s : Stream) :
    st.queueOf s = [] := by
  unfold State.queueOf
  cases hfind : st.dstreamFind s with
  | none => rfl
  | some r =>
    have hsum := h.pending
    rw [hp] at hsum
    have hzero := Finset.sum_eq_zero_iff.mp hsum.symm r.1 (Finset.mem_univ _)
    rw [(State.dstreamFind_some hfind).1] at hzero
    exact List.length_eq_zero_iff.mp hzero

theorem change (h : Inv env st) (htakes : st.Takes i ds')
    (hslots : st'.slots = Function.update st.slots i (some ds'))
    (hholds : Holds st'.drv.trace fun s =>
      (Function.update st.queueOf ds'.stream ds'.q s).map (Dl.node env))
    (hpending : st'.pending + (st.slots i).elim 0 (·.q.length) = st.pending + ds'.q.length)
    (hpacked : ∀ l ∈ ds'.q, l.Packed env) (hmirrors : Mirrors env ds' st'.drv)
    (hothers : ∀ j ≠ i, ∀ dj, st.slots j = some dj →
      Mirrors env dj st'.drv ∧ ∀ n, Owned dj n → ¬ Owned ds' n) : Inv env st' := by
  have hi : st'.slots i = some ds' := by rw [hslots, Function.update_self]
  have hold : ∀ j ≠ i, st'.slots j = st.slots j :=
    fun j hij => by rw [hslots, Function.update_of_ne hij]
  refine ⟨htakes.unique h.unique hslots, ?_, ?_, fun j dj hj => ?_, fun j dj hj => ?_,
    fun j k dj dk n hj hk hjn hkn => ?_⟩
  · rw [htakes.queueOf h.unique hslots]
    exact hholds
  · have hupdate : (fun j => (st'.slots j).elim 0 (·.q.length)) =
        Function.update (fun j => (st.slots j).elim 0 (·.q.length)) i ds'.q.length := by
      funext j
      by_cases hij : j = i
      · rw [hij, hi, Function.update_self]
        rfl
      · rw [hold j hij, Function.update_of_ne hij]
    have hsum := Finset.add_sum_erase Finset.univ (fun j => (st.slots j).elim 0 (·.q.length))
      (Finset.mem_univ i)
    rw [hupdate, Finset.sum_update_of_mem (Finset.mem_univ i), Finset.sdiff_singleton_eq_erase]
    rw [h.pending] at hpending
    omega
  · by_cases hij : j = i
    · rw [hij, hi] at hj
      cases hj
      exact hpacked
    · exact h.packed j dj (hold j hij ▸ hj)
  · by_cases hij : j = i
    · rw [hij, hi] at hj
      cases hj
      exact hmirrors
    · exact (hothers j hij dj (hold j hij ▸ hj)).1
  · by_cases hij : j = i <;> by_cases hik : k = i
    · rw [hij, hik]
    · rw [hij, hi] at hj
      cases hj
      exact absurd hjn ((hothers k hik dk (hold k hik ▸ hk)).2 n hkn)
    · rw [hik, hi] at hk
      cases hk
      exact absurd hkn ((hothers j hij dj (hold j hij ▸ hj)).2 n hjn)
    · exact h.apart j k dj dk n (hold j hij ▸ hj) (hold k hik ▸ hk) hjn hkn

theorem driver (h : Inv env st) (hslots : st'.slots = st.slots)
    (hpending : st'.pending = st.pending)
    (hexecs : st'.drv.execs = st.drv.execs) (hhandles : st'.drv.handles = st.drv.handles)
    (hholds : Holds st'.drv.trace fun s => (st.queueOf s).map (Dl.node env)) : Inv env st' where
  unique i j di dj hi hj := h.unique i j di dj (hslots ▸ hi) (hslots ▸ hj)
  holds := by
    have hqueue : st'.queueOf = st.queueOf := by
      funext s
      simp only [State.queueOf, State.dstreamFind, hslots]
    rw [hqueue]
    exact hholds
  pending := by rw [hslots, hpending, h.pending]
  packed i ds hi := h.packed i ds (hslots ▸ hi)
  mirrors i ds hi := by
    have hm := h.mirrors i ds (hslots ▸ hi)
    exact ⟨fun j g hg => by rw [hexecs, hm.holds j g hg],
      fun j g hg => by rw [hhandles]; exact hm.old j g hg, hm.packed, hm.apart⟩
  apart i j di dj n hi hj := h.apart i j di dj n (hslots ▸ hi) (hslots ▸ hj)

end Inv

/-- What a step that calls no launch of its own may do. -/
structure Kept (env : Env) (st st' : State) : Prop where
  inv : Inv env st'
  called : ∀ s, calledOn s st'.drv.trace = calledOn s st.drv.trace
  empty : ∀ s, st.queueOf s = [] → st'.queueOf s = []

namespace Kept
variable {st st' st'' : State}

theorem refl (h : Inv env st) : Kept env st st := ⟨h, fun _ => rfl, fun _ h => h⟩

theorem trans (h : Kept env st st') (h' : Kept env st' st'') : Kept env st st'' :=
  ⟨h'.inv, fun s => (h'.called s).trans (h.called s), fun s hs => h'.empty s (h.empty s hs)⟩

end Kept

/-! ## Flushing -/

variable {st st' : State}

theorem flushSlot_spec (h : Inv env st) (hi : st.slots i = some ds) :
    Kept env st (State.flushSlot env i ds st) ∧
      (State.flushSlot env i ds st).queueOf ds.stream = [] ∧
      ∃ ds', (State.flushSlot env i ds st).slots = Function.update st.slots i (some ds') ∧
        ds'.stream = ds.stream ∧ ds'.q = [] := by
  obtain ⟨ds₁, d₁, hflush, hev⟩ := deferFlushLocked_spec (h.mirrors i ds hi) (h.packed i ds hi)
  have hst : State.flushSlot env i ds st =
      { st with slots := Function.update st.slots i (some { ds₁ with q := [] })
                pending := st.pending - ds.q.length
                drv := d₁ } := by
    rw [State.flushSlot, hflush]
  have htakes : st.Takes i { ds₁ with q := [] } := .of_slot h.unique hi hev.stream
  have hqueue := State.queueOf_slot h.unique hi
  have hapart : ∀ j ≠ i, ∀ dj, st.slots j = some dj → ∀ n, Owned dj n → ¬ Owned ds n :=
    fun j hij dj hj n hjn hn => hij (h.apart j i dj ds n hj hi hjn hn)
  have hle : ds.q.length ≤ st.pending := by
    rw [h.pending]
    have hsingle := Finset.single_le_sum (f := fun j => (st.slots j).elim 0 (·.q.length))
      (fun _ _ => Nat.zero_le _) (Finset.mem_univ i)
    simpa only [hi, Option.elim_some] using hsingle
  have hsent := h.holds.sent ds.stream (ds.q.map (Dl.node env)) [] (by rw [hqueue, List.append_nil])
  rw [← hev.trace] at hsent
  have hinv : Inv env (State.flushSlot env i ds st) := by
    rw [hst]
    refine h.change htakes rfl ?_ ?_ nofun ⟨hev.mirrors.holds, hev.mirrors.old, hev.mirrors.packed,
      hev.mirrors.apart⟩ fun j hij dj hj => ⟨?_, fun n hjn hn => ?_⟩
    · have hmap : (fun s => (Function.update st.queueOf ds₁.stream [] s).map (Dl.node env)) =
          Function.update (fun s => (st.queueOf s).map (Dl.node env)) ds.stream [] := by
        funext s
        rw [hev.stream]
        by_cases hs : s = ds.stream
        · rw [hs, Function.update_self, Function.update_self]
          rfl
        · rw [Function.update_of_ne hs, Function.update_of_ne hs]
      exact hmap ▸ hsent
    · rw [hi]
      simp only [Option.elim_some, List.length_nil]
      omega
    · have hm := h.mirrors j dj hj
      exact ⟨fun k g hg => by
          rw [hev.execs _ (hm.old k g hg) (hapart j hij dj hj _ ⟨k, g, hg, rfl⟩), hm.holds k g hg],
        fun k g hg => Nat.lt_of_lt_of_le (hm.old k g hg) hev.handles, hm.packed, hm.apart⟩
    · obtain ⟨k, g, hg, rfl⟩ := hjn
      exact hapart j hij dj hj _ ⟨k, g, hg, rfl⟩
        (hev.owned _ ((h.mirrors j dj hj).old k g hg) hn)
  have hqueue' := htakes.queueOf h.unique
    (by rw [hst] : (State.flushSlot env i ds st).slots = _)
  refine ⟨⟨hinv, fun s => ?_, fun s hs => ?_⟩, ?_, { ds₁ with q := [] }, by rw [hst],
    hev.stream, rfl⟩
  · rw [hst]
    simp only [hev.trace, calledOn_append, calledOn_received, List.append_nil]
  · rw [hqueue']
    by_cases heq : s = ds.stream
    · rw [heq, ← hev.stream, Function.update_self]
    · rw [Function.update_of_ne (hev.stream ▸ heq), hs]
  · rw [hqueue', ← hev.stream, Function.update_self]

theorem deferFlushStream_spec (env : Env) (s : Stream) (h : Inv env st) :
    Kept env st (st.deferFlushStream env s) ∧ (st.deferFlushStream env s).queueOf s = [] := by
  unfold State.deferFlushStream
  cases hfind : st.dstreamFind s with
  | none => exact ⟨.refl h, State.queueOf_nil fun _ _ hi => State.dstreamFind_none hfind hi⟩
  | some r =>
    obtain ⟨i, ds⟩ := r
    obtain ⟨hi, rfl⟩ := State.dstreamFind_some hfind
    obtain ⟨hkept, hempty, -⟩ := flushSlot_spec h hi
    exact ⟨hkept, hempty⟩

/-- Flushing the slots of a list, by an `f` that flushes the slot it is given, empties each. -/
theorem flushSlots_spec {f : State → Fin deferStreams → State}
    (hnone : ∀ st i, st.slots i = none → f st i = st)
    (hsome : ∀ st i ds, st.slots i = some ds → f st i = State.flushSlot env i ds st)
    (is : List (Fin deferStreams)) (h : Inv env st) : Kept env st (is.foldl f st) ∧
      ∀ i ∈ is, ∀ ds, st.slots i = some ds → (is.foldl f st).queueOf ds.stream = [] := by
  induction is generalizing st with
  | nil => exact ⟨.refl h, nofun⟩
  | cons i is ih =>
    rw [List.foldl_cons]
    cases hi : st.slots i with
    | none =>
      rw [hnone st i hi]
      obtain ⟨hkept, hempty⟩ := ih h
      refine ⟨hkept, fun j hj ds hds => ?_⟩
      rcases List.mem_cons.mp hj with rfl | hj
      · cases hi.symm.trans hds
      · exact hempty j hj ds hds
    | some di =>
      rw [hsome st i di hi]
      obtain ⟨hflush, hdone, ds', hslots, hstream, -⟩ := flushSlot_spec h hi
      obtain ⟨hkept, hempty⟩ := ih hflush.inv
      refine ⟨hflush.trans hkept, fun j hj ds hds => ?_⟩
      by_cases hij : j = i
      · obtain rfl := hij
        cases hi.symm.trans hds
        exact hkept.empty _ hdone
      · have hj := (List.mem_cons.mp hj).resolve_left hij
        exact hempty j hj ds (by rw [hslots, Function.update_of_ne hij, hds])

theorem flushSlots_all {f : State → Fin deferStreams → State}
    (hnone : ∀ st i, st.slots i = none → f st i = st)
    (hsome : ∀ st i ds, st.slots i = some ds → f st i = State.flushSlot env i ds st)
    (h : Inv env st) : Kept env st ((List.finRange deferStreams).foldl f st) ∧
      ∀ s, ((List.finRange deferStreams).foldl f st).queueOf s = [] := by
  obtain ⟨hkept, hempty⟩ := flushSlots_spec hnone hsome (List.finRange deferStreams) h
  refine ⟨hkept, fun s => ?_⟩
  cases hfind : st.dstreamFind s with
  | none =>
    exact hkept.empty s (State.queueOf_nil fun _ _ hi => State.dstreamFind_none hfind hi)
  | some r =>
    obtain ⟨hi, rfl⟩ := State.dstreamFind_some hfind
    exact hempty r.1 (List.mem_finRange _) r.2 hi

theorem deferFlushAll_spec (h : Inv env st) :
    Kept env st (st.deferFlushAll env) ∧ ∀ s, (st.deferFlushAll env).queueOf s = [] := by
  unfold State.deferFlushAll
  refine flushSlots_all (fun st i hi => ?_) (fun st i ds hi => ?_) h
  all_goals simp only [hi]

theorem deferSubmit_spec (env : Env) (h : Inv env st) :
    Kept env st (st.deferSubmit env) ∧ ∀ s, (st.deferSubmit env).queueOf s = [] := by
  unfold State.deferSubmit
  split
  · exact deferFlushAll_spec h
  · next hp => exact ⟨.refl h, h.queueOf_of_pending (not_not.mp hp)⟩

theorem note_observed (h : Inv env st) (hempty : ∀ s, st.queueOf s = []) (e : Entry) :
    Kept env st (st.note (.observed e)) := by
  refine ⟨h.driver rfl rfl rfl rfl (h.holds.observed (fun s => ?_) e), fun s => ?_, fun _ h => h⟩
  · rw [hempty s]
    rfl
  · simp [State.note, Driver.note]

theorem call_kept (h : Inv env st) : Kept env st { st with drv := (st.drv.call env id).2 } := by
  rcases st.drv.call_cases env id with hcall | hcall
  all_goals
    rw [hcall]
    exact ⟨h.driver rfl rfl rfl rfl h.holds, fun _ => rfl, fun _ h => h⟩

theorem observe_spec (env : Env) (e : Entry) (h : Inv env st) :
    Kept env st (st.observe env e).2 ∧ ∀ s, (st.observe env e).2.queueOf s = [] := by
  obtain ⟨hkept, hempty⟩ := deferSubmit_spec env h
  have hcall := call_kept hkept.inv
  have hnote := note_observed hcall.inv (fun s => hcall.empty s (hempty s)) e
  exact ⟨(hkept.trans hcall).trans hnote, fun s => hnote.empty s (hcall.empty s (hempty s))⟩

theorem observeAll_kept (env : Env) (es : List Entry) (h : Inv env st) :
    Kept env st (st.observeAll env es) := by
  induction es generalizing st with
  | nil => exact .refl h
  | cons e es ih =>
    have hone := (observe_spec env e h).1
    exact hone.trans (ih hone.inv)

end Cajeta.Xpu
