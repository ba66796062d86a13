import Cajeta.Concurrent.FiberWaitGuarantees

/-!
# When a wait for a descriptor is exact

A wait without a deadline returns however the fiber was woken, and leaves its waiter to the reactor.
The completion of a task wakes every parked fiber, so that such a wait may return for nothing. In
every run in which no task completes while a fiber is suspended in one, a wait that succeeds has
been told of its descriptor, and no waiter of a fiber whose wait ended is listed. The reactor works
through events that it fetched before it took the mutex and knows a descriptor by its number, so
such a run also has no event that hits a wait which began after the fetch.
-/

namespace Cajeta.Concurrent.FiberWait

/-- What a fiber knows of its waiter. -/
structure Watch (Fd : Type) where
  fd : Fd
  events : Interest
  stackOwned : Bool
  id : Nat

def Cause.watch (c : Cause T Fd) (e : Option Timer) : Option (Watch Fd) :=
  match c with
  | .task _ => none
  | .io fd events record => some ⟨fd, events, e.isSome, record⟩

/-- The waiter that may be listed. -/
def Pc.watch : Pc T Fd → Option (Watch Fd)
  | .top c e => c.watch e
  | .swap c e => c.watch e
  | .woken c e => c.watch e
  | .withdraw c e => c.watch e
  | _ => none

/-- A wait for a descriptor that succeeds has been told of it. -/
def Outcome.Reported (told : Fd → Interest → Prop) (c : Cause T Fd) (r : Outcome) : Prop :=
  ∀ fd events record, c = .io fd events record → r = .done → told fd events

def Pc.Reported (told : Fd → Interest → Prop) : Pc T Fd → Prop
  | .cancelTimer c _ r => r.Reported told c
  | .ended c _ r => r.Reported told c
  | _ => True

theorem Pc.finished_reported {told : Fd → Interest → Prop} :
    (Pc.finished c e r : Pc T Fd).Reported told ↔ r.Reported told c := by
  cases e <;> rfl

@[simp] theorem Pc.finished_watch : (Pc.finished c e r : Pc T Fd).watch = none := by
  cases e <;> rfl

theorem Pc.Reported.mono {told told' : Fd → Interest → Prop} {pc : Pc T Fd}
    (h : pc.Reported told) (ht : ∀ fd events, told fd events → told' fd events) :
    pc.Reported told' := by
  cases pc with
  | cancelTimer => exact fun fd events record hc hr => ht _ _ (h fd events record hc hr)
  | ended => exact fun fd events record hc hr => ht _ _ (h fd events record hc hr)
  | _ => trivial

theorem Event.concerns_of_hits [DecidableEq Fd] {ev : Event Fd} {w : Waiter X Fd}
    (h : ev.hits w) : (Occasion.report ev).Concerns w.fd w.events := by
  rw [Event.hits, Bool.and_eq_true, decide_eq_true_eq] at h
  refine ⟨h.1.symm, ?_⟩
  have hmeets := h.2
  simp only [Interest.meets, Event.firedMask, Bool.or_eq_true, Bool.and_eq_true] at hmeets
  grind

namespace System
variable {X T Fd : Type} {s s' : System X T Fd} {x y : X} {c : Cause T Fd} {e : Option Timer}
  {pc : Pc T Fd}

/-- Since the call of `x` began, something happened to the descriptor that it waits for. -/
def Concerned (s : System X T Fd) (x : X) (fd : Fd) (events : Interest) : Prop :=
  ∃ o ∈ s.since x, o.Concerns fd events

structure Exact (s : System X T Fd) : Prop where
  waiters : HeldRecords Waiter.fiber (fun w => ⟨w.fd, w.events, w.stackOwned, w.id⟩) Watch.id
    (fun x => (s.pc x).watch) s.next s.waiters
  parked : ∀ w ∈ s.waiters, w.stackOwned = false → w.fiber ∈ s.fibers.lists .parked
  fired : ∀ x d, (s.pc x).watch = some d → s.fired d.id →
    s.Concerned x d.fd d.events ∧ ∀ w ∈ s.waiters, w.fiber ≠ x
  plain : ∀ x fd events record, s.pc x = .swap (.io fd events record) none →
    x ∉ s.fibers.lists .parked → s.Concerned x fd events
  told : ∀ x, (s.pc x).Reported (s.Concerned x)

namespace Exact

theorem initial : (initial : System X T Fd).Exact where
  waiters := .nil fun _ => rfl
  parked _ h := absurd h List.not_mem_nil
  fired _ _ h := by cases h
  plain _ _ _ _ h := by cases h
  told _ := trivial

theorem congr (h : s.Exact) (hw : s'.waiters = s.waiters) (hf : s'.fired = s.fired)
    (hn : s.next ≤ s'.next)
    (hp : ∀ y, y ∈ s'.fibers.lists .parked ↔ y ∈ s.fibers.lists .parked)
    (hpc : s'.pc = s.pc) (hs : ∀ y fd events, s.Concerned y fd events → s'.Concerned y fd events) :
    s'.Exact where
  waiters := by rw [hw, hpc]; exact h.waiters.mono hn
  parked w hmem ho := (hp _).mpr (h.parked w (hw ▸ hmem) ho)
  fired x d hd hfired := by
    rw [hpc] at hd
    rw [hf] at hfired
    obtain ⟨h1, h2⟩ := h.fired x d hd hfired
    exact ⟨hs _ _ _ h1, hw ▸ h2⟩
  plain x fd events record hx hmem := by
    rw [hpc] at hx
    exact hs _ _ _ (h.plain x fd events record hx fun hm => hmem ((hp x).mpr hm))
  told x := by
    rw [hpc]
    exact (h.told x).mono (hs x)

theorem note (h : s.Exact) (os : List (Occasion Fd)) : (s.note os).Exact :=
  h.congr rfl rfl (Nat.le_refl _) (fun _ => .rfl) rfl fun _ _ _ ⟨o, ho, hc⟩ =>
    ⟨o, List.mem_append_right _ ho, hc⟩

theorem not_listed (h : s.Exact) (hx : s.pc x = .swap (.io fd events record) none)
    (hmem : x ∉ s.fibers.lists .parked) : ∀ w ∈ s.waiters, w.fiber ≠ x := by
  intro w hw e
  have hd := h.waiters.of_mem w hw
  rw [e, hx] at hd
  have ho : w.stackOwned = false := congrArg Watch.stackOwned (Option.some.inj hd).symm
  exact hmem (e ▸ h.parked w hw ho)

theorem plain_of_owned (h : s.Exact) (hs : s.Sound) (hw : w ∈ s.waiters)
    (ho : w.stackOwned = false) :
    s.pc w.fiber = .swap (.io w.fd w.events w.id) none := by
  obtain ⟨c, e, hpc⟩ := hs.mem_parked (h.parked w hw ho)
  have hd := h.waiters.of_mem w hw
  rw [hpc] at hd
  cases c with
  | task t => cases hd
  | io fd events record =>
    simp only [Pc.watch, Cause.watch, Option.some.injEq, Watch.mk.injEq] at hd
    obtain ⟨rfl, rfl, he, rfl⟩ := hd
    cases e with
    | none => exact hpc
    | some m =>
      rw [ho] at he
      cases he

variable [DecidableEq X]

theorem goto (h : s.Exact) (hq : pc.queue X = none)
    (hw : pc.watch = (s.pc x).watch ∨ pc.watch = none ∧ ∀ w ∈ s.waiters, w.fiber ≠ x)
    (ht : pc.Reported (s.Concerned x)) : (s.goto x pc).Exact where
  waiters := by
    rcases hw with hw | ⟨hw, hl⟩
    · exact h.waiters.congr (goto_eq hw)
    · exact h.waiters.drop (by rw [goto_pc_self, hw]) (fun y hy => by rw [goto_pc_of_ne hy]) hl
  parked := h.parked
  fired y d hd hf := by
    by_cases hy : y = x
    · subst hy
      rw [goto_pc_self] at hd
      rcases hw with hw | ⟨hw, -⟩
      · exact h.fired y d (hw ▸ hd) hf
      · rw [hw] at hd
        cases hd
    · rw [goto_pc_of_ne hy] at hd
      exact h.fired y d hd hf
  plain y fd events record hx hmem := by
    by_cases hy : y = x
    · rw [hy, goto_pc_self] at hx
      rw [hx] at hq
      cases hq
    · rw [goto_pc_of_ne hy] at hx
      exact h.plain y fd events record hx hmem
  told := goto_forall (P := fun y pc => pc.Reported (s.Concerned y)) ht fun y _ => h.told y

theorem park (h : s.Exact) (hw : (Pc.swap c e : Pc T Fd).watch = (s.pc x).watch) :
    ({ s with fibers := s.fibers.parkFront .parked x }.goto x (.swap c e)).Exact where
  waiters := h.waiters.congr (goto_eq (s := { s with fibers := _ }) (f := Pc.watch) hw)
  parked w hmem ho := by
    show w.fiber ∈ (s.fibers.parkFront .parked x).lists .parked
    rw [parkFront_parked]
    exact List.mem_cons_of_mem _ (h.parked w hmem ho)
  fired y d hd hf := by
    have hd' := (goto_eq (s := { s with fibers := _ }) (f := Pc.watch) hw y).symm.trans hd
    exact h.fired y d hd' hf
  plain y fd events record hx hmem := by
    have hmem' : y ∉ (s.fibers.parkFront .parked x).lists .parked := hmem
    rw [parkFront_parked, List.mem_cons, not_or] at hmem'
    rw [goto_pc_of_ne hmem'.1] at hx
    exact h.plain y fd events record hx hmem'.2
  told := goto_forall (P := fun y pc => pc.Reported (s.Concerned y)) trivial fun y _ => h.told y

omit [DecidableEq X] in
theorem mem_hits (h : s.Exact) {hit : Waiter X Fd → Bool} (hw : w ∈ s.waiters)
    (hwx : w.fiber ∈ (s.waiters.filter hit).map (·.fiber)) : hit w := by
  obtain ⟨w', hw', e⟩ := List.mem_map.mp hwx
  obtain ⟨hmem, hhit⟩ := List.mem_filter.mp hw'
  exact h.waiters.eq_of_owner hmem hw e ▸ hhit

theorem fireWaiters (h : s.Exact) (hs : s.Sound) (p : Publisher X) {hit : Waiter X Fd → Bool}
    (htold : ∀ w ∈ s.waiters, hit w → s.Concerned w.fiber w.fd w.events) :
    (s.fireWaiters p hit).Exact := by
  have hd := hs.fireWaiters_detached p hit
  have hpc := fireWaiters_pc (s := s) p hit
  have hmem {w : Waiter X Fd} (hw : w ∈ (s.fireWaiters p hit).waiters) :
      w ∈ s.waiters ∧ ¬hit w := by
    rw [fireWaiters_eq, List.mem_filter] at hw
    exact ⟨hw.1, by simpa using hw.2⟩
  have hsince {y fd events} (hc : s.Concerned y fd events) :
      (s.fireWaiters p hit).Concerned y fd events := by
    rw [fireWaiters_eq]
    exact hc
  refine ⟨?_, fun w hw ho => ?_, fun x d hx hf => ?_, fun x fd events record hx hpark => ?_,
    fun x => ?_⟩
  · rw [fireWaiters_eq]
    exact h.waiters.sublist List.filter_sublist
  · obtain ⟨hw', hno⟩ := hmem hw
    exact (hd.mem_parked _).mpr ⟨h.parked w hw' ho, fun hx => hno (h.mem_hits hw' hx)⟩
  · rw [hpc] at hx
    have hf' : s.fired d.id ∨ ∃ w, w ∈ s.waiters ∧ hit w ∧ w.id = d.id := by
      rw [fireWaiters_eq] at hf
      simpa using hf
    rcases hf' with hf' | ⟨w, hw, hhit, hid⟩
    · obtain ⟨h1, h2⟩ := h.fired x d hx hf'
      exact ⟨hsince h1, fun w hw => h2 w (hmem hw).1⟩
    · have hown := h.waiters.of_mem w hw
      have hwx : w.fiber = x := h.waiters.inj _ _ _ _ hown hx hid
      subst hwx
      rw [hx] at hown
      cases hown
      refine ⟨hsince (htold w hw hhit), fun w' hw' e => ?_⟩
      obtain ⟨hw', hno⟩ := hmem hw'
      exact hno (h.waiters.eq_of_owner hw hw' e.symm ▸ hhit)
  · rw [hpc] at hx
    by_cases hold : x ∈ s.fibers.lists .parked
    · have hxs : x ∈ (s.waiters.filter hit).map (·.fiber) :=
        not_not.mp fun hno => hpark ((hd.mem_parked x).mpr ⟨hold, hno⟩)
      obtain ⟨w, hw, e⟩ := List.mem_map.mp hxs
      obtain ⟨hw, hhit⟩ := List.mem_filter.mp hw
      subst e
      have hown := h.waiters.of_mem w hw
      simp only [hx, Pc.watch, Cause.watch, Option.some.injEq, Watch.mk.injEq] at hown
      obtain ⟨rfl, rfl, -, -⟩ := hown
      exact hsince (htold w hw hhit)
    · exact hsince (h.plain x fd events record hx hold)
  · rw [hpc]
    exact (h.told x).mono fun _ _ => hsince

omit [DecidableEq X] in
theorem take {l : List X} (h : s.Exact) (hs : s.Sound)
    (hd : ∀ y, y ∈ s'.fibers.lists .parked ↔ y ∈ s.fibers.lists .parked ∧ y ∉ l)
    (hxs : ∀ y ∈ l, ¬s.InPlainIo y) (hw : s'.waiters = s.waiters) (hf : s'.fired = s.fired)
    (hn : s'.next = s.next) (hpc : s'.pc = s.pc) (hsince : s'.since = s.since) : s'.Exact := by
  have hc : s'.Concerned = s.Concerned := by
    unfold Concerned
    rw [hsince]
  refine ⟨?_, fun w hmem ho => ?_, ?_, fun x fd events record hx hmem => ?_, ?_⟩
  · rw [hw, hpc, hn]
    exact h.waiters
  · rw [hw] at hmem
    refine (hd _).mpr ⟨h.parked w hmem ho, fun hx => hxs _ hx ?_⟩
    exact ⟨_, _, _, h.plain_of_owned hs hmem ho⟩
  · rw [hw, hf, hpc, hc]
    exact h.fired
  · rw [hpc] at hx
    rw [hc]
    refine h.plain x fd events record hx fun hold => hmem ((hd x).mpr ⟨hold, fun hmem' => ?_⟩)
    exact hxs x hmem' ⟨_, _, _, hx⟩
  · rw [hpc, hc]
    exact h.told

omit [DecidableEq X] in
theorem sublist (h : s.Exact) (hl : l.Sublist s.waiters) : { s with waiters := l }.Exact where
  waiters := h.waiters.sublist hl
  parked w hw := h.parked w (hl.subset hw)
  fired x d hd hf := (h.fired x d hd hf).imp_right fun hn w hw => hn w (hl.subset hw)
  plain := h.plain
  told := h.told

theorem add {w : Waiter X Fd} (h : s.Exact) (hx : (s.pc w.fiber).watch = none) (hid : w.id = s.next)
    (hw : s'.waiters = w :: s.waiters) (hf : s'.fired = Function.update s.fired s.next false)
    (hn : s'.next = s.next + 1) (hpc : ∀ y, y ≠ w.fiber → s'.pc y = s.pc y)
    (hpx : (s'.pc w.fiber).watch = some ⟨w.fd, w.events, w.stackOwned, w.id⟩)
    (hp : ∀ y, y ∈ s'.fibers.lists .parked ↔
      y ∈ s.fibers.lists .parked ∨ w.stackOwned = false ∧ y = w.fiber)
    (hsince : s'.since = s.since) (ht : (s'.pc w.fiber).Reported (s.Concerned w.fiber)) :
    s'.Exact := by
  have hc : s'.Concerned = s.Concerned := by
    unfold Concerned
    rw [hsince]
  refine ⟨?_, fun w' hmem ho => ?_, fun y d hd hfired => ?_, fun y fd events record hy hmem => ?_,
    fun y => ?_⟩
  · rw [hw, hn]
    exact h.waiters.add hx hpx hid fun y hy => by rw [hpc y hy]
  · rw [hw] at hmem
    rcases List.mem_cons.mp hmem with rfl | hmem
    · exact (hp _).mpr (.inr ⟨ho, rfl⟩)
    · exact (hp _).mpr (.inl (h.parked w' hmem ho))
  · rw [hf] at hfired
    rw [hw, hc]
    by_cases hy : y = w.fiber
    · rw [hy, hpx] at hd
      cases hd
      rw [hid, Function.update_self] at hfired
      cases hfired
    · rw [hpc y hy] at hd
      have hlt := h.waiters.lt y d hd
      rw [Function.update_of_ne (Nat.ne_of_lt hlt)] at hfired
      obtain ⟨h1, h2⟩ := h.fired y d hd hfired
      refine ⟨h1, fun w' hw' => ?_⟩
      rcases List.mem_cons.mp hw' with rfl | hw'
      · exact fun e => hy e.symm
      · exact h2 w' hw'
  · rw [hp y, not_or] at hmem
    rw [hc]
    by_cases hyx : y = w.fiber
    · subst hyx
      simp only [hy, Pc.watch, Cause.watch, Option.some.injEq, Watch.mk.injEq] at hpx
      exact absurd ⟨hpx.2.2.1.symm, rfl⟩ hmem.2
    · rw [hpc y hyx] at hy
      exact h.plain y fd events record hy hmem.1
  · rw [hc]
    by_cases hy : y = w.fiber
    · rw [hy]
      exact ht
    · rw [hpc y hy]
      exact h.told y

theorem start (h : s.Exact) (hx : (s.pc x).watch = none) :
    ({ s with since := Function.update s.since x [] }.goto x
      (.ioEnter fd events deadline)).Exact := by
  have hc {y fd events} (hy : y ≠ x) (hc : s.Concerned y fd events) :
      ({ s with since := Function.update s.since x [] }.goto x (.ioEnter fd events deadline) :
        System X T Fd).Concerned y fd events := by
    unfold Concerned
    show ∃ o ∈ Function.update s.since x [] y, _
    rw [Function.update_of_ne hy]
    exact hc
  refine ⟨h.waiters.congr (goto_eq (s := { s with since := _ }) (q := .ioEnter ..) (f := Pc.watch)
    hx.symm), h.parked, fun y d hd hf => ?_, fun y fd events record hy hmem => ?_, fun y => ?_⟩
  · by_cases hy : y = x
    · rw [hy, goto_pc_self] at hd
      cases hd
    · rw [goto_pc_of_ne hy] at hd
      exact (h.fired y d hd hf).imp_left (hc hy)
  · by_cases hyx : y = x
    · rw [hyx, goto_pc_self] at hy
      cases hy
    · rw [goto_pc_of_ne hyx] at hy
      exact hc hyx (h.plain y fd events record hy hmem)
  · by_cases hy : y = x
    · rw [hy, goto_pc_self]
      trivial
    · rw [goto_pc_of_ne hy]
      exact (h.told y).mono fun _ _ => hc hy

theorem unlist_finish (h : s.Exact) (hx : (s.pc x).watch = c.watch e) (hr : r ≠ .done) :
    ((s.unlist c).finish x c e r).Exact := by
  have ht (told : Fd → Interest → Prop) : r.Reported told c := fun _ _ _ _ e => absurd e hr
  rw [finish_eq]
  cases c with
  | task t =>
    exact h.goto Pc.finished_queue (.inl (Pc.finished_watch.trans hx.symm))
      (Pc.finished_reported.mpr (ht _))
  | io fd events record =>
    have h' := h.sublist (List.eraseP_sublist (p := fun w => decide (w.id = record)))
    refine h'.goto Pc.finished_queue (.inr ⟨Pc.finished_watch, ?_⟩)
      (Pc.finished_reported.mpr (ht _))
    exact h.waiters.erase_not_mem (d := ⟨fd, events, e.isSome, record⟩) hx

theorem topSection (h : s.Exact) (hx : s.pc x = .top c e) : (s.topSection x c e).Exact := by
  have hw : (s.pc x).watch = c.watch e := by rw [hx]; rfl
  unfold System.topSection
  split
  · next hready =>
    rw [finish_eq]
    cases c with
    | task t =>
      exact h.goto Pc.finished_queue (.inl (Pc.finished_watch.trans hw.symm))
        (Pc.finished_reported.mpr fun _ _ _ hc => by cases hc)
    | io fd events record =>
      obtain ⟨h1, h2⟩ := h.fired x ⟨fd, events, e.isSome, record⟩ hw hready
      refine h.goto Pc.finished_queue (.inr ⟨Pc.finished_watch, h2⟩)
        (Pc.finished_reported.mpr fun _ _ _ hc _ => ?_)
      cases hc
      exact h1
  · split
    · exact h.unlist_finish hw fun e => by cases e
    · exact h.park hw.symm

theorem ioEnter (h : s.Exact) (hx : s.pc x = .ioEnter fd events deadline) :
    (s.ioEnterSection x fd events deadline).Exact := by
  have hw : (s.pc x).watch = none := by rw [hx]; rfl
  cases deadline with
  | none =>
    refine h.add (w := ⟨fd, events, x, false, s.next⟩) hw rfl rfl rfl rfl
      (fun y hy => goto_pc_of_ne hy) ?_ (fun y => ?_) rfl ?_
    · show ((System.goto _ x _).pc x).watch = _
      rw [goto_pc_self]
      rfl
    · show y ∈ (s.fibers.parkFront .parked x).lists .parked ↔ _
      rw [parkFront_parked, List.mem_cons, or_comm]
      simp
    · show ((System.goto _ x _).pc x).Reported _
      rw [goto_pc_self]
      trivial
  | some d =>
    refine h.add (w := ⟨fd, events, x, true, s.next⟩) hw rfl rfl rfl rfl
      (fun y hy => goto_pc_of_ne hy) ?_ (fun y => ?_) rfl ?_
    · show ((System.goto _ x _).pc x).watch = _
      rw [goto_pc_self]
      rfl
    · exact (or_iff_left fun h => Bool.noConfusion h.1).symm
    · show ((System.goto _ x _).pc x).Reported _
      rw [goto_pc_self]
      trivial

theorem resume (h : s.Exact) (hs : s.Sound) (hx : s.pc x = .swap c e)
    (hr : s.fibers.state x = .ready) :
    ({ s with fibers := s.fibers.resume x }.goto x (.resumed c e)).Exact := by
  have h' : { s with fibers := s.fibers.resume x }.Exact :=
    h.congr rfl rfl (Nat.le_refl _) (fun _ => .rfl) rfl fun _ _ _ => id
  have hmem : x ∉ s.fibers.lists .parked :=
    hs.waiting.ok.not_mem (by rw [hr]; exact fun e => by cases e) _
  have hw : c.watch e = (s.pc x).watch := by rw [hx]; rfl
  cases c with
  | task t =>
    exact h'.goto (by cases e <;> rfl) (.inl (by cases e <;> exact hw)) (by cases e <;> trivial)
  | io fd events record =>
    cases e with
    | some m => exact h'.goto rfl (.inl hw) trivial
    | none =>
      refine h'.goto rfl (.inr ⟨rfl, h.not_listed hx hmem⟩) fun _ _ _ hc _ => ?_
      cases hc
      exact h.plain x fd events record hx hmem

theorem publish (h : s.Exact) (p : Publisher X) :
    { s with fibers := s.fibers.publish (.hand p) }.Exact := by
  have hne : (Place.parked : Place X) ≠ .hand p := fun e => by cases e
  refine h.congr rfl rfl (Nat.le_refl _) (fun y => ?_) rfl fun _ _ _ => id
  rw [Parking.publish_lists_of_ne hne]

theorem complete [DecidableEq T] (h : s.Exact) (hs : s.Sound) (t : T)
    (hguard : ∀ y ∈ s.fibers.lists .parked, ¬s.InPlainIo y) (hx : s.pc x = .user) :
    (s.completeSection x t).Exact := by
  have hne : (Place.parked : Place X) ≠ .hand (.fiber x) := fun e => by cases e
  have h' : { s with
      done := Function.update s.done t true
      fibers := s.fibers.shift .parked (.hand (.fiber x)) (s.fibers.lists .parked) [] }.Exact := by
    refine h.take (l := s.fibers.lists .parked) hs (fun y => ?_) hguard rfl rfl rfl rfl rfl
    rw [Parking.shift_lists_self hne]
    exact iff_of_false List.not_mem_nil fun hy => hy.2 hy.1
  have hw : none = (s.pc x).watch := by rw [hx]; rfl
  exact h'.goto rfl (.inl hw) trivial

theorem timerRound (h : s.Exact) (hs : s.Sound) : s.timerRound.Exact := by
  obtain ⟨-, hd⟩ := detachAll_detached (p := .timer) hs.waiting
    ((s.timers.takeWhile (·.deadline ≤ s.now)).map (·.fiber))
  refine h.take hs hd.mem_parked (fun y hy => ?_) rfl rfl rfl rfl rfl
  obtain ⟨e, he, rfl⟩ := List.mem_map.mp hy
  rintro ⟨fd, events, record, hpc⟩
  have := hs.timers.of_mem e ((List.takeWhile_sublist _).subset he)
  rw [hpc] at this
  cases this

variable [DecidableEq Fd]

theorem reactorEvents (h : s.Exact) (hs : s.Sound) {evs : List (Event Fd)}
    (hfresh : ∀ ev ∈ evs, ∀ w ∈ s.waiters, ev.hits w → .report ev ∈ s.since w.fiber) :
    (evs.foldl System.reactorEvent s).Exact := by
  induction evs generalizing s with
  | nil => exact h
  | cons ev evs ih =>
    refine ih ?_ (hs.fireWaiters .reactor _) fun ev' hev w hw hhit => ?_
    · refine h.fireWaiters hs .reactor fun w hw hhit => ?_
      exact ⟨_, hfresh ev List.mem_cons_self w hw hhit, Event.concerns_of_hits hhit⟩
    · rw [System.reactorEvent, fireWaiters_eq] at hw ⊢
      exact hfresh ev' (List.mem_cons_of_mem _ hev) w (List.mem_filter.mp hw).1 hhit

theorem reactorRound (h : s.Exact) (hs : s.Sound)
    (hfresh : ∀ ev ∈ s.batch, ∀ w ∈ s.waiters, ev.hits w → .report ev ∈ s.since w.fiber) :
    s.reactorRound.Exact :=
  (h.reactorEvents hs hfresh).congr rfl rfl (Nat.le_refl _) (fun _ => .rfl) rfl fun _ _ _ => id

theorem closeFd (h : s.Exact) (hs : s.Sound) (fd : Fd) (hx : s.pc x = .user) :
    (s.closeSection x fd).Exact := by
  have hw : none = (s.pc x).watch := by rw [hx]; rfl
  refine ((h.note [.closed fd]).fireWaiters (hs.note _) (.fiber x) fun w hw hhit => ?_).goto rfl
    (.inl ?_) trivial
  · exact ⟨.closed fd, List.mem_cons_self .., (of_decide_eq_true hhit).symm⟩
  · rw [fireWaiters_pc]
    exact hw

end Exact

variable [DecidableEq X] [DecidableEq T] [DecidableEq Fd] {a : Action X T}

theorem Exact.step (h : s.Exact) (hs : s.Sound) (hguard : s.Guard a) (hstep : Step s a s') :
    s'.Exact := by
  have hgoto {x : X} {pc q : Pc T Fd} (hx : s.pc x = pc) (hq : q.queue X = none)
      (hw : q.watch = pc.watch) (ht : q.Reported (s.Concerned x)) : (s.goto x q).Exact := by
    subst hx
    exact h.goto hq (.inl hw) ht
  have hclear {x : X} : (s.clearCancel x).Exact :=
    h.congr rfl rfl (Nat.le_refl _) (fun _ => .rfl) rfl fun _ _ _ => id
  cases hstep with
  | taskStart t hx => exact hgoto hx rfl rfl trivial
  | @taskEnter x t hx =>
    unfold taskEnterSection
    split
    · have hw : none = (s.pc x).watch := by rw [hx]; rfl
      exact hclear.goto rfl (.inl hw) fun _ _ _ hc => by cases hc
    · exact hgoto hx rfl rfl trivial
  | timedEnter t deadline hx =>
    have h' := hgoto (q := .top (.task t) (some ⟨deadline, s.next⟩)) hx rfl rfl trivial
    exact h'.congr rfl rfl (Nat.le_succ _) (fun _ => .rfl) rfl fun _ _ _ => id
  | ioStart fd events timeoutMs hx => exact h.start (by rw [hx]; rfl)
  | ioEnter hx => exact h.ioEnter hx
  | ioFail hx => exact hgoto hx rfl rfl fun _ _ _ _ hr => by cases hr
  | top hx => exact h.topSection hx
  | resume hx hr => exact h.resume hs hx hr
  | @woken x c e hx =>
    have hw : c.watch e = (s.pc x).watch := by rw [hx]; rfl
    unfold wokenSection
    split
    · cases c with
      | task t => exact hclear.unlist_finish (c := .task t) hw.symm fun e => by cases e
      | io fd events record => exact hclear.goto rfl (.inl hw) trivial
    · exact h.goto rfl (.inl hw) trivial
  | withdraw hx => exact h.unlist_finish (by rw [hx]; rfl) fun e => by cases e
  | @cancelTimer x c e r hx =>
    have ht : (Pc.ended c (some e) r).Reported (s.Concerned x) := by
      have := h.told x
      rw [hx] at this
      exact this
    have h' := hgoto (q := .ended c (some e) r) hx rfl rfl ht
    exact h'.congr rfl rfl (Nat.le_refl _) (fun _ => .rfl) rfl fun _ _ _ => id
  | ended hx => exact hgoto hx rfl rfl trivial
  | complete t hx => exact h.complete hs t hguard hx
  | closeFd fd hx => exact h.closeFd hs fd hx
  | publish => exact h.publish _
  | published hx => exact hgoto hx rfl rfl trivial
  | timerRound => exact h.timerRound hs
  | timerPublish => exact h.publish _
  | reactorFetch evs =>
    exact (h.note _).congr rfl rfl (Nat.le_refl _) (fun _ => .rfl) rfl fun _ _ _ => id
  | reactorRound => exact h.reactorRound hs hguard
  | reactorPublish => exact h.publish _
  | tick => exact h.congr rfl rfl (Nat.le_refl _) (fun _ => .rfl) rfl fun _ _ _ => id
  | cancel => exact h.congr rfl rfl (Nat.le_refl _) (fun _ => .rfl) rfl fun _ _ _ => id

/-- What is expected of the waits for a descriptor that have ended: success is reported, and no
waiter of the fiber is listed. -/
def IoExact (s : System X T Fd) : Prop :=
  ∀ x fd events record e r, s.pc x = .ended (.io fd events record) e r →
    (r = .done → ∃ o ∈ s.since x, o.Concerns fd events) ∧ ∀ w ∈ s.waiters, w.fiber ≠ x

/-- In every run in which each task is completed while no fiber is suspended in a wait for a
descriptor without a deadline, and no fetched event hits a wait that began after it, a wait that
succeeds was told of a requested event or an error of its descriptor, or of its closing, since it
began; and no waiter of a fiber whose wait ended is listed. -/
theorem io_wait_exact (h : Steps (Steps.guarded Step Guard) (initial : System X T Fd) as s) :
    s.IoExact := by
  have hinv := h.preserves (P := fun s => s.Sound ∧ s.Exact)
    (fun _ _ _ hs h => ⟨h.1.step hs.2, h.2.step h.1 hs.1 hs.2⟩) ⟨.initial, .initial⟩
  intro x fd events record e r hx
  refine ⟨fun hr => ?_, hinv.2.waiters.not_mem (by rw [hx]; rfl)⟩
  have := hinv.2.told x
  rw [hx] at this
  exact this fd events record rfl hr

/-- Fiber `0` waits to read descriptor `3`, which becomes readable. -/
theorem io_wait_exact_readable :
    ∃ s : System Nat Nat Nat, s.pc 0 = .ended (.io 3 ⟨true, false⟩ 0) none .done ∧ s.IoExact := by
  let ev : Event Nat := ⟨3, true, false, false, false, false⟩
  let s₁ : System Nat Nat Nat := initial.ioStart 0 3 ⟨true, false⟩ (-1)
  let s₂ := s₁.ioEnterSection 0 3 ⟨true, false⟩ none
  let s₃ := s₂.fetch [ev]
  let s₄ := s₃.reactorRound
  let s₅ := { s₄ with fibers := s₄.fibers.publish (.hand .reactor) }
  let s₆ := { s₅ with fibers := s₅.fibers.resume 0 }.goto 0 (.resumed (.io 3 ⟨true, false⟩ 0) none)
  have hg {s s' : System Nat Nat Nat} (hs : Step s .other s') :
      Steps.guarded Step Guard s .other s' := ⟨trivial, hs⟩
  have h₁ : Step initial .other s₁ := .ioStart 3 ⟨true, false⟩ (-1) rfl
  have h₂ : Step s₁ .other s₂ := .ioEnter rfl
  have h₃ : Step s₂ .other s₃ := .reactorFetch [ev] rfl rfl
  have h₄ : Steps.guarded Step Guard s₃ .round s₄ := by
    refine ⟨fun ev' hev w hw _ => ?_, .reactorRound⟩
    obtain rfl := List.mem_singleton.mp hev
    obtain rfl := List.mem_singleton.mp hw
    exact List.mem_cons_self
  have h₅ : Step s₄ .other s₅ := .reactorPublish
  have h₆ : Step s₅ .other s₆ := .resume rfl rfl
  exact ⟨s₆, rfl, io_wait_exact <| .cons (hg h₁) <| .cons (hg h₂) <| .cons (hg h₃) <|
    .cons h₄ <| .cons (hg h₅) <| .cons (hg h₆) .nil⟩

/-- Fiber `0` waits to read descriptor `3`; fiber `1` completes a task, and the wait succeeds though
nothing happened to the descriptor. -/
theorem io_wait_unrelated : ¬∀ s : System Nat Nat Nat, s.Reachable → s.IoExact := by
  let s₁ : System Nat Nat Nat := initial.ioStart 0 3 ⟨true, false⟩ (-1)
  let s₂ := s₁.ioEnterSection 0 3 ⟨true, false⟩ none
  let s₃ := s₂.completeSection 1 7
  let s₄ := { s₃ with fibers := s₃.fibers.publish (.hand (.fiber 1)) }
  let s₅ := { s₄ with fibers := s₄.fibers.resume 0 }.goto 0 (.resumed (.io 3 ⟨true, false⟩ 0) none)
  have h : s₅.Reachable := by
    refine ⟨_, .cons (.ioStart 3 ⟨true, false⟩ (-1) rfl) <| .cons (.ioEnter rfl) <|
      .cons (.complete 7 rfl) <| .cons (.publish rfl ?_) <| .cons (.resume rfl rfl) .nil⟩
    exact List.cons_ne_nil 0 []
  intro hall
  obtain ⟨o, ho, -⟩ := (hall s₅ h 0 3 ⟨true, false⟩ 0 none .done rfl).1 rfl
  exact absurd ho List.not_mem_nil

/-- The reactor fetches an event of descriptor `3`; then fiber `0` waits to read the descriptor, and
the wait succeeds though nothing has happened since it began. -/
theorem io_wait_stale : ¬∀ s : System Nat Nat Nat, s.Reachable → s.IoExact := by
  let s₁ : System Nat Nat Nat := initial.fetch [⟨3, true, false, false, false, false⟩]
  let s₂ := s₁.ioStart 0 3 ⟨true, false⟩ (-1)
  let s₃ := s₂.ioEnterSection 0 3 ⟨true, false⟩ none
  let s₄ := s₃.reactorRound
  let s₅ := { s₄ with fibers := s₄.fibers.publish (.hand .reactor) }
  let s₆ := { s₅ with fibers := s₅.fibers.resume 0 }.goto 0 (.resumed (.io 3 ⟨true, false⟩ 0) none)
  have h : s₆.Reachable :=
    ⟨_, .cons (.reactorFetch _ rfl rfl) <| .cons (.ioStart 3 ⟨true, false⟩ (-1) rfl) <|
      .cons (.ioEnter rfl) <| .cons .reactorRound <| .cons .reactorPublish <|
      .cons (.resume rfl rfl) .nil⟩
  intro hall
  obtain ⟨o, ho, -⟩ := (hall s₆ h 0 3 ⟨true, false⟩ 0 none .done rfl).1 rfl
  exact absurd ho List.not_mem_nil

end System

end Cajeta.Concurrent.FiberWait
