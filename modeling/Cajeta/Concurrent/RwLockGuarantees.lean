import Cajeta.Concurrent.RwLock

/-!
# The reader-writer lock is safe and forgets nobody

The counters count the holders and the waiting writers, a writer is alone, and a lock that is free
while fibers queue up for it has a party on its way to it.
-/

namespace Cajeta.Concurrent.RwLock

/-- The queue for which a fiber suspends itself. -/
def Pc.queue (X T : Type) : Pc → Option (Place X T)
  | .rdSwap => some .rwait
  | .wrSwap => some .wwait
  | _ => none

/-- The wait queues, as against the lists that are being published. -/
def Place.waits : Place X T → Prop
  | .rwait => True
  | .wwait => True
  | .hand _ => False

/-- Fibers swap out and threads wait on the condition variable. -/
def Pc.fits : Party X T → Pc → Prop
  | .fiber _, pc => ∀ b, pc ≠ .rdWait b ∧ pc ≠ .wrWait b
  | .thread _, pc => pc ≠ .rdSwap ∧ pc ≠ .wrSwap

namespace System
variable {X T : Type} [DecidableEq X] [DecidableEq T] {s s' : System X T} {p q : Party X T}
variable {pc : Pc}

theorem goto_pc : (s.goto p pc).pc q = if q = p then pc else s.pc q := Function.update_apply ..

@[simp] theorem goto_pc_self : (s.goto p pc).pc p = pc := Function.update_self ..

theorem goto_pc_of_ne (h : q ≠ p) : (s.goto p pc).pc q = s.pc q := Function.update_of_ne h ..

theorem wrSection_goto (a : Pc) : (s.goto p a).wrSection p = s.wrSection p := by
  cases p <;> simp only [wrSection, wait, goto, Function.update_idem] <;> rfl

theorem writes_signalled : (signalled pc).writes = pc.writes := by cases pc <;> rfl

omit [DecidableEq X] [DecidableEq T] in
theorem queue_signalled : (signalled pc).queue X T = pc.queue X T := by cases pc <;> rfl

theorem publishing_signalled : signalled pc = .publishing ↔ pc = .publishing := by
  cases pc <;> simp [signalled]

omit [DecidableEq X] [DecidableEq T] in
theorem fits_signalled (h : pc.fits p) : (signalled pc).fits p := by
  cases p with
  | fiber x =>
    intro b
    have hb := h b
    cases pc <;> simp_all [signalled, Pc.fits]
  | thread t => cases pc <;> simp_all [signalled, Pc.fits]

theorem wait_eq (s : System X T) (r : Place X T) (swap thread : Pc) (p : Party X T) :
    ∃ fibers pc, s.wait r swap thread p = { s with fibers }.goto p pc ∧
      ((∃ x, p = .fiber x ∧ fibers = s.fibers.park r x ∧ pc = swap) ∨
        ∃ t, p = .thread t ∧ fibers = s.fibers ∧ pc = thread) := by
  cases p with
  | fiber x => exact ⟨_, _, rfl, .inl ⟨x, rfl, rfl, rfl⟩⟩
  | thread t => exact ⟨_, _, rfl, .inr ⟨t, rfl, rfl, rfl⟩⟩

/-! ## Counters -/

namespace Writers

theorem goto {a : Pc} (h : s.Writers l) (hp : a.writes = (s.pc p).writes) :
    (s.goto p a).Writers l where
  nodup := h.nodup
  mem q := by
    rw [h.mem q, goto_pc]
    split
    · next e => rw [hp, e]
    · rfl
  length := h.length

theorem enter (h : s.Writers l) (hp : (s.pc p).writes = false) (hpc : pc.writes = true)
    (hw : s'.writersWaiting = s.writersWaiting + 1) (hs : s'.pc = (s.goto p pc).pc) :
    s'.Writers (p :: l) where
  nodup := by
    have hpl : p ∉ l := fun hl => by
      have := (h.mem p).mp hl
      rw [hp] at this
      cases this
    exact List.nodup_cons.mpr ⟨hpl, h.nodup⟩
  mem q := by
    rw [hs, goto_pc, List.mem_cons]
    split
    · next e => exact iff_of_true (.inl e) hpc
    · next e => rw [← h.mem q]; exact or_iff_right e
  length := by rw [hw, h.length, List.length_cons]

theorem leave (h : s.Writers l) (hp : (s.pc p).writes = true) (hpc : pc.writes = false)
    (hw : s'.writersWaiting = s.writersWaiting - 1) (hs : s'.pc = (s.goto p pc).pc) :
    s'.Writers (l.erase p) where
  nodup := h.nodup.erase p
  mem q := by
    rw [hs, goto_pc, h.nodup.mem_erase_iff]
    split
    · next e => exact iff_of_false (fun hq => hq.1 e) (by rw [hpc]; exact Bool.false_ne_true)
    · next e => rw [← h.mem q]; exact and_iff_right e
  length := by rw [hw, h.length, List.length_erase_of_mem ((h.mem p).mpr hp)]

omit [DecidableEq X] [DecidableEq T] in
theorem congr (h : s.Writers l) (hw : s'.writersWaiting = s.writersWaiting)
    (hs : ∀ q, (s'.pc q).writes = (s.pc q).writes) : s'.Writers l where
  nodup := h.nodup
  mem q := by rw [hs, h.mem q]
  length := by rw [hw, h.length]

end Writers

namespace Counted

omit [DecidableEq X] [DecidableEq T] in
theorem congr (h : s.Counted) (hr : s'.readers = s.readers) (hw : s'.writer = s.writer)
    (hreading : s'.reading = s.reading) (hwriting : s'.writing = s.writing)
    (hl : ∃ l, s'.Writers l) : s'.Counted := by
  refine ⟨?_, ?_, ?_, hl⟩
  · rw [hr, hreading, h.readers]
  · rw [hw, hwriting, h.writer]
  · rw [hr, hw]
    exact h.alone

theorem goto {a : Pc} (h : s.Counted) (hp : a.writes = (s.pc p).writes) :
    (s.goto p a).Counted := by
  obtain ⟨l, hl⟩ := h.writers
  exact h.congr rfl rfl rfl rfl ⟨l, hl.goto hp⟩

theorem rdSection (h : s.Counted) (hp : (s.pc p).writes = false) : (s.rdSection p).Counted := by
  obtain ⟨l, hl⟩ := h.writers
  unfold System.rdSection
  split
  · next hc =>
    rw [Bool.and_eq_true, Bool.not_eq_true'] at hc
    refine ⟨?_, h.writer, fun hw => ?_, l, ?_⟩
    · exact congrArg (· + 1) h.readers
    · exact absurd hc.1 (by rw [show s.writer = true from hw]; exact fun e => by cases e)
    · exact (hl.goto (a := .user) hp.symm).congr rfl fun _ => rfl
  · obtain ⟨fibers, pc, e, hc⟩ := wait_eq s .rwait .rdSwap (.rdWait false) p
    rw [e]
    have hpc : pc.writes = false := by
      rcases hc with ⟨x, -, -, rfl⟩ | ⟨t, -, -, rfl⟩ <;> rfl
    exact h.congr rfl rfl rfl rfl
      ⟨l, (hl.goto (hpc.trans hp.symm)).congr rfl fun _ => rfl⟩

theorem wrSection (h : s.Counted) (hp : (s.pc p).writes = true) : (s.wrSection p).Counted := by
  obtain ⟨l, hl⟩ := h.writers
  unfold System.wrSection
  split
  · next hc =>
    rw [Bool.and_eq_true, Bool.not_eq_true', decide_eq_true_eq] at hc
    have hw := h.writer
    rw [hc.1] at hw
    refine ⟨h.readers, ?_, fun _ => hc.2, l.erase p, hl.leave hp rfl rfl rfl⟩
    exact congrArg (· + 1) hw
  · obtain ⟨fibers, pc, e, hc⟩ := wait_eq s .wwait .wrSwap (.wrWait false) p
    rw [e]
    have hpc : pc.writes = true := by
      rcases hc with ⟨x, -, -, rfl⟩ | ⟨t, -, -, rfl⟩ <;> rfl
    exact h.congr rfl rfl rfl rfl
      ⟨l, (hl.goto (hpc.trans hp.symm)).congr rfl fun _ => rfl⟩

theorem wrlock (h : s.Counted) (hp : s.pc p = .user) : (s.wrlock p).Counted := by
  obtain ⟨l, hl⟩ := h.writers
  have hc : ({ s with writersWaiting := s.writersWaiting + 1 }.goto p .wrTop).Counted :=
    h.congr rfl rfl rfl rfl ⟨p :: l, hl.enter (by rw [hp]; rfl) rfl rfl rfl⟩
  have hsec := hc.wrSection (p := p) (by rw [goto_pc_self]; rfl)
  rwa [wrSection_goto] at hsec

theorem wakeAll (h : s.Counted) (p : Party X T) : (s.wakeAll p).Counted := by
  obtain ⟨l, hl⟩ := h.writers
  exact h.congr rfl rfl rfl rfl ⟨l, hl.congr rfl fun _ => writes_signalled⟩

theorem rdunlock (h : s.Counted) (hp : s.pc p = .user) (hr : p ∈ s.reading) :
    (s.rdunlock p).Counted := by
  obtain ⟨l, hl⟩ := h.writers
  have hlen : s.readers - 1 = (s.reading.erase p).length := by
    rw [h.readers, List.length_erase_of_mem hr]
  have hc : { s with readers := s.readers - 1, reading := s.reading.erase p }.Counted :=
    ⟨hlen, h.writer, fun hw => by rw [show s.readers = 0 from h.alone hw], l,
      hl.congr rfl fun _ => rfl⟩
  unfold System.rdunlock
  dsimp only
  split
  · refine (hc.wakeAll p).goto ?_
    show Pc.publishing.writes = (signalled (s.pc p)).writes
    rw [writes_signalled, hp]
    rfl
  · refine hc.goto ?_
    show Pc.publishing.writes = (s.pc p).writes
    rw [hp]
    rfl

theorem wrunlock (h : s.Counted) (hp : s.pc p = .user) (hw : p ∈ s.writing) :
    (s.wrunlock p).Counted := by
  obtain ⟨l, hl⟩ := h.writers
  have hone : s.writing.length = 1 ∧ s.readers = 0 := by
    have hlen := h.writer
    cases hwr : s.writer with
    | false =>
      rw [hwr] at hlen
      rw [List.length_eq_zero_iff.mp hlen] at hw
      cases hw
    | true => exact ⟨by rw [hlen, hwr]; rfl, h.alone hwr⟩
  have hc : { s with writer := false, writing := s.writing.erase p }.Counted := by
    refine ⟨h.readers, ?_, fun hw => (by cases hw), l, hl.congr rfl fun _ => rfl⟩
    show (s.writing.erase p).length = 0
    rw [List.length_erase_of_mem hw, hone.1]
  refine (hc.wakeAll p).goto ?_
  show Pc.publishing.writes = (signalled (s.pc p)).writes
  rw [writes_signalled, hp]
  rfl

theorem step (h : s.Counted) (hs : Step s s') : s'.Counted := by
  cases hs with
  | rdlock hp => exact h.rdSection (by rw [hp]; rfl)
  | rdRetry hp => exact h.rdSection (by rw [hp]; rfl)
  | wrlock hp => exact h.wrlock hp
  | wrRetry hp => exact h.wrSection (by rw [hp]; rfl)
  | rdResume hp =>
    have hg := h.goto (a := .rdTop) (by rw [hp]; rfl)
    exact hg.congr rfl rfl rfl rfl (hg.writers.imp fun _ hl => hl.congr rfl fun _ => rfl)
  | wrResume hp =>
    have hg := h.goto (a := .wrTop) (by rw [hp]; rfl)
    exact hg.congr rfl rfl rfl rfl (hg.writers.imp fun _ hl => hl.congr rfl fun _ => rfl)
  | rdWake hp => exact h.goto (by rw [hp]; rfl)
  | wrWake hp => exact h.goto (by rw [hp]; rfl)
  | rdunlock hp hr => exact h.rdunlock hp hr
  | wrunlock hp hw => exact h.wrunlock hp hw
  | publish => exact h.congr rfl rfl rfl rfl (h.writers.imp fun _ hl => hl.congr rfl fun _ => rfl)
  | published hp => exact h.goto (by rw [hp]; rfl)

end Counted

/-! ## The queues -/

theorem take {r : Place X T} {m : Parking (Place X T) X}
    {want : X → Option (Place X T)} {Publishes : Party X T → Prop}
    (h : m.Waiting Place.waits want) (hr : r.waits)
    (hp : ∀ q, q ≠ p → m.lists (.hand q) ≠ [] → Publishes q) :
    (m.shift r (.hand p) (m.lists r) []).Waiting Place.waits want ∧
      ∀ q, q ≠ p → (m.shift r (.hand p) (m.lists r) []).lists (.hand q) ≠ [] → Publishes q := by
  have hne : r ≠ .hand p := fun e => by rw [e] at hr; exact hr
  refine ⟨h.shift (.of_eq (List.append_nil _).symm) hne id, fun q hq hnil => ?_⟩
  have hqr : Place.hand q ≠ r := fun e => by rw [← e] at hr; exact hr
  refine hp q hq fun e => hnil ?_
  exact (Parking.shift_lists_of_ne hqr fun e => hq (Place.hand.inj e)).trans e

/-- The queues hold the fibers that are suspended for them, and a party holds fibers only while it
publishes. -/
structure Queued (s : System X T) : Prop where
  waiting : s.fibers.Waiting Place.waits fun x => (s.pc (.fiber x)).queue X T
  hand : ∀ p, s.fibers.lists (.hand p) ≠ [] → s.pc p = .publishing
  fits : ∀ p, (s.pc p).fits p

namespace Queued

omit [DecidableEq X] [DecidableEq T] in
theorem hand_nil (h : s.Queued) (hp : s.pc p ≠ .publishing) : s.fibers.lists (.hand p) = [] := by
  cases hl : s.fibers.lists (.hand p) with
  | nil => rfl
  | cons x xs => exact absurd (h.hand p (by rw [hl]; exact List.cons_ne_nil _ _)) hp

omit [DecidableEq X] [DecidableEq T] in
theorem congr (h : s.Queued) (hf : s'.fibers = s.fibers) (hpc : s'.pc = s.pc) : s'.Queued := by
  refine ⟨?_, ?_, ?_⟩
  · rw [hf]
    exact h.waiting.congr fun x => by rw [hpc]
  · rw [hf, hpc]
    exact h.hand
  · rw [hpc]
    exact h.fits

theorem fits_goto (h : s.Queued) (hp : pc.fits p) (q : Party X T) :
    ((s.goto p pc).pc q).fits q := by
  rw [goto_pc]
  split
  · next e => rwa [e]
  · exact h.fits q

theorem goto (h : s.Queued) (hq : pc.queue X T = (s.pc p).queue X T) (hfit : pc.fits p)
    (hp : s.fibers.lists (.hand p) = []) : (s.goto p pc).Queued := by
  refine ⟨h.waiting.congr fun x => ?_, fun q hne => ?_, h.fits_goto hfit⟩
  · rw [goto_pc]
    split
    · next e => rw [hq, e]
    · rfl
  · have hqp : q ≠ p := fun e => hne (e ▸ hp)
    exact (goto_pc_of_ne hqp).trans (h.hand q hne)

theorem goto_ne {x y : X} (hy : y ≠ x) :
    ((s.goto (.fiber x) pc).pc (.fiber y)).queue X T = (s.pc (.fiber y)).queue X T := by
  rw [goto_pc_of_ne fun e => hy (Party.fiber.inj e)]

theorem wait {r : Place X T} (h : s.Queued) (hx : (s.pc p).queue X T = none)
    (hp : s.fibers.lists (.hand p) = []) (hr : r.waits) (hswap : swap.queue X T = some r)
    (hthread : thread.queue X T = none) (hfit : ∀ x : X, swap.fits (T := T) (.fiber x))
    (hfit' : ∀ t : T, thread.fits (X := X) (.thread t)) : (s.wait r swap thread p).Queued := by
  cases p with
  | fiber x =>
    show ({ s with fibers := s.fibers.park r x }.goto (.fiber x) swap).Queued
    refine ⟨h.waiting.park hx ?_ fun _ => goto_ne, fun q hne => ?_, h.fits_goto (hfit x)⟩
    · rw [goto_pc_self, hswap]
    · have hqr : Place.hand q ≠ r := fun e => by rw [← e] at hr; exact hr
      have hne' : s.fibers.lists (.hand q) ≠ [] := fun e =>
        hne ((Parking.park_lists_of_ne hqr).trans e)
      have hqp : q ≠ .fiber x := fun e => hne' (e ▸ hp)
      exact (goto_pc_of_ne hqp).trans (h.hand q hne')
  | thread t => exact h.goto (hthread.trans hx.symm) (hfit' t) hp

theorem resume {x : X} (h : s.Queued) (hx : s.fibers.state x = .ready) (hpc : pc.queue X T = none)
    (hfit : pc.fits (T := T) (.fiber x)) (hp : s.fibers.lists (.hand (.fiber x)) = []) :
    ({ s with fibers := s.fibers.resume x }.goto (.fiber x) pc).Queued := by
  refine ⟨h.waiting.resume hx (by rw [goto_pc_self, hpc]) fun _ => goto_ne, fun q hne => ?_,
    h.fits_goto hfit⟩
  have hqp : q ≠ .fiber x := fun e => hne (e ▸ hp)
  exact (goto_pc_of_ne hqp).trans (h.hand q hne)

omit [DecidableEq X] [DecidableEq T] in
theorem fits_of_eq (h : pc = .user ∨ pc = .publishing) : pc.fits p := by
  cases p <;> rcases h with rfl | rfl <;> simp [Pc.fits]

theorem wakeAll (h : s.Queued) (hp : (s.pc p).queue X T = none) :
    ((s.wakeAll p).goto p .publishing).Queued := by
  obtain ⟨hr, hrh⟩ := take (r := .rwait) h.waiting trivial fun q (_ : q ≠ p) => h.hand q
  obtain ⟨hw, hwh⟩ := take (r := .wwait) hr trivial hrh
  have hlist : (s.fibers.shift .rwait (.hand p) (s.fibers.lists .rwait) []).lists .wwait =
      s.fibers.lists .wwait :=
    Parking.shift_lists_of_ne (fun e => by cases e) fun e => by cases e
  rw [hlist] at hw hwh
  refine ⟨hw.congr fun x => ?_, fun q hne => ?_, fun q => ?_⟩
  · rw [goto_pc]
    split
    · next e => rw [e, hp]; rfl
    · exact queue_signalled
  · rw [goto_pc]
    split
    · rfl
    · next e => exact publishing_signalled.mpr (hwh q e hne)
  · rw [goto_pc]
    split
    · exact fits_of_eq (.inr rfl)
    · exact fits_signalled (h.fits q)

theorem rdSection (h : s.Queued) (hp : (s.pc p).queue X T = none) (hne : s.pc p ≠ .publishing) :
    (s.rdSection p).Queued := by
  have hnil := h.hand_nil hne
  unfold System.rdSection
  split
  · have h' : { s with readers := s.readers + 1, reading := p :: s.reading }.Queued :=
      h.congr rfl rfl
    have hq : Pc.queue X T .user = (s.pc p).queue X T := hp.symm
    exact h'.goto hq (fits_of_eq (.inl rfl)) hnil
  · exact h.wait hp hnil trivial rfl rfl (fun _ b => by simp) fun _ => by simp [Pc.fits]

theorem wrSection (h : s.Queued) (hp : (s.pc p).queue X T = none) (hne : s.pc p ≠ .publishing) :
    (s.wrSection p).Queued := by
  have hnil := h.hand_nil hne
  unfold System.wrSection
  split
  · have h' : { s with
        writersWaiting := s.writersWaiting - 1
        writer := true
        writing := p :: s.writing }.Queued := h.congr rfl rfl
    have hq : Pc.queue X T .user = (s.pc p).queue X T := hp.symm
    exact h'.goto hq (fits_of_eq (.inl rfl)) hnil
  · exact h.wait hp hnil trivial rfl rfl (fun _ b => by simp) fun _ => by simp [Pc.fits]

theorem publish (h : s.Queued) (hp : s.pc p = .publishing) :
    { s with fibers := s.fibers.publish (.hand p) }.Queued := by
  refine ⟨h.waiting.publish _, fun q hnil => ?_, h.fits⟩
  by_cases hqp : q = p
  · exact hqp ▸ hp
  · refine h.hand q fun e => hnil ?_
    exact (Parking.publish_lists_of_ne fun e => hqp (Place.hand.inj e)).trans e

theorem step (h : s.Queued) (hs : Step s s') : s'.Queued := by
  have hnil {p : Party X T} {pc : Pc} (hp : s.pc p = pc) (hne : pc ≠ .publishing) :
      s.fibers.lists (.hand p) = [] := h.hand_nil (by rw [hp]; exact hne)
  cases hs with
  | rdlock hp => exact h.rdSection (by rw [hp]; rfl) (by rw [hp]; exact fun e => by cases e)
  | rdRetry hp => exact h.rdSection (by rw [hp]; rfl) (by rw [hp]; exact fun e => by cases e)
  | wrlock hp =>
    have h' : { s with writersWaiting := s.writersWaiting + 1 }.Queued := h.congr rfl rfl
    refine h'.wrSection ?_ ?_
    · exact congrArg (Pc.queue X T) hp
    · rw [show _ = Pc.user from hp]
      exact fun e => by cases e
  | wrRetry hp => exact h.wrSection (by rw [hp]; rfl) (by rw [hp]; exact fun e => by cases e)
  | rdResume hp hx =>
    exact h.resume hx rfl (fun _ => by simp) (hnil hp fun e => by cases e)
  | wrResume hp hx =>
    exact h.resume hx rfl (fun _ => by simp) (hnil hp fun e => by cases e)
  | rdWake hp => exact h.goto (by rw [hp]; rfl) (by simp [Pc.fits]) (hnil hp fun e => by cases e)
  | wrWake hp => exact h.goto (by rw [hp]; rfl) (by simp [Pc.fits]) (hnil hp fun e => by cases e)
  | @rdunlock p _ hp hr =>
    have h' : { s with readers := s.readers - 1, reading := s.reading.erase p }.Queued :=
      h.congr rfl rfl
    have hq : (s.pc p).queue X T = none := by rw [hp]; rfl
    have hnil' := hnil hp fun e => by cases e
    unfold System.rdunlock
    dsimp only
    split
    · exact h'.wakeAll hq
    · exact h'.goto hq.symm (fits_of_eq (.inr rfl)) hnil'
  | @wrunlock p _ hp hw =>
    have h' : { s with writer := false, writing := s.writing.erase p }.Queued := h.congr rfl rfl
    exact h'.wakeAll (congrArg (Pc.queue X T) hp)
  | publish hp => exact h.publish hp
  | published hp hl => exact h.goto (by rw [hp]; rfl) (fits_of_eq (.inl rfl)) hl

end Queued

/-! ## The waiting parties -/

/-- A free lock has no writer in its queue and none that waits unsignalled; readers queue up only
behind a writer. -/
structure Served (s : System X T) : Prop where
  wwait : s.Free → s.fibers.lists .wwait = []
  rwait : s.fibers.lists .rwait ≠ [] → s.writer = true ∨ 0 < s.writersWaiting
  thread : s.Free → ∀ p, s.pc p ≠ .wrWait false

namespace Served

omit [DecidableEq X] [DecidableEq T] in
theorem congr (h : s.Served) (hfree : s'.Free → s.Free) (hw : s'.writer = s.writer)
    (hww : s.writersWaiting ≤ s'.writersWaiting)
    (hwwait : s'.fibers.lists .wwait = s.fibers.lists .wwait)
    (hrwait : s'.fibers.lists .rwait = s.fibers.lists .rwait)
    (hpc : ∀ p, s'.pc p = .wrWait false → s.pc p = .wrWait false) : s'.Served where
  wwait hf := hwwait.trans (h.wwait (hfree hf))
  rwait hne := by
    rw [hrwait] at hne
    rw [hw]
    exact (h.rwait hne).imp_right fun hpos => Nat.lt_of_lt_of_le hpos hww
  thread hf p hp := h.thread (hfree hf) p (hpc p hp)

theorem goto {a : Pc} (h : s.Served) (hpc : a ≠ .wrWait false) : (s.goto p a).Served := by
  refine h.congr id rfl (Nat.le_refl _) rfl rfl fun q hq => ?_
  rw [goto_pc] at hq
  split at hq
  · exact absurd hq hpc
  · exact hq

theorem rdSection (h : s.Served) : (s.rdSection p).Served := by
  unfold System.rdSection
  split
  · refine ⟨fun hf => absurd hf.2 (Nat.succ_ne_zero _), h.rwait, fun hf => ?_⟩
    exact absurd hf.2 (Nat.succ_ne_zero _)
  · next hc =>
    have hbusy : s.writer = true ∨ 0 < s.writersWaiting := by
      cases hw : s.writer with
      | true => exact .inl rfl
      | false => exact .inr (Nat.pos_of_ne_zero fun h0 => hc (by rw [hw, h0]; rfl))
    have hne : (Place.wwait : Place X T) ≠ .rwait := fun e => by cases e
    cases p with
    | fiber x =>
      have h' := h.goto (p := .fiber x) (a := .rdSwap) fun e => by cases e
      exact ⟨fun hf => (Parking.park_lists_of_ne hne).trans (h.wwait hf), fun _ => hbusy, h'.thread⟩
    | thread t => exact h.goto fun e => by cases e

theorem wrSection (h : s.Served) : (s.wrSection p).Served := by
  unfold System.wrSection
  split
  · exact ⟨fun hf => (by cases hf.1), fun _ => .inl rfl, fun hf => (by cases hf.1)⟩
  · next hc =>
    have hbusy : ¬s.Free := fun hf => hc (by rw [hf.1, hf.2]; rfl)
    have hne : (Place.rwait : Place X T) ≠ .wwait := fun e => by cases e
    cases p with
    | fiber x =>
      refine ⟨fun hf => absurd hf hbusy, fun hr => h.rwait fun e => hr ?_,
        fun hf => absurd hf hbusy⟩
      exact (Parking.park_lists_of_ne hne).trans e
    | thread t => exact ⟨fun hf => absurd hf hbusy, h.rwait, fun hf => absurd hf hbusy⟩

theorem wakeAll (s : System X T) (p : Party X T) : ((s.wakeAll p).goto p .publishing).Served := by
  have hr : (s.wakeAll p).fibers.lists .rwait = [] :=
    (Parking.shift_lists_of_ne (fun e => by cases e) fun e => by cases e).trans
      (Parking.shift_lists_self fun e => by cases e)
  have hw : (s.wakeAll p).fibers.lists .wwait = [] := Parking.shift_lists_self fun e => by cases e
  refine ⟨fun _ => hw, fun hne => absurd hr hne, fun _ q hq => ?_⟩
  rw [goto_pc] at hq
  split at hq
  · cases hq
  · have hq' : signalled (s.pc q) = .wrWait false := hq
    cases hpc : s.pc q <;> rw [hpc] at hq' <;> cases hq'

theorem step (h : s.Served) (hs : Step s s') : s'.Served := by
  have hne {p : Party X T} : (Place.wwait : Place X T) ≠ .hand p := fun e => by cases e
  have hne' {p : Party X T} : (Place.rwait : Place X T) ≠ .hand p := fun e => by cases e
  cases hs with
  | rdlock => exact h.rdSection
  | rdRetry => exact h.rdSection
  | wrlock =>
    have h' : { s with writersWaiting := s.writersWaiting + 1 }.Served :=
      h.congr id rfl (Nat.le_succ _) rfl rfl fun _ => id
    exact h'.wrSection
  | wrRetry => exact h.wrSection
  | @rdResume _ x =>
    have h' := h.goto (p := .fiber x) (a := .rdTop) fun e => by cases e
    exact h'.congr id rfl (Nat.le_refl _) rfl rfl fun _ => id
  | @wrResume _ x =>
    have h' := h.goto (p := .fiber x) (a := .wrTop) fun e => by cases e
    exact h'.congr id rfl (Nat.le_refl _) rfl rfl fun _ => id
  | rdWake => exact h.goto fun e => by cases e
  | wrWake => exact h.goto fun e => by cases e
  | @rdunlock p =>
    unfold System.rdunlock
    dsimp only
    split
    · exact wakeAll _ p
    · next hpos =>
      have hbusy (hf : { s with readers := s.readers - 1, reading := s.reading.erase p }.Free) :
          False := hpos hf.2
      refine (goto (a := .publishing) ?_ fun e => by cases e)
      exact ⟨fun hf => (hbusy hf).elim, h.rwait, fun hf => (hbusy hf).elim⟩
  | @wrunlock p => exact wakeAll _ p
  | publish =>
    exact h.congr id rfl (Nat.le_refl _) (Parking.publish_lists_of_ne hne)
      (Parking.publish_lists_of_ne hne') fun _ => id
  | published => exact h.goto fun e => by cases e

end Served

/-! ## Runs -/

theorem Reachable.invariants (h : s.Reachable) : s.Counted ∧ s.Queued ∧ s.Served := by
  induction h with
  | refl =>
    refine ⟨⟨rfl, rfl, fun h => (by cases h), [], .nil, fun p => ?_, rfl⟩,
      ⟨Parking.initial_waiting fun _ => rfl, fun _ h => absurd rfl h, fun p => ?_⟩,
      ⟨fun _ => rfl, fun h => absurd rfl h, fun _ _ h => by cases h⟩⟩
    · exact iff_of_false List.not_mem_nil fun h => by cases h
    · exact Queued.fits_of_eq (.inl rfl)
  | tail _ hs ih => exact ⟨ih.1.step hs, ih.2.1.step hs, ih.2.2.step hs⟩

theorem Step.writersWaiting (hs : Step s s') (hr : s.reading.length < s'.reading.length) :
    s.writersWaiting = 0 := by
  have hsec {p : Party X T} (hr : s.reading.length < (s.rdSection p).reading.length) :
      s.writersWaiting = 0 := by
    unfold rdSection at hr
    split at hr
    · next hc =>
      rw [Bool.and_eq_true, decide_eq_true_eq] at hc
      exact hc.2
    · cases p <;> exact absurd hr (Nat.lt_irrefl _)
  have hwr {p : Party X T} (m : System X T) : (m.wrSection p).reading = m.reading := by
    unfold wrSection
    split
    · rfl
    · cases p <;> rfl
  cases hs with
  | rdlock => exact hsec hr
  | rdRetry => exact hsec hr
  | wrlock => exact absurd hr (by rw [System.wrlock, hwr]; exact Nat.lt_irrefl _)
  | wrRetry => exact absurd hr (by rw [hwr]; exact Nat.lt_irrefl _)
  | @rdunlock p =>
    have hle : (s.rdunlock p).reading = s.reading.erase p := by
      unfold System.rdunlock
      dsimp only
      split <;> rfl
    rw [hle] at hr
    exact absurd hr (Nat.not_lt.mpr (List.length_erase_le ..))
  | _ => exact absurd hr (Nat.lt_irrefl _)

omit [DecidableEq X] [DecidableEq T] in
theorem exists_onItsWay (hc : s.Counted) (hq : s.Queued) (h : s.Served) (hf : s.Free)
    (hne : s.fibers.lists .rwait ≠ [] ∨ s.fibers.lists .wwait ≠ []) : ∃ p, s.OnItsWay p := by
  have hr : s.fibers.lists .rwait ≠ [] := hne.resolve_right fun hw => hw (h.wwait hf)
  have hpos : 0 < s.writersWaiting :=
    (h.rwait hr).resolve_left (by rw [hf.1]; exact fun e => by cases e)
  obtain ⟨l, hl⟩ := hc.writers
  rw [hl.length] at hpos
  obtain ⟨p, hp⟩ := List.exists_mem_of_length_pos hpos
  have hw := (hl.mem p).mp hp
  have hfit := hq.fits p
  have hsig := h.thread hf p
  refine ⟨p, ?_⟩
  cases p with
  | fiber x =>
    cases hpc : s.pc (.fiber x) with
    | wrTop => exact .inr (.inl hpc)
    | wrSwap =>
      refine .inr (.inr (.inr ⟨hpc, ?_⟩))
      rw [h.wwait hf]
      exact List.not_mem_nil
    | wrWait b => exact absurd hpc (hfit b).2
    | _ => rw [hpc] at hw; cases hw
  | thread t =>
    cases hpc : s.pc (.thread t) with
    | wrTop => exact .inr (.inl hpc)
    | wrSwap => exact absurd hpc hfit.2
    | wrWait b =>
      cases b with
      | true => exact .inr (.inr (.inr hpc))
      | false => exact absurd hpc hsig
    | _ => rw [hpc] at hw; cases hw

/-- In every reachable state: a writer is alone, the counters count the readers and the callers of
`wrlock` that have not acquired, no reader acquires while one of these waits, and a free lock with
a fiber in a queue has a woken party that is to look at it again. -/
theorem rwlock_safe (h : s.Reachable) :
    (s.writing.length ≤ 1 ∧ (s.writing ≠ [] → s.reading = [])) ∧
    s.readers = s.reading.length ∧
    (∃ l : List (Party X T), l.Nodup ∧ (∀ p, p ∈ l ↔ (s.pc p).writes) ∧
      s.writersWaiting = l.length) ∧
    (∀ s', Step s s' → s.reading.length < s'.reading.length → s.writersWaiting = 0) ∧
    (s.Free → s.fibers.lists .rwait ≠ [] ∨ s.fibers.lists .wwait ≠ [] → ∃ p, s.OnItsWay p) := by
  obtain ⟨hc, hq, hs⟩ := h.invariants
  refine ⟨⟨?_, fun hne => ?_⟩, hc.readers, ?_, fun _ hs hr => hs.writersWaiting hr,
    exists_onItsWay hc hq hs⟩
  · rw [hc.writer]
    exact Bool.toNat_le _
  · have hw : s.writer = true := by
      cases hw : s.writer with
      | true => rfl
      | false =>
        have := hc.writer
        rw [hw] at this
        exact absurd (List.length_eq_zero_iff.mp this) hne
    have := hc.readers
    rw [hc.alone hw] at this
    exact List.length_eq_zero_iff.mp this.symm
  · obtain ⟨l, hl⟩ := hc.writers
    exact ⟨l, hl.nodup, hl.mem, hl.length⟩

/-- A reader holds the lock, a writer queues up, and a second reader behind it. -/
theorem rwlock_safe_queued :
    let s : System Nat Unit :=
      ((initial.rdSection (.thread ())).wrlock (.fiber 0)).rdSection (.fiber 1)
    s.fibers.lists .rwait = [1] ∧ s.fibers.lists .wwait = [0] ∧ s.readers = s.reading.length := by
  intro s
  have h : s.Reachable :=
    .tail (.tail (.tail .refl (.rdlock rfl)) (.wrlock rfl)) (.rdlock rfl)
  exact ⟨rfl, rfl, (rwlock_safe h).2.1⟩

end System

end Cajeta.Concurrent.RwLock
