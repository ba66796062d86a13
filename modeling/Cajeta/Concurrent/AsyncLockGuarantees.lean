import Cajeta.Concurrent.AsyncLock

/-!
# No wake-up of the async lock is lost

In every reachable state a lock that is free while fibers queue up for it has a fiber on its way to
it, and each parked fiber stands in one list, and once.
-/

namespace Cajeta.Concurrent.AsyncLock

/-- The queue for which the party suspends itself. -/
def Pc.queue (X : Type) : Pc → Option (Place X)
  | .lockSwap => some .lock
  | .condRelease => some .cond
  | .publishing .condWait => some .cond
  | .condSwap => some .cond
  | _ => none

/-- The wait queues, as against the lists that are being published. -/
def Place.waits : Place X → Prop
  | .lock => True
  | .cond => True
  | .hand _ => False

namespace System
variable {X : Type} [DecidableEq X] {s s' : System X} {p q : Party X} {pc : Pc}

theorem goto_pc : (s.goto p pc).pc q = if q = p then pc else s.pc q := Function.update_apply ..

@[simp] theorem goto_pc_self : (s.goto p pc).pc p = pc := Function.update_self ..

theorem goto_pc_of_ne (h : q ≠ p) : (s.goto p pc).pc q = s.pc q := Function.update_of_ne h ..

@[simp] theorem goto_fibers : (s.goto p pc).fibers = s.fibers := rfl

@[simp] theorem goto_held : (s.goto p pc).held = s.held := rfl
@[simp] theorem handoff_pc : (s.handoff p).pc = s.pc := by
  unfold handoff
  split <;> rfl

theorem signalReleased_eq : s.signalReleased = s ∨
    ∃ b, s.pc .thread = .lockWait b ∧ s.signalReleased = s.goto .thread (.lockWait true) := by
  unfold signalReleased
  split
  · next b hb => exact .inr ⟨b, hb, rfl⟩
  · exact .inl rfl

theorem broadcastMain_eq : s.broadcastMain = s ∨
    ∃ b, s.pc .thread = .condWait b ∧ s.broadcastMain = s.goto .thread (.condWait true) := by
  unfold broadcastMain
  split
  · next b hb => exact .inr ⟨b, hb, rfl⟩
  · exact .inl rfl

theorem signalReleased_handoff : (s.handoff p).signalReleased = s.signalReleased.handoff p := by
  unfold signalReleased
  rw [handoff_pc]
  split
  · unfold handoff
    rw [goto_fibers]
    split <;> rfl
  · rfl

theorem broadcastMain_fibers (fibers : Parking (Place X) X) :
    { s with fibers }.broadcastMain = { s.broadcastMain with fibers } := by
  cases h : s.pc .thread <;> simp only [broadcastMain, h]
  rfl

@[simp] theorem broadcastMain_eq_fibers : s.broadcastMain.fibers = s.fibers := by
  rcases broadcastMain_eq (s := s) with e | ⟨b, hb, e⟩ <;> rw [e]
  rfl

/-! ## The queues -/

/-- The queues hold the fibers that are suspended for them, and a party holds fibers only while it
publishes. -/
structure Queued (s : System X) : Prop where
  waiting : s.fibers.Waiting Place.waits fun x => (s.pc (.fiber x)).queue X
  hand : ∀ p, s.fibers.lists (.hand p) ≠ [] → ∃ after, s.pc p = .publishing after

namespace Queued

omit [DecidableEq X] in
theorem hand_nil (h : s.Queued) (hp : ∀ after, s.pc p ≠ .publishing after) :
    s.fibers.lists (.hand p) = [] := by
  cases hl : s.fibers.lists (.hand p) with
  | nil => rfl
  | cons x xs =>
    obtain ⟨after, ha⟩ := h.hand p (by rw [hl]; exact List.cons_ne_nil _ _)
    exact absurd ha (hp after)

theorem queue_goto (hq : ∀ x, p = .fiber x → pc.queue X = (s.pc p).queue X) (x : X) :
    ((s.goto p pc).pc (.fiber x)).queue X = (s.pc (.fiber x)).queue X := by
  rw [goto_pc]
  split
  · next hx => rw [hq x hx.symm, hx]
  · rfl

theorem goto (h : s.Queued) (hq : ∀ x, p = .fiber x → pc.queue X = (s.pc p).queue X)
    (hp : s.fibers.lists (.hand p) = []) : (s.goto p pc).Queued := by
  refine ⟨h.waiting.congr (queue_goto hq), fun q hne => ?_⟩
  have hqp : q ≠ p := fun e => hne (e ▸ hp)
  exact (h.hand q hne).imp fun _ ha => (goto_pc_of_ne hqp).trans ha

omit [DecidableEq X] in
theorem congr (h : s.Queued) (hf : s'.fibers = s.fibers) (hpc : s'.pc = s.pc) : s'.Queued := by
  refine ⟨?_, ?_⟩ <;> rw [hf]
  · exact h.waiting.congr fun x => by rw [hpc]
  · rw [hpc]
    exact h.hand

theorem signalReleased (h : s.Queued) : s.signalReleased.Queued := by
  rcases signalReleased_eq (s := s) with e | ⟨b, hb, e⟩ <;> rw [e]
  · exact h
  · exact h.goto (fun _ hx => by cases hx) (h.hand_nil fun _ ha => by rw [hb] at ha; cases ha)

theorem broadcastMain (h : s.Queued) : s.broadcastMain.Queued := by
  rcases broadcastMain_eq (s := s) with e | ⟨b, hb, e⟩ <;> rw [e]
  · exact h
  · exact h.goto (fun _ hx => by cases hx) (h.hand_nil fun _ ha => by rw [hb] at ha; cases ha)

theorem shift {r : Place X} (h : s.Queued) (hr : s.fibers.lists r = l ++ rest) (hne : r ≠ .hand p)
    (hq : (Pc.publishing after).queue X = (s.pc p).queue X) :
    ({ s with fibers := s.fibers.shift r (.hand p) l rest }.goto p (.publishing after)).Queued := by
  refine ⟨(h.waiting.shift (.of_eq hr) hne id).congr (queue_goto fun _ _ => hq), fun q hnil => ?_⟩
  by_cases hqp : q = p
  · subst hqp
    exact ⟨after, goto_pc_self⟩
  · have hnil' : s.fibers.lists (.hand q) ≠ [] := fun e => hnil <| by
      by_cases hqr : Place.hand q = r
      · subst hqr
        have := hr.symm.trans e
        rw [List.append_eq_nil_iff] at this
        exact (Parking.shift_lists_self hne).trans this.2
      · exact (Parking.shift_lists_of_ne hqr fun e => hqp (Place.hand.inj e)).trans e
    exact (h.hand q hnil').imp fun _ ha => (goto_pc_of_ne hqp).trans ha

theorem handoff (h : s.Queued) (hp : s.fibers.lists (.hand p) = [])
    (hq : (Pc.publishing after).queue X = (s.pc p).queue X) :
    ((s.handoff p).goto p (.publishing after)).Queued := by
  unfold System.handoff
  split
  · exact h.goto (fun _ _ => hq) hp
  · next w ws hw => exact h.shift (l := [w]) hw (fun e => by cases e) hq

theorem queue_goto_ne {x : X} (y : X) (hy : y ≠ x) :
    ((s.goto (.fiber x) pc).pc (.fiber y)).queue X = (s.pc (.fiber y)).queue X := by
  rw [goto_pc_of_ne fun e => hy (Party.fiber.inj e)]

theorem park {x : X} {q : Place X} (h : s.Queued) (hx : (s.pc (.fiber x)).queue X = none)
    (hp : s.fibers.lists (.hand (.fiber x)) = []) (hq : pc.queue X = some q) (hw : q.waits) :
    ({ s with fibers := s.fibers.park q x }.goto (.fiber x) pc).Queued := by
  refine ⟨h.waiting.park hx (by rw [goto_pc_self, hq]) queue_goto_ne, fun p hne => ?_⟩
  have hqp : Place.hand p ≠ q := fun e => by rw [← e] at hw; exact hw
  have hne' : s.fibers.lists (.hand p) ≠ [] := fun e =>
    hne ((Parking.park_lists_of_ne hqp).trans e)
  have hpx : p ≠ .fiber x := fun e => hne' (e ▸ hp)
  exact (h.hand p hne').imp fun _ ha => (goto_pc_of_ne hpx).trans ha

theorem resume {x : X} (h : s.Queued) (hx : s.fibers.state x = .ready) (hpc : pc.queue X = none)
    (hp : s.fibers.lists (.hand (.fiber x)) = []) :
    ({ s with fibers := s.fibers.resume x }.goto (.fiber x) pc).Queued := by
  refine ⟨h.waiting.resume hx (by rw [goto_pc_self, hpc]) queue_goto_ne, fun p hnil => ?_⟩
  have hpx : p ≠ .fiber x := fun e => hnil (e ▸ hp)
  exact (h.hand p hnil).imp fun _ ha => (goto_pc_of_ne hpx).trans ha

theorem publish (h : s.Queued) (hp : s.pc p = .publishing after) :
    { s with fibers := s.fibers.publish (.hand p) }.Queued := by
  refine ⟨h.waiting.publish _, fun q hnil => ?_⟩
  by_cases hqp : q = p
  · exact ⟨after, hqp ▸ hp⟩
  · refine h.hand q fun e => hnil ?_
    exact (Parking.publish_lists_of_ne fun e => hqp (Place.hand.inj e)).trans e

end Queued

theorem Queued.acquireSection (h : s.Queued) (hp : s.pc p = .top woken) :
    (s.acquireSection p).Queued := by
  have hnil : s.fibers.lists (.hand p) = [] :=
    h.hand_nil fun _ ha => by rw [hp] at ha; cases ha
  have hq : (s.pc p).queue X = none := by rw [hp]; rfl
  have hheld : { s with held := true }.Queued := h.congr rfl rfl
  have huser : Pc.queue X .user = (s.pc p).queue X := hq.symm
  cases p with
  | fiber x =>
    have hcancel : { s with cancelWith := Function.update s.cancelWith x false }.Queued :=
      h.congr rfl rfl
    have hpub : Pc.queue X (.publishing .user) = (s.pc (.fiber x)).queue X := hq.symm
    simp only [System.acquireSection]
    split
    · split
      · exact hcancel.goto (fun _ _ => hpub) hnil
      · exact hcancel.handoff hnil hpub
    split
    · exact hheld.goto (fun _ _ => huser) hnil
    · have hlock : Pc.queue X .lockSwap = some .lock := rfl
      exact h.park hq hnil hlock trivial
  | thread =>
    simp only [System.acquireSection]
    split
    · exact h.goto (fun _ e => by cases e) hnil
    · exact hheld.goto (fun _ e => by cases e) hnil

theorem Queued.releaseSection (h : s.Queued) (hnil : s.fibers.lists (.hand p) = [])
    (hq : (Pc.publishing after).queue X = (s.pc p).queue X)
    (hp : ∀ b, s.pc p ≠ .lockWait b) : (s.releaseSection p after).Queued := by
  have h' : { s with held := false }.Queued := h.congr rfl rfl
  unfold System.releaseSection
  rw [signalReleased_handoff]
  rcases signalReleased_eq (s := { s with held := false }) with e | ⟨b, hb, e⟩
  · rw [e]
    exact h'.handoff hnil hq
  · have hpt : p ≠ .thread := fun ep => hp b (ep ▸ hb)
    have := h'.signalReleased
    rw [e] at this ⊢
    exact this.handoff hnil (by rw [goto_pc_of_ne hpt]; exact hq)

theorem Queued.notifySection (h : s.Queued) (hp : s.pc p = .user) : (s.notifySection p).Queued := by
  have hnil : s.fibers.lists (.hand p) = [] :=
    h.hand_nil fun _ ha => by rw [hp] at ha; cases ha
  have hpub : Pc.queue X (.publishing .user) = Pc.queue X .user := rfl
  have hall : s.fibers.lists .cond = s.fibers.lists .cond ++ [] := (List.append_nil _).symm
  unfold System.notifySection
  rw [broadcastMain_fibers]
  rcases broadcastMain_eq (s := s) with e | ⟨b, hb, e⟩
  · rw [e]
    exact h.shift hall (fun e => by cases e) (by rw [hp, hpub])
  · have hpt : p ≠ .thread := fun ep => by rw [ep, hb] at hp; cases hp
    have := h.broadcastMain
    rw [e] at this ⊢
    exact this.shift hall (fun e => by cases e) (by rw [goto_pc_of_ne hpt, hp, hpub])

theorem Queued.step (h : s.Queued) (hs : Step s s') : s'.Queued := by
  have hnil {p : Party X} (hp : ∀ after, s.pc p ≠ .publishing after) := h.hand_nil hp
  cases hs with
  | acquire hp =>
    have hq : Pc.queue X (.top false) = Pc.queue X .user := rfl
    exact h.goto (fun _ _ => by rw [hp, hq]) (hnil fun _ ha => by rw [hp] at ha; cases ha)
  | acquireSection _ hp => exact h.acquireSection hp
  | lockResume hp hx =>
    have hq : Pc.queue X (.top true) = none := rfl
    exact h.resume hx hq (hnil fun _ ha => by rw [hp] at ha; cases ha)
  | condResume hp hx =>
    have hq : Pc.queue X (.top false) = none := rfl
    exact h.resume hx hq (hnil fun _ ha => by rw [hp] at ha; cases ha)
  | lockWake hp =>
    exact h.goto (fun _ e => by cases e) (hnil fun _ ha => by rw [hp] at ha; cases ha)
  | condWake hp =>
    exact h.goto (fun _ e => by cases e) (hnil fun _ ha => by rw [hp] at ha; cases ha)
  | tryAcquire => exact h.congr rfl rfl
  | release hp =>
    refine h.releaseSection (hnil fun _ ha => by rw [hp] at ha; cases ha) ?_ fun b hb => ?_
    · rw [hp]
      rfl
    · rw [hp] at hb
      cases hb
  | @condWait p hp =>
    have hp' := hnil fun _ ha => by rw [hp] at ha; cases ha
    cases p with
    | fiber x =>
      have hq : Pc.queue X .condRelease = some .cond := rfl
      exact h.park (by rw [hp]; rfl) hp' hq trivial
    | thread => exact h.goto (fun _ e => by cases e) hp'
  | condRelease hp =>
    refine h.releaseSection (hnil fun _ ha => by rw [hp] at ha; cases ha) ?_ fun b hb => ?_
    · rw [hp]
      rfl
    · rw [hp] at hb
      cases hb
  | notifyAll hp => exact h.notifySection hp
  | publish hp => exact h.publish hp
  | @published p after hp hw =>
    refine h.goto (fun x hx => ?_) hw
    subst hx
    rw [hp]
    cases after <;> rfl
  | cancel => exact h.congr rfl rfl

/-! ## The lock -/

/-- A fiber that waits for a free lock has one on its way before it, and the program thread does not
wait for a free lock without having been signalled. -/
structure Served (s : System X) : Prop where
  fiber : s.held = false → s.fibers.lists .lock ≠ [] → ∃ x, s.OnItsWay x
  thread : s.held = false → s.pc .thread ≠ .lockWait false

omit [DecidableEq X] in
theorem OnItsWay.congr {x : X} (h : s.OnItsWay x) (hpc : s'.pc (.fiber x) = s.pc (.fiber x))
    (hl : x ∈ s'.fibers.lists .lock → x ∈ s.fibers.lists .lock) : s'.OnItsWay x := by
  rcases h with h | ⟨h, hx⟩
  · exact .inl (hpc.trans h)
  · exact .inr ⟨hpc.trans h, fun hx' => hx (hl hx')⟩

namespace Served

omit [DecidableEq X] in
theorem of_held (h : s.held = true) : s.Served where
  fiber hf := by rw [h] at hf; cases hf
  thread hf := by rw [h] at hf; cases hf

omit [DecidableEq X] in
theorem congr (h : s.Served) (hheld : s'.held = s.held)
    (hlock : s'.fibers.lists .lock = s.fibers.lists .lock)
    (hpc : ∀ x, s.OnItsWay x → s'.pc (.fiber x) = s.pc (.fiber x))
    (hthread : s.held = false → s'.pc .thread ≠ .lockWait false) : s'.Served := by
  refine ⟨fun hf hne => ?_, fun hf => hthread (hheld ▸ hf)⟩
  rw [hheld] at hf
  rw [hlock] at hne
  obtain ⟨x, hx⟩ := h.fiber hf hne
  exact ⟨x, hx.congr (hpc x hx) (by rw [hlock]; exact id)⟩

theorem goto {a : Pc} (h : s.Served) (hp : ∀ x, p = .fiber x → ¬s.OnItsWay x)
    (hthread : p = .thread → a ≠ .lockWait false) : (s.goto p a).Served := by
  refine h.congr rfl rfl (fun x hx => goto_pc_of_ne fun e => hp x e.symm hx) fun hf => ?_
  rw [goto_pc]
  split
  · next e => exact hthread e.symm
  · exact h.thread hf

/-- A lock that becomes or is free is handed to the first fiber of its queue. -/
theorem handoff (hq : s.Queued) (hp : ∀ x, p = .fiber x → (s.pc p).queue X ≠ some .lock)
    (hthread : s.pc .thread ≠ .lockWait false) :
    ((s.handoff p).goto p (.publishing after)).Served := by
  have ht : ((s.handoff p).goto p (.publishing after)).pc .thread ≠ .lockWait false := by
    rw [goto_pc]
    split
    · exact fun e => by cases e
    · rwa [handoff_pc]
  refine ⟨fun _ hne => ?_, fun _ => ht⟩
  unfold System.handoff at hne ⊢
  split
  · next hl =>
    rw [hl] at hne
    exact absurd hl hne
  · next w ws hl =>
    have hw : s.pc (.fiber w) = .lockSwap := by
      have := hq.waiting.of_mem w .lock (by rw [hl]; exact List.mem_cons_self ..) trivial
      cases hpc : s.pc (.fiber w) with
      | publishing after => cases after <;> rw [hpc] at this <;> cases this
      | _ => first | rfl | (rw [hpc] at this; cases this)
    have hwp : Party.fiber w ≠ p := fun e => hp w e.symm (by rw [← e, hw]; rfl)
    refine ⟨w, .inr ⟨(goto_pc_of_ne hwp).trans hw, fun hmem => ?_⟩⟩
    have hperm : (s.fibers.lists .lock).Perm ([w] ++ ws) := .of_eq hl
    have hne : (Place.lock : Place X) ≠ .hand p := fun e => by cases e
    rw [goto_fibers, hq.waiting.ok.mem_shift hperm hne, if_pos (List.mem_singleton_self w)] at hmem
    exact hne hmem

theorem acquireSection (h : s.Served) (hq : s.Queued) (hp : s.pc p = .top woken) :
    (s.acquireSection p).Served := by
  cases p with
  | fiber x =>
    simp only [System.acquireSection]
    split
    · split
      · next hh => exact of_held hh
      · next hh =>
        have hq' : { s with cancelWith := Function.update s.cancelWith x false }.Queued :=
          hq.congr rfl rfl
        refine handoff hq' (fun y hy e => ?_) (h.thread (eq_false_of_ne_true hh))
        rw [show (_ : System X).pc _ = _ from hp] at e
        cases e
    split
    · exact of_held rfl
    · next hh => exact of_held (by simpa using hh)
  | thread =>
    simp only [System.acquireSection]
    split
    · next hh => exact of_held hh
    · exact of_held rfl

theorem releaseSection (hq : s.Queued) (hp : (s.pc p).queue X ≠ some .lock) :
    (s.releaseSection p after).Served := by
  have hq' : { s with held := false }.Queued := hq.congr rfl rfl
  unfold System.releaseSection
  rw [signalReleased_handoff]
  rcases signalReleased_eq (s := { s with held := false }) with e | ⟨b, hb, e⟩
  · rw [e]
    refine handoff hq' (fun _ _ => hp) fun hb => ?_
    have hsig : { s with held := false }.signalReleased =
        { s with held := false }.goto .thread (.lockWait true) := by
      unfold signalReleased
      rw [hb]
    have hpc := congrArg (·.pc .thread) (e.symm.trans hsig)
    simp only [goto_pc_self] at hpc
    rw [hpc] at hb
    cases hb
  · rw [e]
    have hq'' := hq'.signalReleased
    rw [e] at hq''
    refine handoff hq'' (fun x hx => ?_) (by rw [goto_pc_self]; exact fun e => by cases e)
    rw [goto_pc_of_ne (by rw [hx]; exact fun e => by cases e)]
    exact hp

theorem broadcastMain (h : s.Served) : s.broadcastMain.Served := by
  rcases broadcastMain_eq (s := s) with e | ⟨b, hb, e⟩ <;> rw [e]
  · exact h
  · exact h.goto (fun _ e => by cases e) fun _ e => by cases e

theorem step (h : s.Served) (hq : s.Queued) (hs : Step s s') : s'.Served := by
  have hnot {x : X} (h1 : s.pc (.fiber x) ≠ .top true) (h2 : s.pc (.fiber x) ≠ .lockSwap) :
      ¬s.OnItsWay x := fun hx => hx.elim h1 fun hx => h2 hx.1
  have huser {p : Party X} {pc : Pc} (hp : s.pc p = pc) (h1 : pc ≠ .top true)
      (h2 : pc ≠ .lockSwap) (x : X) (e : p = .fiber x) : ¬s.OnItsWay x :=
    hnot (by rw [← e, hp]; exact h1) (by rw [← e, hp]; exact h2)
  cases hs with
  | acquire hp =>
    exact h.goto (huser hp (fun e => by cases e) fun e => by cases e) fun _ e => by cases e
  | acquireSection _ hp => exact h.acquireSection hq hp
  | @lockResume x hp hx =>
    refine ⟨fun _ _ => ⟨x, .inl goto_pc_self⟩, fun hf => ?_⟩
    rw [goto_pc_of_ne fun e => by cases e]
    exact h.thread hf
  | condResume hp hx =>
    have h' := h.goto (a := .top false) (huser hp (fun e => by cases e) fun e => by cases e)
      fun _ e => by cases e
    exact h'.congr rfl rfl (fun _ _ => rfl) h'.thread
  | lockWake hp => exact h.goto (fun _ e => by cases e) fun _ e => by cases e
  | condWake hp => exact h.goto (fun _ e => by cases e) fun _ e => by cases e
  | tryAcquire => exact of_held rfl
  | release hp => exact releaseSection hq (by rw [hp]; exact fun e => by cases e)
  | @condWait p hp =>
    cases p with
    | fiber x =>
      have h' := h.goto (a := .condRelease) (huser hp (fun e => by cases e) fun e => by cases e)
        fun _ e => by cases e
      have hne : (Place.lock : Place X) ≠ .cond := fun e => by cases e
      exact h'.congr rfl (Parking.park_lists_of_ne hne) (fun _ _ => rfl) h'.thread
    | thread => exact h.goto (fun _ e => by cases e) fun _ e => by cases e
  | condRelease hp => exact releaseSection hq (by rw [hp]; exact fun e => by cases e)
  | @notifyAll p hp =>
    have hp' : s.broadcastMain.pc p = .user := by
      rcases broadcastMain_eq (s := s) with e | ⟨b, hb, e⟩
      · rw [e, hp]
      · have hpt : p ≠ .thread := fun ep => by rw [ep, hb] at hp; cases hp
        rw [e, goto_pc_of_ne hpt, hp]
    have h' := h.broadcastMain.goto (a := .publishing .user)
      (fun x e hx => by rcases hx with hx | ⟨hx, -⟩ <;> rw [← e, hp'] at hx <;> cases hx)
      fun _ e => by cases e
    unfold System.notifySection
    rw [broadcastMain_fibers]
    refine h'.congr rfl ?_ (fun _ _ => rfl) h'.thread
    have hc : (Place.lock : Place X) ≠ .cond := fun e => by cases e
    have hh : (Place.lock : Place X) ≠ .hand p := fun e => by cases e
    refine (Parking.shift_lists_of_ne hc hh).trans ?_
    rw [goto_fibers, broadcastMain_eq_fibers]
  | publish hp =>
    have hne : ∀ p : Party X, (Place.lock : Place X) ≠ .hand p := fun _ e => by cases e
    exact h.congr rfl (Parking.publish_lists_of_ne (hne _)) (fun _ _ => rfl) h.thread
  | @published p after hp hw =>
    refine h.goto (huser hp (fun e => by cases e) fun e => by cases e) fun e he => ?_
    subst e
    cases after <;> cases he
  | cancel => exact h.congr rfl rfl (fun _ _ => rfl) h.thread

end Served

/-! ## Runs -/

omit [DecidableEq X] in
theorem initial_queued : (initial : System X).Queued where
  waiting := Parking.initial_waiting fun _ => rfl
  hand _ h := absurd rfl h

omit [DecidableEq X] in
theorem initial_served : (initial : System X).Served where
  fiber _ h := absurd rfl h
  thread _ h := Pc.noConfusion h

/-- The states that any interleaving of the parties reaches. -/
abbrev Reachable (s : System X) : Prop := Relation.ReflTransGen Step initial s

theorem Reachable.invariants (h : s.Reachable) : s.Queued ∧ s.Served := by
  induction h with
  | refl => exact ⟨initial_queued, initial_served⟩
  | tail _ hs ih => exact ⟨ih.1.step hs, ih.2.step ih.1 hs⟩

theorem notifySection_pc :
    (s.notifySection p).pc = (s.broadcastMain.goto p (.publishing .user)).pc := by
  unfold notifySection
  rw [broadcastMain_fibers]
  rfl

theorem notifySection_lists_cond : (s.notifySection p).fibers.lists .cond = [] := by
  have hne : (Place.cond : Place X) ≠ .hand p := fun e => by cases e
  have hf : (s.notifySection p).fibers =
      s.fibers.shift .cond (.hand p) (s.fibers.lists .cond) [] := by
    unfold notifySection
    rw [goto_fibers, broadcastMain_eq_fibers]
  rw [hf, Parking.shift_lists_self hne]

theorem Queued.notify_takes (h : s.Queued) (hp : s.pc p = .user) (hm : s.condMutexFree)
    (hq : s.Waits q) : (s.notifySection p).TakenOut q := by
  cases q with
  | fiber x =>
    have h' := h.notifySection hp
    have hwait : (s.pc (.fiber x)).queue X = some .cond := by
      rcases hq with hq | hq <;> rw [hq] <;> rfl
    have hxp : Party.fiber x ≠ p := fun e => by rw [e, hp] at hwait; cases hwait
    have hpc : (s.notifySection p).pc (.fiber x) = s.pc (.fiber x) := by
      have hxt : Party.fiber x ≠ .thread := fun e => by cases e
      rw [notifySection_pc, goto_pc_of_ne hxp]
      rcases broadcastMain_eq (s := s) with e | ⟨b, hb, e⟩ <;> rw [e]
      exact goto_pc_of_ne hxt
    rw [← hpc] at hwait
    have hcond : x ∉ (s.notifySection p).fibers.lists .cond := by
      rw [notifySection_lists_cond]
      exact List.not_mem_nil
    refine ⟨hcond, ?_⟩
    rcases h'.waiting.cases_of_want hwait with hx | ⟨r, hr, hx⟩ | hx
    · exact absurd hx hcond
    · cases r with
      | lock => exact absurd trivial hr
      | cond => exact absurd trivial hr
      | hand p' => exact .inl ⟨p', hx⟩
    · exact .inr hx
  | thread =>
    rcases hq with hq | ⟨b, hb⟩
    · simp [condMutexFree, hq] at hm
    · have hpt : Party.thread ≠ p := fun e => by rw [e, hp] at hb; cases hb
      show ((s.notifySection p).pc .thread) = .condWait true
      rw [notifySection_pc, goto_pc_of_ne hpt]
      unfold System.broadcastMain
      rw [hb]
      exact goto_pc_self

/-- In every reachable state: a lock that is free has no queue without a fiber on its way to it, and
no program thread that waits unsignalled; a parked fiber stands in one list, and once; and a
notification takes out every party that has released the lock in a wait. -/
theorem no_lost_wakeup (h : s.Reachable) :
    (s.held = false → s.fibers.lists .lock ≠ [] → ∃ x, s.OnItsWay x) ∧
    (s.held = false → s.pc .thread ≠ .lockWait false) ∧
    (∀ x, s.fibers.state x = .parked →
      ∃! r, x ∈ s.fibers.lists r ∧ (s.fibers.lists r).count x = 1) ∧
    ∀ p q, s.pc p = .user → s.condMutexFree → s.Waits q → (s.notifySection p).TakenOut q := by
  obtain ⟨hq, hs⟩ := h.invariants
  exact ⟨hs.fiber, hs.thread, fun _ hx => hq.waiting.ok.existsUnique hx,
    fun _ _ hp hm hw => hq.notify_takes hp hm hw⟩

/-- Two fibers queue up behind the holder; at its release the first is on its way. -/
theorem no_lost_wakeup_release :
    let s : System Nat :=
      (((((((initial.goto (.fiber 0) (.top false)).acquireSection (.fiber 0)).goto (.fiber 1)
        (.top false)).acquireSection (.fiber 1)).goto (.fiber 2) (.top false)).acquireSection
        (.fiber 2)).releaseSection (.fiber 0) .user)
    s.held = false ∧ s.fibers.lists .lock = [2] ∧ ∃ x, s.OnItsWay x := by
  intro s
  have h : s.Reachable := by
    refine .tail (.tail (.tail (.tail (.tail (.tail (.tail .refl (.acquire ?_))
      (.acquireSection false ?_)) (.acquire ?_)) (.acquireSection false ?_)) (.acquire ?_))
      (.acquireSection false ?_)) (.release ?_)
    all_goals rfl
  exact ⟨rfl, rfl, (no_lost_wakeup h).1 rfl (List.cons_ne_nil 2 [])⟩

end System

end Cajeta.Concurrent.AsyncLock
