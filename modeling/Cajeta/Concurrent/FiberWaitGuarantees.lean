import Cajeta.Concurrent.FiberWait
import Cajeta.Lib.HeldRecords
import Mathlib.Data.List.TakeWhile

/-!
# Waiting for a task is exact

In every reachable state a fiber whose wait for a task returns has its task done or its deadline
behind it, no fiber is left parked that has no more to wait for, and the timer entry of a wait that
ends is in the list no more.
-/

namespace Cajeta.Concurrent.FiberWait

/-- The list for which the fiber suspends itself. -/
def Pc.queue (X : Type) : Pc T Fd → Option (Place X)
  | .swap .. => some .parked
  | _ => none

/-- The timer entry that may be in the list. -/
def Pc.timer : Pc T Fd → Option Timer
  | .top _ e => e
  | .swap _ e => e
  | .woken _ e => e
  | .withdraw _ e => e
  | .cancelTimer _ e _ => some e
  | _ => none

/-- Where a fiber goes whose wait ends. -/
def Pc.finished (c : Cause T Fd) (e : Option Timer) (r : Outcome) : Pc T Fd :=
  match e with
  | none => .ended c none r
  | some e => .cancelTimer c e r

/-- What a wait may return. -/
def Outcome.Right (done : T → Bool) (now : Int) (c : Cause T Fd) (e : Option Timer) :
    Outcome → Prop
  | .done => ∀ t, c = .task t → done t
  | .timeout => ∃ m, e = some m ∧ m.deadline ≤ now
  | .thrown => True
  | .failed => ∀ t, c ≠ .task t

def Pc.Told (done : T → Bool) (now : Int) : Pc T Fd → Prop
  | .cancelTimer c e r => r.Right done now c (some e)
  | .ended c e r => r.Right done now c e
  | _ => True

@[simp] theorem Pc.finished_queue : (Pc.finished c e r : Pc T Fd).queue X = none := by
  cases e <;> rfl

@[simp] theorem Pc.resumed_queue : (Pc.resumed c e : Pc T Fd).queue X = none := by
  cases c <;> cases e <;> rfl

@[simp] theorem Pc.finished_timer : (Pc.finished c e r : Pc T Fd).timer = e := by
  cases e <;> rfl

@[simp] theorem Pc.resumed_timer : (Pc.resumed c e : Pc T Fd).timer = e := by
  cases c <;> cases e <;> rfl

theorem Pc.finished_told : (Pc.finished c e r : Pc T Fd).Told done now ↔ r.Right done now c e := by
  cases e <;> rfl

theorem Pc.resumed_told : (Pc.resumed c e : Pc T Fd).Told done now := by
  cases c <;> cases e <;> first | trivial | exact fun _ h => by cases h

theorem Pc.Told.mono {pc : Pc T Fd} (h : pc.Told done now) (hd : ∀ t, done t → done' t)
    (hn : now ≤ now') : pc.Told done' now' := by
  have hr {c : Cause T Fd} {e : Option Timer} {r : Outcome} (h : r.Right done now c e) :
      r.Right done' now' c e := by
    cases r with
    | done => exact fun t ht => hd t (h t ht)
    | timeout =>
      obtain ⟨m, hm, hle⟩ := h
      exact ⟨m, hm, Int.le_trans hle hn⟩
    | thrown => trivial
    | failed => exact h
  cases pc with
  | cancelTimer => exact hr h
  | ended => exact hr h
  | _ => trivial

theorem insertTimer_perm (e : TimerEntry X) (l : List (TimerEntry X)) :
    (insertTimer e l).Perm (e :: l) := by
  induction l with
  | nil => exact .refl _
  | cons h l ih =>
    unfold insertTimer
    split
    · exact (ih.cons h).trans (.swap e h l)
    · exact .refl _

theorem insertTimer_sorted {l : List (TimerEntry X)} (e : TimerEntry X)
    (h : l.Pairwise (·.deadline ≤ ·.deadline)) :
    (insertTimer e l).Pairwise (·.deadline ≤ ·.deadline) := by
  induction l with
  | nil => exact List.pairwise_singleton _ _
  | cons a l ih =>
    obtain ⟨ha, hl⟩ := List.pairwise_cons.mp h
    unfold insertTimer
    split
    · next hle =>
      refine List.pairwise_cons.mpr ⟨fun b hb => ?_, ih hl⟩
      rcases List.mem_cons.mp ((insertTimer_perm e l).mem_iff.mp hb) with rfl | hb
      · exact hle
      · exact ha b hb
    · next hlt =>
      refine List.pairwise_cons.mpr ⟨fun b hb => ?_, h⟩
      have hea : e.deadline ≤ a.deadline := by omega
      rcases List.mem_cons.mp hb with rfl | hb
      · exact hea
      · exact Int.le_trans hea (ha b hb)

namespace System

section
variable [DecidableEq X] {fibers : Parking (Place X) X} {want : X → Option (Place X)}
  {p : Publisher X}

/-- What a publisher takes leaves the parked list, and nothing else does. -/
structure Detached (p : Publisher X) (xs : List X) (fibers fibers' : Parking (Place X) X) :
    Prop where
  mem_parked : ∀ y, y ∈ fibers'.lists .parked ↔ y ∈ fibers.lists .parked ∧ y ∉ xs
  lists_of_ne : ∀ q, q ≠ .parked → q ≠ .hand p → fibers'.lists q = fibers.lists q
  state : fibers'.state = fibers.state

theorem detach_detached (h : fibers.Waiting (· = .parked) want) (x : X) :
    (detach p fibers x).Waiting (· = .parked) want ∧ Detached p [x] fibers (detach p fibers x) := by
  have hne : (Place.parked : Place X) ≠ .hand p := fun e => by cases e
  unfold detach
  split
  · next hx =>
    have hw : ¬(Place.hand p : Place X) = .parked := fun e => by cases e
    refine ⟨h.shift (List.perm_cons_erase hx) hne hw, fun y => ?_, fun q h1 h2 => ?_, rfl⟩
    · rw [Parking.shift_lists_self hne, (h.ok.nodup .parked).mem_erase_iff, List.mem_singleton]
      exact and_comm
    · exact Parking.shift_lists_of_ne h1 h2
  · next hx =>
    refine ⟨h, fun y => ?_, fun _ _ _ => rfl, rfl⟩
    rw [List.mem_singleton]
    exact ⟨fun hy => ⟨hy, fun e => hx (e ▸ hy)⟩, And.left⟩

theorem detachAll_detached (h : fibers.Waiting (· = .parked) want) (xs : List X) :
    (xs.foldl (detach p) fibers).Waiting (· = .parked) want ∧
      Detached p xs fibers (xs.foldl (detach p) fibers) := by
  induction xs generalizing fibers with
  | nil =>
    exact ⟨h, fun _ => (and_iff_left List.not_mem_nil).symm, fun _ _ _ => rfl, rfl⟩
  | cons x xs ih =>
    obtain ⟨hw, hd⟩ := detach_detached (p := p) h x
    obtain ⟨hw', hd'⟩ := ih hw
    refine ⟨hw', fun y => ?_, fun q h1 h2 => ?_, hd'.state.trans hd.state⟩
    · rw [List.foldl_cons, hd'.mem_parked y, hd.mem_parked y, List.mem_singleton, List.mem_cons,
        not_or, and_assoc]
    · exact (hd'.lists_of_ne q h1 h2).trans (hd.lists_of_ne q h1 h2)

end

/-! ## The invariants -/

variable {X T Fd : Type} {s s' : System X T Fd} {x y : X} {c : Cause T Fd} {e : Option Timer}
  {pc : Pc T Fd}

def Kept (s : System X T Fd) : Prop :=
  ∀ x ∈ s.fibers.lists .parked, ∀ c e, s.pc x = .swap c e →
    (∀ t, c = .task t → s.done t = false) ∧
      ∀ m, e = some m → ⟨m.deadline, x, m.entry⟩ ∈ s.timers

/-- A timer entry leaves the list before it is cancelled only when its deadline has passed. -/
def Listed (s : System X T Fd) : Prop :=
  ∀ x m, (s.pc x).timer = some m → ⟨m.deadline, x, m.entry⟩ ∈ s.timers ∨ m.deadline ≤ s.now

structure Sound (s : System X T Fd) : Prop where
  waiting : s.fibers.Waiting (· = .parked) fun x => (s.pc x).queue X
  timers : HeldRecords TimerEntry.fiber (fun e => ⟨e.deadline, e.id⟩) Timer.entry
    (fun x => (s.pc x).timer) s.next s.timers
  sorted : s.timers.Pairwise (·.deadline ≤ ·.deadline)
  kept : s.Kept
  listed : s.Listed
  told : ∀ x, (s.pc x).Told s.done s.now

namespace Sound

theorem initial : (initial : System X T Fd).Sound where
  waiting := Parking.initial_waiting fun _ => rfl
  timers := .nil fun _ => rfl
  sorted := .nil
  kept _ h := absurd h List.not_mem_nil
  listed _ _ h := by cases h
  told _ := trivial

theorem congr (h : s.Sound) (hd : s'.done = s.done) (hn : s'.now = s.now)
    (ht : s'.timers = s.timers) (hnext : s.next ≤ s'.next) (hf : s'.fibers = s.fibers)
    (hpc : s'.pc = s.pc) : s'.Sound where
  waiting := by rw [hf, hpc]; exact h.waiting
  timers := by rw [ht, hpc]; exact h.timers.mono hnext
  sorted := by rw [ht]; exact h.sorted
  kept := by unfold Kept; rw [hf, hpc, hd, ht]; exact h.kept
  listed := by unfold Listed; rw [hpc, ht, hn]; exact h.listed
  told := by rw [hpc, hd, hn]; exact h.told

theorem mem_parked (h : s.Sound) (hx : x ∈ s.fibers.lists .parked) :
    ∃ c e, s.pc x = .swap c e := by
  have := h.waiting.of_mem x .parked hx rfl
  cases hpc : s.pc x with
  | swap c e => exact ⟨c, e, rfl⟩
  | _ => rw [hpc] at this; cases this

theorem not_mem_parked (h : s.Sound) (hx : (s.pc x).queue X = none) :
    x ∉ s.fibers.lists .parked := fun hmem => by
  obtain ⟨c, e, hpc⟩ := h.mem_parked hmem
  rw [hpc] at hx
  cases hx

end Sound

section
variable [DecidableEq X]

@[simp] theorem goto_pc_self : (s.goto x pc).pc x = pc := Function.update_self ..

theorem goto_pc_of_ne (h : y ≠ x) : (s.goto x pc).pc y = s.pc y := Function.update_of_ne h ..

theorem goto_forall {P : X → Pc T Fd → Prop} (hx : P x pc) (h : ∀ y, y ≠ x → P y (s.pc y)) :
    ∀ y, P y ((s.goto x pc).pc y) := fun y => by
  by_cases hy : y = x
  · rw [hy, goto_pc_self]
    exact hx
  · rw [goto_pc_of_ne hy]
    exact h y hy

theorem goto_eq {f : Pc T Fd → α} {q : Pc T Fd} (hf : f q = f (s.pc x)) (y : X) :
    f ((s.goto x q).pc y) = f (s.pc y) :=
  goto_forall (P := fun y q => f q = f (s.pc y)) hf (fun _ _ => rfl) y

theorem parkFront_hand (fibers : Parking (Place X) X) (p : Publisher X) :
    (fibers.parkFront .parked x).lists (.hand p) = fibers.lists (.hand p) := by
  simp [Parking.parkFront]

theorem parkFront_parked (fibers : Parking (Place X) X) :
    (fibers.parkFront .parked x).lists .parked = x :: fibers.lists .parked := by
  simp [Parking.parkFront]

theorem fireAll_eq (p : Publisher X) (ws : List (Waiter X Fd)) :
    ws.foldl (fire p) s = { s with
      fired := fun n => s.fired n || ws.any (·.id = n)
      fibers := (ws.map (·.fiber)).foldl (detach p) s.fibers } := by
  induction ws generalizing s with
  | nil => simp
  | cons w ws ih =>
    rw [List.foldl_cons, ih]
    simp only [fire, List.map_cons, List.foldl_cons, List.any_cons]
    congr 1
    funext n
    by_cases hn : n = w.id
    · simp [hn]
    · simp [hn, Ne.symm hn]

theorem fireWaiters_eq (p : Publisher X) (hit : Waiter X Fd → Bool) :
    s.fireWaiters p hit = { s with
      waiters := s.waiters.filter fun w => !hit w
      fired := fun n => s.fired n || (s.waiters.filter hit).any (·.id = n)
      fibers := ((s.waiters.filter hit).map (·.fiber)).foldl (detach p) s.fibers } :=
  fireAll_eq p _

theorem finish_eq (r : Outcome) : s.finish x c e r = s.goto x (.finished c e r) := by
  cases e <;> rfl

end

namespace Sound
variable [DecidableEq X]

theorem goto (h : s.Sound) (hx : (s.pc x).queue X = none) (hq : pc.queue X = none)
    (ht : pc.timer = (s.pc x).timer) (htold : pc.Told s.done s.now) : (s.goto x pc).Sound where
  waiting := h.waiting.congr (goto_eq (hq.trans hx.symm))
  timers := h.timers.congr (goto_eq ht)
  sorted := h.sorted
  kept y hy c e hc := by
    have hy' : y ≠ x := fun hyx => by subst hyx; exact h.not_mem_parked hx hy
    exact h.kept y hy c e ((goto_pc_of_ne hy').symm.trans hc)
  listed y m hm := h.listed y m ((goto_eq ht y).symm.trans hm)
  told := goto_forall htold fun y _ => h.told y

theorem park (h : s.Sound) (hx : (s.pc x).queue X = none) (ht : (s.pc x).timer = e)
    (hdone : ∀ t, c = .task t → s.done t = false)
    (hlist : ∀ m, e = some m → ⟨m.deadline, x, m.entry⟩ ∈ s.timers) :
    ({ s with fibers := s.fibers.parkFront .parked x }.goto x (.swap c e)).Sound where
  waiting := h.waiting.parkFront hx (by rw [goto_pc_self]; rfl) fun y hy => by
    rw [goto_pc_of_ne hy]
  timers := h.timers.congr (goto_eq (s := { s with fibers := _ }) ht.symm)
  sorted := h.sorted
  kept y hy c' e' hc := by
    by_cases hyx : y = x
    · subst hyx
      rw [goto_pc_self] at hc
      cases hc
      exact ⟨hdone, hlist⟩
    · rw [goto_pc_of_ne hyx] at hc
      have hy' : y ∈ x :: s.fibers.lists .parked := parkFront_parked s.fibers ▸ hy
      exact h.kept y ((List.mem_cons.mp hy').resolve_left hyx) c' e' hc
  listed y m hm := h.listed y m ((goto_eq (s := { s with fibers := _ }) ht.symm y).symm.trans hm)
  told := goto_forall trivial fun y _ => h.told y

theorem resume (h : s.Sound) (hx : s.fibers.state x = .ready) (hq : pc.queue X = none)
    (ht : pc.timer = (s.pc x).timer) (htold : pc.Told s.done s.now) :
    ({ s with fibers := s.fibers.resume x }.goto x pc).Sound where
  waiting := h.waiting.resume hx (by rw [goto_pc_self, hq]) fun y hy => by
    rw [goto_pc_of_ne hy]
  timers := h.timers.congr (goto_eq (s := { s with fibers := _ }) ht)
  sorted := h.sorted
  kept y hy c e hc := by
    have hx' : s.fibers.state x ≠ .parked := by rw [hx]; exact fun e => by cases e
    have hy' : y ≠ x := fun hyx => by subst hyx; exact h.waiting.ok.not_mem hx' _ hy
    exact h.kept y hy c e ((goto_pc_of_ne hy').symm.trans hc)
  listed y m hm := h.listed y m ((goto_eq (s := { s with fibers := _ }) ht y).symm.trans hm)
  told := goto_forall htold fun y _ => h.told y

theorem insert (h : s.Sound) (deadline : Int) (hx : (s.pc x).queue X = none)
    (ht : (s.pc x).timer = none) :
    ({ s with
      timers := insertTimer ⟨deadline, x, s.next⟩ s.timers
      next := s.next + 1 }.goto x (.top c (some ⟨deadline, s.next⟩))).Sound where
  waiting := h.waiting.congr (goto_eq (s := { s with timers := _, next := _ }) (q := .top ..)
    (f := fun pc => pc.queue X) hx.symm)
  timers := by
    refine HeldRecords.perm ?_ (insertTimer_perm ⟨deadline, x, s.next⟩ s.timers)
    refine h.timers.add ht ?_ rfl fun y hy => ?_
    · rw [goto_pc_self]
      rfl
    · rw [goto_pc_of_ne hy]
  sorted := insertTimer_sorted _ h.sorted
  kept y hy c e hc := by
    have hy' : y ≠ x := fun hyx => by subst hyx; exact h.not_mem_parked hx hy
    obtain ⟨h1, h2⟩ := h.kept y hy c e ((goto_pc_of_ne hy').symm.trans hc)
    exact ⟨h1, fun m hm => (insertTimer_perm _ _).mem_iff.mpr (List.mem_cons_of_mem _ (h2 m hm))⟩
  listed y m hm := by
    have hmem {e : TimerEntry X} (he : e ∈ ⟨deadline, x, s.next⟩ :: s.timers) :
        e ∈ insertTimer ⟨deadline, x, s.next⟩ s.timers := (insertTimer_perm _ _).mem_iff.mpr he
    by_cases hy : y = x
    · subst hy
      rw [goto_pc_self] at hm
      cases hm
      exact .inl (hmem (List.mem_cons_self ..))
    · rw [goto_pc_of_ne hy] at hm
      exact (h.listed y m hm).imp_left fun he => hmem (List.mem_cons_of_mem _ he)
  told := goto_forall trivial fun y _ => h.told y

/-- The timer entry of a wait that ends leaves the list, if it is still there. -/
theorem cancelTimer {m : Timer} (h : s.Sound) (hx : s.pc x = .cancelTimer c m r) :
    (s.cancelTimerSection x c m r).Sound := by
  have hm : (s.pc x).timer = some m := by rw [hx]; rfl
  have hq : (s.pc x).queue X = none := by rw [hx]; rfl
  have hgone : ∀ e ∈ s.timers.eraseP (·.id = m.entry), e.fiber ≠ x := h.timers.erase_not_mem hm
  have hstay {y : X} {m' : Timer} (hy : y ≠ x) (hm' : (s.pc y).timer = some m')
      (hmem : ⟨m'.deadline, y, m'.entry⟩ ∈ s.timers) :
      ⟨m'.deadline, y, m'.entry⟩ ∈ s.timers.eraseP (·.id = m.entry) := by
    refine (List.mem_eraseP_of_neg ?_).mpr hmem
    rw [decide_eq_true_eq]
    exact fun hid => hy (h.timers.inj y x m' m hm' hm hid)
  have hother (y : X) (hy : y ≠ x) :
      (s.cancelTimerSection x c m r).pc y = s.pc y := goto_pc_of_ne hy
  refine ⟨?_, ?_, h.sorted.sublist (List.eraseP_sublist ..), ?_, ?_, ?_⟩
  · exact h.waiting.congr (goto_eq (s := { s with timers := _ }) (q := .ended ..)
      (f := fun pc => pc.queue X) hq.symm)
  · refine (h.timers.sublist (List.eraseP_sublist ..)).drop (x := x) ?_ (fun y hy => ?_) hgone
    · show ((System.goto _ x _).pc x).timer = none
      rw [goto_pc_self]
      rfl
    · rw [hother y hy]
  · intro y hy c' e' hc
    have hy' : y ≠ x := fun hyx => by subst hyx; exact h.not_mem_parked hq hy
    rw [hother y hy'] at hc
    obtain ⟨h1, h2⟩ := h.kept y hy c' e' hc
    exact ⟨h1, fun m' hm' => hstay hy' (by rw [hc]; exact hm') (h2 m' hm')⟩
  · intro y m' hm'
    by_cases hy : y = x
    · subst hy
      rw [show (s.cancelTimerSection y c m r).pc y = .ended c (some m) r from goto_pc_self] at hm'
      cases hm'
    · rw [hother y hy] at hm'
      exact (h.listed y m' hm').imp_left (hstay hy hm')
  · refine goto_forall ?_ fun y _ => h.told y
    have := h.told x
    rw [hx] at this
    exact this

omit [DecidableEq X] in
/-- Fibers are taken out of the parked list. A task may become done if all of them are, and a timer
entry leaves the list if its deadline has passed and its fiber is taken. -/
theorem take {l : List X} (h : s.Sound)
    (hw : s'.fibers.Waiting (· = .parked) fun x => (s.pc x).queue X)
    (hd : ∀ y ∈ s'.fibers.lists .parked, y ∈ s.fibers.lists .parked ∧ y ∉ l)
    (hpc : s'.pc = s.pc) (hnow : s.now ≤ s'.now) (hnext : s'.next = s.next)
    (ht : s'.timers.Sublist s.timers)
    (hgone : ∀ e ∈ s.timers, e ∈ s'.timers ∨ e.deadline ≤ s.now ∧ e.fiber ∈ l)
    (hdone : ∀ t, s.done t → s'.done t)
    (hkept : ∀ t, s'.done t = s.done t ∨ ∀ y ∈ s.fibers.lists .parked, y ∈ l) : s'.Sound where
  waiting := by rw [hpc]; exact hw
  timers := by rw [hpc, hnext]; exact h.timers.sublist ht
  sorted := h.sorted.sublist ht
  kept y hy c e hc := by
    obtain ⟨hy', hxs⟩ := hd y hy
    rw [hpc] at hc
    obtain ⟨h1, h2⟩ := h.kept y hy' c e hc
    refine ⟨fun t ht => ?_, fun m hm => ?_⟩
    · rcases hkept t with e | hall
      · rw [e]
        exact h1 t ht
      · exact absurd (hall y hy') hxs
    · exact (hgone _ (h2 m hm)).resolve_right fun hg => hxs hg.2
  listed y m hm := by
    rw [hpc] at hm
    rcases h.listed y m hm with hmem | hle
    · exact (hgone _ hmem).imp_right fun hg => Int.le_trans hg.1 hnow
    · exact .inr (Int.le_trans hle hnow)
  told y := by
    rw [hpc]
    exact (h.told y).mono hdone hnow

theorem publish (h : s.Sound) (p : Publisher X) :
    { s with fibers := s.fibers.publish (.hand p) }.Sound := by
  have hne : (Place.parked : Place X) ≠ .hand p := fun e => by cases e
  refine h.take (l := []) (h.waiting.publish _) (fun y hy => ⟨?_, List.not_mem_nil⟩) rfl
    (Int.le_refl _) rfl (.refl _) (fun _ he => .inl he) (fun _ => id) fun _ => .inl rfl
  rwa [← Parking.publish_lists_of_ne hne]

omit [DecidableEq X] in
theorem tick (h : s.Sound) (hnow : s.now ≤ now') : { s with now := now' }.Sound :=
  h.take (l := []) h.waiting (fun _ hy => ⟨hy, List.not_mem_nil⟩) rfl hnow rfl (.refl _)
    (fun _ he => .inl he) (fun _ => id) fun _ => .inl rfl

theorem fireWaiters_detached (h : s.Sound) (p : Publisher X) (hit : Waiter X Fd → Bool) :
    Detached p ((s.waiters.filter hit).map (·.fiber)) s.fibers (s.fireWaiters p hit).fibers := by
  rw [fireWaiters_eq]
  exact (detachAll_detached h.waiting _).2

theorem fireWaiters (h : s.Sound) (p : Publisher X) (hit : Waiter X Fd → Bool) :
    (s.fireWaiters p hit).Sound := by
  rw [fireWaiters_eq]
  obtain ⟨hw, hd⟩ := detachAll_detached (p := p) h.waiting ((s.waiters.filter hit).map (·.fiber))
  exact h.take hw (fun y => (hd.mem_parked y).mp) rfl (Int.le_refl _) rfl (.refl _)
    (fun _ he => .inl he) (fun _ => id) fun _ => .inl rfl

theorem timerRound (h : s.Sound) : s.timerRound.Sound := by
  obtain ⟨hw, hd⟩ := detachAll_detached (p := .timer) h.waiting
    ((s.timers.takeWhile (·.deadline ≤ s.now)).map (·.fiber))
  refine h.take hw (fun y => (hd.mem_parked y).mp) rfl (Int.le_refl _) rfl
    (List.dropWhile_sublist _) (fun e he => ?_) (fun _ => id) fun _ => .inl rfl
  rw [← List.takeWhile_append_dropWhile (p := fun e => decide (e.deadline ≤ s.now)) (l := s.timers),
    List.mem_append] at he
  refine he.symm.imp_right fun he => ⟨?_, List.mem_map_of_mem he⟩
  have hle := List.mem_takeWhile_imp (p := fun e : TimerEntry X => decide (e.deadline ≤ s.now)) he
  exact of_decide_eq_true hle

theorem complete [DecidableEq T] (h : s.Sound) (t : T) (hx : s.pc x = .user) :
    (s.completeSection x t).Sound := by
  have hne : (Place.parked : Place X) ≠ .hand (.fiber x) := fun e => by cases e
  have hw : ¬(Place.hand (.fiber x) : Place X) = .parked := fun e => by cases e
  have hall : (s.fibers.lists .parked).Perm (s.fibers.lists .parked ++ []) :=
    .of_eq (List.append_nil _).symm
  have hd (t' : T) (ht : s.done t') : Function.update s.done t true t' := by
    rw [Function.update_apply]
    split
    · rfl
    · exact ht
  have h' : { s with
      done := Function.update s.done t true
      fibers := s.fibers.shift .parked (.hand (.fiber x)) (s.fibers.lists .parked) [] }.Sound := by
    refine h.take (l := s.fibers.lists .parked) (h.waiting.shift hall hne hw) (fun y hy => ?_) rfl
      (Int.le_refl _) rfl (.refl _) (fun _ he => .inl he) hd fun _ => .inr fun _ => id
    rw [Parking.shift_lists_self hne] at hy
    exact absurd hy List.not_mem_nil
  exact h'.goto (by rw [hx]; rfl) rfl (by rw [hx]; rfl) trivial

end Sound

/-! ## Runs -/

theorem unlist_eq : ∃ waiters, s.unlist c = { s with waiters } := by
  cases c with
  | task => exact ⟨s.waiters, rfl⟩
  | io fd events record => exact ⟨_, rfl⟩

theorem Sound.unlist (h : s.Sound) : (s.unlist c).Sound ∧ (s.unlist c).pc = s.pc ∧
    (s.unlist c).done = s.done ∧ (s.unlist c).now = s.now := by
  obtain ⟨ws, e⟩ := unlist_eq (s := s) (c := c)
  rw [e]
  exact ⟨h.congr rfl rfl rfl (Nat.le_refl _) rfl rfl, rfl, rfl, rfl⟩

theorem Sound.note (h : s.Sound) (os : List (Occasion Fd)) : (s.note os).Sound :=
  h.congr rfl rfl rfl (Nat.le_refl _) rfl rfl

variable [DecidableEq X]

theorem fireWaiters_pc (p : Publisher X) (hit : Waiter X Fd → Bool) :
    (s.fireWaiters p hit).pc = s.pc := by
  rw [fireWaiters_eq]

theorem Sound.finish (h : s.Sound) (hx : (s.pc x).queue X = none) (ht : (s.pc x).timer = e)
    (hr : r.Right s.done s.now c e) : (s.finish x c e r).Sound := by
  rw [finish_eq]
  exact h.goto hx Pc.finished_queue (Pc.finished_timer.trans ht.symm) (Pc.finished_told.mpr hr)

theorem Sound.topSection (h : s.Sound) (hx : s.pc x = .top c e) : (s.topSection x c e).Sound := by
  have hq : (s.pc x).queue X = none := by rw [hx]; rfl
  have ht : (s.pc x).timer = e := by rw [hx]; rfl
  unfold System.topSection
  split
  · next hready =>
    exact h.finish hq ht fun t hc => by subst hc; exact hready
  · next hready =>
    split
    · next hexp =>
      obtain ⟨hu, hpc, -, hnow⟩ := h.unlist (c := c)
      refine hu.finish (by rw [hpc, hq]) (by rw [hpc, ht]) ?_
      cases e with
      | none => cases hexp
      | some m => exact ⟨m, rfl, by rw [hnow]; exact of_decide_eq_true hexp⟩
    · next hexp =>
      refine h.park hq ht (fun t hc => ?_) fun m hm => ?_
      · subst hc
        exact eq_false_of_ne_true hready
      · subst hm
        refine (h.listed x m ht).resolve_right fun hle => hexp ?_
        exact decide_eq_true hle

theorem Sound.ioEnter (h : s.Sound) (hx : s.pc x = .ioEnter fd events deadline) :
    (s.ioEnterSection x fd events deadline).Sound := by
  have hq : (s.pc x).queue X = none := by rw [hx]; rfl
  have ht : (s.pc x).timer = none := by rw [hx]; rfl
  cases deadline with
  | none =>
    have h' := h.park (c := .io fd events s.next) hq ht (fun _ hc => by cases hc)
      fun _ hm => by cases hm
    exact h'.congr rfl rfl rfl (Nat.le_succ _) rfl rfl
  | some d =>
    have h' := h.insert (c := .io fd events s.next) d hq ht
    exact h'.congr rfl rfl rfl (Nat.le_refl _) rfl rfl

variable [DecidableEq Fd]

theorem Sound.reactorEvents (h : s.Sound) (evs : List (Event Fd)) :
    (evs.foldl reactorEvent s).Sound := by
  induction evs generalizing s with
  | nil => exact h
  | cons ev evs ih => exact ih (h.fireWaiters .reactor _)

theorem Sound.reactorRound (h : s.Sound) : s.reactorRound.Sound :=
  (h.reactorEvents s.batch).congr rfl rfl rfl (Nat.le_refl _) rfl rfl

variable [DecidableEq T] {a : Action X T}

theorem Sound.step (h : s.Sound) (hs : Step s a s') : s'.Sound := by
  have hgoto {x : X} {pc pc' : Pc T Fd} (hx : s.pc x = pc) (hq : pc.queue X = none)
      (hq' : pc'.queue X = none) (ht : pc'.timer = pc.timer) (htold : pc'.Told s.done s.now) :
      (s.goto x pc').Sound := by
    subst hx
    exact h.goto hq hq' ht htold
  have hclear {x : X} : (s.clearCancel x).Sound := h.congr rfl rfl rfl (Nat.le_refl _) rfl rfl
  cases hs with
  | taskStart t hx => exact hgoto hx rfl rfl rfl trivial
  | @taskEnter x t hx =>
    unfold taskEnterSection
    split
    · exact hclear.goto (by show (s.pc x).queue X = _; rw [hx]; rfl) rfl
        (by show _ = (s.pc x).timer; rw [hx]; rfl) trivial
    · exact hgoto hx rfl rfl rfl trivial
  | timedEnter t deadline hx => exact h.insert deadline (by rw [hx]; rfl) (by rw [hx]; rfl)
  | @ioStart x fd events timeoutMs hx =>
    have hq : (s.pc x).queue X = none := by rw [hx]; rfl
    have ht : none = (s.pc x).timer := by rw [hx]; rfl
    have hsince : { s with since := Function.update s.since x [] }.Sound :=
      h.congr rfl rfl rfl (Nat.le_refl _) rfl rfl
    exact hsince.goto hq rfl ht trivial
  | ioEnter hx => exact h.ioEnter hx
  | ioFail hx => exact hgoto hx rfl rfl rfl fun _ hc => by cases hc
  | top hx => exact h.topSection hx
  | resume hx hr =>
    exact h.resume hr Pc.resumed_queue (by rw [Pc.resumed_timer, hx]; rfl) Pc.resumed_told
  | @woken x c e hx =>
    have hq : (s.pc x).queue X = none := by rw [hx]; rfl
    have ht : (s.pc x).timer = e := by rw [hx]; rfl
    unfold wokenSection
    split
    · cases c with
      | task t => exact hclear.finish (x := x) hq ht trivial
      | io fd events record => exact hclear.goto (x := x) hq rfl ht.symm trivial
    · exact h.goto hq rfl ht.symm trivial
  | @withdraw x c e hx =>
    obtain ⟨hu, hpc, -, -⟩ := h.unlist (c := c)
    exact hu.finish (by rw [hpc, hx]; rfl) (by rw [hpc, hx]; rfl) trivial
  | cancelTimer hx => exact h.cancelTimer hx
  | ended hx => exact hgoto hx rfl rfl rfl trivial
  | complete t hx => exact h.complete t hx
  | @closeFd x fd hx =>
    have hq : ((s.note [.closed fd]).pc x).queue X = none := by
      show (s.pc x).queue X = none
      rw [hx]
      rfl
    have ht : none = ((s.note [.closed fd]).pc x).timer := by
      show none = (s.pc x).timer
      rw [hx]
      rfl
    refine ((h.note [.closed fd]).fireWaiters (.fiber x) _).goto ?_ rfl ?_ trivial
    · rw [fireWaiters_pc, hq]
    · rw [fireWaiters_pc, ← ht]
      rfl
  | publish => exact h.publish _
  | published hx => exact hgoto hx rfl rfl rfl trivial
  | timerRound => exact h.timerRound
  | timerPublish => exact h.publish _
  | reactorFetch evs => exact h.congr rfl rfl rfl (Nat.le_refl _) rfl rfl
  | reactorRound => exact h.reactorRound
  | reactorPublish => exact h.publish _
  | tick now hnow => exact h.tick hnow
  | cancel => exact h.congr rfl rfl rfl (Nat.le_refl _) rfl rfl

/-! ## Who publishes -/

/-- A fiber holds fibers only while it publishes them. -/
def Handed (s : System X T Fd) : Prop :=
  ∀ x, s.fibers.lists (.hand (.fiber x)) ≠ [] → s.pc x = .publishing

namespace Handed

omit [DecidableEq X] [DecidableEq Fd] [DecidableEq T] in
theorem of_lists (h : s.Handed) (hl : ∀ y, s'.fibers.lists (.hand (.fiber y)) ≠ [] →
    s.fibers.lists (.hand (.fiber y)) ≠ []) (hpc : s'.pc = s.pc) : s'.Handed :=
  fun y hne => (congrFun hpc y).trans (h y (hl y hne))

omit [DecidableEq Fd] [DecidableEq T] in
theorem goto (h : s.Handed) (hx : s.fibers.lists (.hand (.fiber x)) = []) :
    (s.goto x pc).Handed := fun y hne => by
  have hy : y ≠ x := fun e => hne (e ▸ hx)
  exact (goto_pc_of_ne hy).trans (h y hne)

omit [DecidableEq Fd] [DecidableEq T] in
theorem goto_of_ne (h : s.Handed) (hx : s.pc x ≠ .publishing) : (s.goto x pc).Handed :=
  h.goto (not_not.mp fun hne => hx (h x hne))

omit [DecidableEq Fd] [DecidableEq T] in
theorem finish (h : s.Handed) (hx : s.pc x ≠ .publishing) : (s.finish x c e r).Handed := by
  rw [finish_eq]
  exact h.goto_of_ne hx

omit [DecidableEq X] [DecidableEq Fd] [DecidableEq T] in
theorem unlist (h : s.Handed) : (s.unlist c).Handed := by
  obtain ⟨ws, e⟩ := unlist_eq (s := s) (c := c)
  rw [e]
  exact h

omit [DecidableEq Fd] [DecidableEq T] in
theorem park (h : s.Handed) (hx : s.pc x ≠ .publishing) :
    ({ s with fibers := s.fibers.parkFront .parked x }.goto x pc).Handed := by
  refine goto_of_ne (fun y hne => h y fun e => hne ?_) hx
  exact (parkFront_hand s.fibers (.fiber y)).trans e

omit [DecidableEq Fd] [DecidableEq T] in
theorem publish (h : s.Handed) (p : Publisher X) :
    { s with fibers := s.fibers.publish (.hand p) }.Handed := fun y hne => by
  by_cases hp : Place.hand (.fiber y) = Place.hand p
  · cases hp
    refine h y fun e => hne ?_
    show (s.fibers.publish (.hand (.fiber y))).lists (.hand (.fiber y)) = []
    unfold Parking.publish
    rw [e]
    exact e
  · exact h y fun e => hne ((Parking.publish_lists_of_ne hp).trans e)

omit [DecidableEq Fd] [DecidableEq T] in
theorem take {l : List X} (h : s.Handed) (hd : Detached (.fiber x) l s.fibers s'.fibers)
    (hpc : s'.pc = s.pc) : (s'.goto x .publishing).Handed := fun y hne => by
  by_cases hy : y = x
  · rw [hy, goto_pc_self]
  · rw [goto_pc_of_ne hy, hpc]
    have hp : (Place.hand (.fiber y) : Place X) ≠ .hand (.fiber x) := fun e => by
      cases e
      exact hy rfl
    exact h y fun e => hne ((hd.lists_of_ne _ (fun e => by cases e) hp).trans e)

omit [DecidableEq Fd] [DecidableEq T] in
theorem fireWaiters (h : s.Handed) (hw : s.Sound) (p : Publisher X) (hit : Waiter X Fd → Bool)
    (hp : ∀ y, p ≠ .fiber y) : (s.fireWaiters p hit).Handed := by
  have hd := hw.fireWaiters_detached p hit
  refine h.of_lists (fun y hne e => hne ?_) (fireWaiters_pc ..)
  exact (hd.lists_of_ne _ (fun e => by cases e) fun e => hp y (by cases e; rfl)).trans e

end Handed

omit [DecidableEq T] in
theorem Handed.reactorEvents (h : s.Handed) (hw : s.Sound) (evs : List (Event Fd)) :
    (evs.foldl reactorEvent s).Handed := by
  induction evs generalizing s with
  | nil => exact h
  | cons ev evs ih =>
    exact ih (h.fireWaiters hw .reactor _ fun _ e => by cases e) (hw.fireWaiters .reactor _)

theorem Handed.step (h : s.Handed) (hw : s.Sound) (hs : Step s a s') : s'.Handed := by
  have hgoto {x : X} {pc pc' : Pc T Fd} (hx : s.pc x = pc) (hpc : pc ≠ .publishing) :
      (s.goto x pc').Handed := h.goto_of_ne (hx ▸ hpc)
  cases hs with
  | taskStart t hx => exact hgoto hx fun e => by cases e
  | @taskEnter x t hx =>
    unfold taskEnterSection
    split
    · exact hgoto hx fun e => by cases e
    · exact hgoto hx fun e => by cases e
  | timedEnter t deadline hx => exact hgoto hx fun e => by cases e
  | ioStart fd events timeoutMs hx => exact hgoto hx fun e => by cases e
  | @ioEnter x fd events deadline hx =>
    cases deadline with
    | none => exact h.park (by rw [hx]; exact fun e => by cases e)
    | some d => exact hgoto hx fun e => by cases e
  | ioFail hx => exact hgoto hx fun e => by cases e
  | @top x c e hx =>
    have hx' : s.pc x ≠ .publishing := by rw [hx]; exact fun e => by cases e
    unfold topSection
    split
    · exact h.finish hx'
    · split
      · obtain ⟨-, hpc, -, -⟩ := hw.unlist (c := c)
        exact h.unlist.finish (by rw [hpc]; exact hx')
      · exact h.park hx'
  | resume hx => exact hgoto hx fun e => by cases e
  | @woken x c e hx =>
    have hx' : s.pc x ≠ .publishing := by rw [hx]; exact fun e => by cases e
    unfold wokenSection
    split
    · cases c with
      | task t => exact Handed.finish (s := s.clearCancel x) h hx'
      | io fd events record => exact h.goto_of_ne hx'
    · exact h.goto_of_ne hx'
  | @withdraw x c e hx =>
    obtain ⟨-, hpc, -, -⟩ := hw.unlist (c := c)
    exact h.unlist.finish (by rw [hpc, hx]; exact fun e => by cases e)
  | cancelTimer hx => exact hgoto hx fun e => by cases e
  | ended hx => exact hgoto hx fun e => by cases e
  | @complete x t hx =>
    have hne : (Place.parked : Place X) ≠ .hand (.fiber x) := fun e => by cases e
    refine h.take (l := s.fibers.lists .parked) ⟨fun y => ?_, fun q h1 h2 => ?_, rfl⟩ rfl
    · rw [Parking.shift_lists_self hne]
      exact iff_of_false List.not_mem_nil fun hy => hy.2 hy.1
    · exact Parking.shift_lists_of_ne h1 h2
  | closeFd fd hx =>
    exact h.take ((hw.note [.closed fd]).fireWaiters_detached _ _) (fireWaiters_pc ..)
  | publish => exact h.publish _
  | published hx hnil => exact h.goto hnil
  | timerRound =>
    obtain ⟨-, hd⟩ := detachAll_detached (p := .timer) hw.waiting
      ((s.timers.takeWhile (·.deadline ≤ s.now)).map (·.fiber))
    refine h.of_lists (fun y hne e => hne ?_) rfl
    exact (hd.lists_of_ne _ (fun e => by cases e) fun e => by cases e).trans e
  | timerPublish => exact h.publish _
  | reactorFetch => exact h
  | reactorRound => exact h.reactorEvents hw s.batch
  | reactorPublish => exact h.publish _
  | tick => exact h
  | cancel => exact h

theorem Reachable.invariants (h : s.Reachable) : s.Sound ∧ s.Handed := by
  obtain ⟨as, h⟩ := h
  refine h.preserves (P := fun s => s.Sound ∧ s.Handed) (fun _ _ _ hs h => ?_) ⟨.initial, ?_⟩
  · exact ⟨h.1.step hs, h.2.step h.1 hs⟩
  · exact fun _ hne => absurd rfl hne

omit [DecidableEq X] [DecidableEq Fd] [DecidableEq T] in
theorem Sound.takenOut (h : s.Sound) (hh : s.Handed) (hx : s.pc x = .swap (.task t) e)
    (hgone : s.done t ∨ ∃ m, e = some m ∧ ⟨m.deadline, x, m.entry⟩ ∉ s.timers) : s.TakenOut x := by
  have hpark : x ∉ s.fibers.lists .parked := fun hmem => by
    obtain ⟨h1, h2⟩ := h.kept x hmem _ _ hx
    rcases hgone with hd | ⟨m, hm, hg⟩
    · rw [h1 t rfl] at hd
      cases hd
    · exact hg (h2 m hm)
  refine ⟨hpark, ?_⟩
  rcases h.waiting.cases_of_want (x := x) (q := .parked) (by rw [hx]; rfl) with
    hq | ⟨r, hr, hq⟩ | hq
  · exact absurd hq hpark
  · cases r with
    | parked => exact absurd rfl hr
    | hand p =>
      refine .inl ⟨p, ?_, hq⟩
      cases p with
      | fiber y => exact hh y (List.ne_nil_of_mem hq)
      | timer => trivial
      | reactor => trivial
  · exact .inr hq

/-- In every reachable state: a wait for a task that returns has its task done; one with a deadline
returns that the task is done or that the deadline has passed, and when it returns or throws no
timer entry of the fiber is in the list; a suspended fiber whose task is done or whose timer entry
is consumed has been taken out of the parked list; and the timer list is sorted. -/
theorem task_wait_exact (h : s.Reachable) :
    (∀ x t r, s.pc x = .ended (.task t) none r → r = .thrown ∨ r = .done ∧ s.done t) ∧
    (∀ x t m r, s.pc x = .ended (.task t) (some m) r →
      (r = .thrown ∨ r = .done ∧ s.done t ∨ r = .timeout ∧ m.deadline ≤ s.now) ∧
        ∀ e ∈ s.timers, e.fiber ≠ x) ∧
    (∀ x t e, s.pc x = .swap (.task t) e →
      (s.done t ∨ ∃ m, e = some m ∧ ⟨m.deadline, x, m.entry⟩ ∉ s.timers) → s.TakenOut x) ∧
    s.timers.Pairwise (·.deadline ≤ ·.deadline) := by
  obtain ⟨hs, hh⟩ := h.invariants
  refine ⟨fun x t r hx => ?_, fun x t m r hx => ⟨?_, ?_⟩, fun x t e hx hg => ?_, hs.sorted⟩
  · have hr : (Pc.ended (.task t : Cause T Fd) none r).Told s.done s.now := hx ▸ hs.told x
    cases r with
    | done => exact .inr ⟨rfl, hr t rfl⟩
    | timeout =>
      obtain ⟨m, hm, -⟩ := hr
      cases hm
    | thrown => exact .inl rfl
    | failed => exact absurd rfl (hr t)
  · have hr : (Pc.ended (.task t : Cause T Fd) (some m) r).Told s.done s.now := hx ▸ hs.told x
    cases r with
    | done => exact .inr (.inl ⟨rfl, hr t rfl⟩)
    | timeout =>
      obtain ⟨m', hm, hle⟩ := hr
      cases hm
      exact .inr (.inr ⟨rfl, hle⟩)
    | thrown => exact .inl rfl
    | failed => exact absurd rfl (hr t)
  · exact hs.timers.not_mem (by rw [hx]; rfl)
  · exact hs.takenOut hh hx hg

/-- Fiber `0` waits for the task `7` up to a deadline; fiber `1` completes the task, and the wait
returns. -/
theorem task_wait_exact_completed :
    ∃ s : System Nat Nat Nat, s.pc 0 = .ended (.task 7) (some ⟨10, 0⟩) .done ∧ s.done 7 ∧
      ∀ e ∈ s.timers, e.fiber ≠ 0 := by
  let s₁ : System Nat Nat Nat := initial.timedEnterSection 0 7 10
  let s₂ := s₁.topSection 0 (.task 7) (some ⟨10, 0⟩)
  let s₃ := s₂.completeSection 1 7
  let s₄ := { s₃ with fibers := s₃.fibers.publish (.hand (.fiber 1)) }
  let s₅ := { s₄ with fibers := s₄.fibers.resume 0 }.goto 0 (.resumed (.task 7) (some ⟨10, 0⟩))
  let s₆ := s₅.wokenSection 0 (.task 7) (some ⟨10, 0⟩)
  let s₇ := s₆.topSection 0 (.task 7) (some ⟨10, 0⟩)
  let s₈ := s₇.cancelTimerSection 0 (.task 7) ⟨10, 0⟩ .done
  have h : s₈.Reachable := by
    refine ⟨_, .cons (.timedEnter 7 10 rfl) <| .cons (.top rfl) <| .cons (.complete 7 rfl) <|
      .cons (.publish rfl ?_) <| .cons (.resume rfl rfl) <| .cons (.woken rfl) <|
      .cons (.top rfl) <| .cons (.cancelTimer rfl) .nil⟩
    exact List.cons_ne_nil 0 []
  have hx : s₈.pc 0 = .ended (.task 7) (some ⟨10, 0⟩) .done := rfl
  exact ⟨s₈, hx, rfl, ((task_wait_exact h).2.1 0 7 _ _ hx).2⟩

end System

end Cajeta.Concurrent.FiberWait
