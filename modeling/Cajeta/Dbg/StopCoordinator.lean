import Cajeta.Lib.Transition
import Mathlib.Algebra.Ring.Nat
import Mathlib.Data.List.Nodup
import Mathlib.Tactic.Common

/-!
# The stop coordinator

The rendezvous of a debugger stop: a round is opened, carriers park at their next safepoint, the
debugger waits until enough of them have, and then clears the round. Each mutex section and each
wake-up is one step.
-/

namespace Cajeta.Dbg

/-- A carrier blocked in `stopPark`. Nothing reads `round`: it tells in which round the carrier
came. It is signalled when a broadcast has ended its wait. -/
structure Parker (C : Type) where
  carrier : C
  gen : Nat
  signalled : Bool
  round : Nat

structure StopCoordinator (C : Type) where
  requested : Bool
  /-- An `unsigned`. -/
  generation : Nat
  parked : Int
  expected : Int
  parkers : List (Parker C)
  /-- The number of rounds opened; nothing reads it. -/
  rounds : Nat

namespace StopCoordinator
variable {C : Type}

def initial : StopCoordinator C := ⟨false, 0, 0, 0, [], 0⟩

def carriers (s : StopCoordinator C) : List C := s.parkers.map (·.carrier)

def nextGeneration (s : StopCoordinator C) : Nat := (s.generation + 1) % 2 ^ 32

def stopRequest (s : StopCoordinator C) : StopCoordinator C :=
  if s.requested then s
  else { s with requested := true, generation := s.nextGeneration, rounds := s.rounds + 1 }

/-- The broadcast of `stopClear` reaches every carrier that waits. -/
def stopClear (s : StopCoordinator C) : StopCoordinator C :=
  { s with
    requested := false
    generation := s.nextGeneration
    parkers := s.parkers.map fun p => { p with signalled := true } }

def stopSetExpected (s : StopCoordinator C) (n : Int) : StopCoordinator C :=
  { s with expected := n }

/-- The section of `stopPark` up to its first wait, or to its end when no round is open. -/
def stopPark (s : StopCoordinator C) (c : C) : StopCoordinator C :=
  if s.requested then
    { s with
      parked := s.parked + 1
      parkers := ⟨c, s.generation, false, s.rounds⟩ :: s.parkers }
  else s

/-- The loop condition of `stopPark`. -/
def stays (s : StopCoordinator C) (p : Parker C) : Bool := s.requested && s.generation == p.gen

variable [DecidableEq C]

/-- A wake-up of `stopPark`, spurious or not: it waits again or leaves. -/
def stopResume (s : StopCoordinator C) (p : Parker C) : StopCoordinator C :=
  if s.stays p then
    { s with
      parkers := s.parkers.map fun q =>
        if q.carrier = p.carrier then { q with signalled := false } else q }
  else { s with parked := s.parked - 1, parkers := s.parkers.eraseP (·.carrier = p.carrier) }

/-- What `stopWaitConverged` returns, when it does. -/
def missing (s : StopCoordinator C) : Int := max 0 (s.expected - s.parked)

inductive Action (C : Type) where
  | request
  | clear
  | setExpected (n : Int)
  | park (c : C)
  | resume (c : C)
  | waitReturns (missing : Int)

def step (s : StopCoordinator C) : Action C → Option (StopCoordinator C)
  | .request => some s.stopRequest
  | .clear => some s.stopClear
  | .setExpected n => some (s.stopSetExpected n)
  | .park c => if c ∈ s.carriers then none else some (s.stopPark c)
  | .resume c => (s.parkers.find? (·.carrier = c)).map s.stopResume
  | .waitReturns n => if n = s.missing then some s else none

abbrev Step (s : StopCoordinator C) (a : Action C) (s' : StopCoordinator C) : Prop :=
  s.step a = some s'

/-! ## Carriers of the open round -/

def parkedNow (s : StopCoordinator C) : List C :=
  (s.parkers.filter (·.round = s.rounds)).map (·.carrier)

theorem carriers_resume_sublist {s : StopCoordinator C} {p : Parker C} :
    (s.stopResume p).carriers.Sublist s.carriers := by
  rw [stopResume]
  split
  · simp only [carriers, List.map_map]
    rw [List.map_congr_left (g := fun q : Parker C => q.carrier)]
    intro q _
    simp only [Function.comp_apply]
    split <;> rfl
  · exact List.eraseP_sublist.map _

omit [DecidableEq C] in
theorem carriers_clear {s : StopCoordinator C} : s.stopClear.carriers = s.carriers := by
  simp only [stopClear, carriers, List.map_map]
  rfl

theorem nodup_step {s s' : StopCoordinator C} (h : Step s a s') (hs : s.carriers.Nodup) :
    s'.carriers.Nodup := by
  cases a with
  | request =>
    cases h
    rw [stopRequest]
    split
    · exact hs
    · exact hs
  | clear =>
    cases h
    rwa [carriers_clear]
  | setExpected n =>
    cases h
    exact hs
  | park c =>
    simp only [Step, step] at h
    split at h
    · cases h
    · next hc =>
      cases h
      rw [stopPark]
      split
      · exact List.nodup_cons.mpr ⟨hc, hs⟩
      · exact hs
  | resume c =>
    obtain ⟨p, -, rfl⟩ := Option.map_eq_some_iff.mp h
    exact carriers_resume_sublist.nodup hs
  | waitReturns n =>
    simp only [Step, step] at h
    split at h
    · cases h
      exact hs
    · cases h

omit [DecidableEq C] in
theorem eq_of_carrier_eq {s : StopCoordinator C} (hs : s.carriers.Nodup) (hp : p ∈ s.parkers)
    (hq : q ∈ s.parkers) (h : p.carrier = q.carrier) : p = q :=
  List.inj_on_of_nodup_map hs hp hq h

theorem carrier_notMem_eraseP {ps : List (Parker C)} (hs : (ps.map (·.carrier)).Nodup) :
    c ∉ (ps.eraseP (·.carrier = c)).map (·.carrier) := by
  have herase : (ps.eraseP (·.carrier = c)).map (·.carrier) = (ps.map (·.carrier)).erase c := by
    rw [List.erase_eq_eraseP', List.eraseP_map]
    rfl
  rw [herase]
  exact hs.not_mem_erase

/-- The carrier parked in the open round, and would stay if it woke up. -/
def Holds (s : StopCoordinator C) (c : C) : Prop :=
  s.requested ∧ ∃ p ∈ s.parkers, p.carrier = c ∧ p.round = s.rounds ∧ p.gen = s.generation

theorem holds_resume {s : StopCoordinator C} (hs : s.carriers.Nodup) (hp : p ∈ s.parkers)
    (h : s.Holds c) : (s.stopResume p).Holds c := by
  obtain ⟨hreq, q, hq, rfl, hround, hgen⟩ := h
  rw [stopResume]
  split
  · refine ⟨hreq, _, List.mem_map_of_mem hq, ?_⟩
    split
    · exact ⟨rfl, hround, hgen⟩
    · exact ⟨rfl, hround, hgen⟩
  · next hleaves =>
    refine ⟨hreq, q, (List.mem_eraseP_of_neg fun heq => ?_).mpr hq, rfl, hround, hgen⟩
    obtain rfl := eq_of_carrier_eq hs hq hp (of_decide_eq_true heq)
    simp [stays, hreq, hgen] at hleaves

theorem holds_step {s s' : StopCoordinator C} (h : Step s a s') (ha : a ≠ .clear)
    (hs : s.carriers.Nodup) (hc : s.Holds c) : s'.Holds c := by
  cases a with
  | request =>
    cases h
    rw [stopRequest, if_pos hc.1]
    exact hc
  | clear => exact absurd rfl ha
  | setExpected n =>
    cases h
    exact hc
  | park d =>
    simp only [Step, step] at h
    split at h
    · cases h
    · cases h
      obtain ⟨hreq, p, hp, hrest⟩ := hc
      rw [stopPark, if_pos hreq]
      exact ⟨hreq, p, List.mem_cons_of_mem _ hp, hrest⟩
  | resume d =>
    obtain ⟨p, hp, rfl⟩ := Option.map_eq_some_iff.mp h
    exact holds_resume hs (List.mem_of_find?_eq_some hp) hc
  | waitReturns n =>
    simp only [Step, step] at h
    split at h
    · cases h
      exact hc
    · cases h

theorem holds_run {s s' : StopCoordinator C} (h : Steps Step s as s') (has : .clear ∉ as)
    (hs : s.carriers.Nodup) (hc : s.Holds c) : s'.Holds c := by
  induction h with
  | nil => exact hc
  | cons ha _ ih =>
    rw [List.mem_cons, not_or] at has
    exact ih has.2 (nodup_step ha hs) (holds_step ha (Ne.symm has.1) hs hc)

omit [DecidableEq C] in
theorem Holds.mem_parkedNow {s : StopCoordinator C} (h : s.Holds c) : c ∈ s.parkedNow := by
  obtain ⟨-, p, hp, rfl, hround, -⟩ := h
  exact List.mem_map.mpr ⟨p, List.mem_filter.mpr ⟨hp, by simpa using hround⟩, rfl⟩

/-! ## Rounds that open on an empty rendezvous -/

/-- A round is opened only when no carrier of an earlier one is still in `stopPark`. -/
def OpensQuiet (s : StopCoordinator C) (a : Action C) : Prop :=
  a = .request → ¬ s.requested → s.parkers = []

structure Quiet (s : StopCoordinator C) : Prop where
  nodup : s.carriers.Nodup
  count : s.parked = s.parkers.length
  round : ∀ p ∈ s.parkers, p.round = s.rounds
  gen : s.requested → ∀ p ∈ s.parkers, p.gen = s.generation
  signalled : ¬ s.requested → ∀ p ∈ s.parkers, p.signalled

omit [DecidableEq C] in
theorem quiet_initial : (initial : StopCoordinator C).Quiet := by
  refine ⟨List.nodup_nil, rfl, ?_, ?_, ?_⟩ <;> simp [initial]

omit [DecidableEq C] in
theorem quiet_request {s : StopCoordinator C} (hs : s.Quiet) (h : OpensQuiet s .request) :
    s.stopRequest.Quiet := by
  rw [stopRequest]
  split
  · exact hs
  · next hreq =>
    have hnone := h rfl hreq
    have hcount := hs.count
    rw [hnone] at hcount
    refine ⟨hs.nodup, ?_, ?_, ?_, ?_⟩ <;> simp [hnone, hcount]

omit [DecidableEq C] in
theorem quiet_clear {s : StopCoordinator C} (hs : s.Quiet) : s.stopClear.Quiet := by
  refine ⟨?_, ?_, ?_, ?_, ?_⟩
  · rw [carriers_clear]
    exact hs.nodup
  · simpa [stopClear] using hs.count
  · simpa [stopClear] using hs.round
  · simp [stopClear]
  · simp [stopClear]

omit [DecidableEq C] in
theorem quiet_park {s : StopCoordinator C} (hs : s.Quiet) (hc : c ∉ s.carriers) :
    (s.stopPark c).Quiet := by
  rw [stopPark]
  split
  · next hreq =>
    refine ⟨List.nodup_cons.mpr ⟨hc, hs.nodup⟩, ?_, List.forall_mem_cons.mpr ⟨rfl, hs.round⟩,
      fun _ => List.forall_mem_cons.mpr ⟨rfl, hs.gen hreq⟩, fun h => absurd hreq h⟩
    simp [hs.count]
  · exact hs

theorem quiet_resume {s : StopCoordinator C} (hs : s.Quiet) (hp : p ∈ s.parkers) :
    (s.stopResume p).Quiet := by
  have hnodup := carriers_resume_sublist (p := p).nodup hs.nodup
  rw [stopResume] at hnodup ⊢
  split
  · next hstays =>
    rw [if_pos hstays] at hnodup
    have hreq : s.requested := by
      rw [stays, Bool.and_eq_true] at hstays
      exact hstays.1
    refine ⟨hnodup, ?_, ?_, fun _ => ?_, fun h => absurd hreq h⟩
    · simp [hs.count]
    · intro q hq
      obtain ⟨r, hr, rfl⟩ := List.mem_map.mp hq
      split <;> exact hs.round r hr
    · intro q hq
      obtain ⟨r, hr, rfl⟩ := List.mem_map.mp hq
      split <;> exact hs.gen hreq r hr
  · next hleaves =>
    rw [if_neg hleaves] at hnodup
    refine ⟨hnodup, ?_, fun q hq => hs.round q (List.mem_of_mem_eraseP hq),
      fun h q hq => hs.gen h q (List.mem_of_mem_eraseP hq),
      fun h q hq => hs.signalled h q (List.mem_of_mem_eraseP hq)⟩
    have hlen := List.length_eraseP_of_mem (p := fun q : Parker C => q.carrier = p.carrier) hp
      (by simp)
    have hpos := List.length_pos_of_mem hp
    have hcount := hs.count
    simp only [hlen]
    omega

theorem quiet_step {s s' : StopCoordinator C} (hs : s.Quiet) (hopens : OpensQuiet s a)
    (h : Step s a s') : s'.Quiet := by
  cases a with
  | request =>
    cases h
    exact quiet_request hs hopens
  | clear =>
    cases h
    exact quiet_clear hs
  | setExpected n =>
    cases h
    exact ⟨hs.nodup, hs.count, hs.round, hs.gen, hs.signalled⟩
  | park c =>
    simp only [Step, step] at h
    split at h
    · cases h
    · next hc =>
      cases h
      exact quiet_park hs hc
  | resume c =>
    obtain ⟨p, hp, rfl⟩ := Option.map_eq_some_iff.mp h
    exact quiet_resume hs (List.mem_of_find?_eq_some hp)
  | waitReturns n =>
    simp only [Step, step] at h
    split at h
    · cases h
      exact hs
    · cases h

theorem quiet_run {s : StopCoordinator C} (h : Steps (Steps.guarded Step OpensQuiet) initial as s) :
    s.Quiet :=
  Steps.preserves (P := Quiet) (fun _ _ _ ha hs => quiet_step hs ha.1 ha.2) h quiet_initial

omit [DecidableEq C] in
theorem Quiet.holds {s : StopCoordinator C} (hs : s.Quiet) (hreq : s.requested)
    (hc : c ∈ s.parkedNow) : s.Holds c := by
  obtain ⟨p, hp, rfl⟩ := List.mem_map.mp hc
  have hp := (List.mem_filter.mp hp).1
  exact ⟨hreq, p, hp, rfl, hs.round p hp, hs.gen hreq p hp⟩

omit [DecidableEq C] in
theorem Quiet.parkedNow_eq {s : StopCoordinator C} (hs : s.Quiet) : s.parkedNow = s.carriers := by
  rw [parkedNow, List.filter_eq_self.mpr fun p hp => by simpa using hs.round p hp, carriers]

structure StopsWorld (s : StopCoordinator C) : Prop where
  converged : s.requested → ∀ s', Step s (.waitReturns 0) s' →
    s.parkedNow.Nodup ∧ s.expected ≤ s.parkedNow.length ∧
      ∀ bs s'', Steps Step s' bs s'' → .clear ∉ bs → ∀ c ∈ s.parkedNow, c ∈ s''.parkedNow
  released : ∀ p ∈ s.parkers, ¬ s.requested ∨ p.round ≠ s.rounds →
    p.signalled ∧ p.carrier ∉ (s.stopResume p).carriers

/-- The world stops while every round is opened on an empty rendezvous. -/
theorem stops_world {s : StopCoordinator C}
    (h : Steps (Steps.guarded Step OpensQuiet) initial as s) : s.StopsWorld := by
  have hs := quiet_run h
  refine ⟨fun hreq s' hwait => ?_, fun p hp hover => ?_⟩
  · simp only [Step, step] at hwait
    split at hwait
    · next hmissing =>
      cases hwait
      refine ⟨hs.parkedNow_eq ▸ hs.nodup, ?_, fun bs s'' hrun hbs c hc => ?_⟩
      · have hlen : (s.parkedNow.length : Int) = s.parked := by
          rw [hs.parkedNow_eq, carriers, List.length_map, hs.count]
        rw [missing] at hmissing
        omega
      · exact (holds_run hrun hbs hs.nodup (hs.holds hreq hc)).mem_parkedNow
    · cases hwait
  · have hreq : ¬ s.requested := hover.resolve_right fun hne => hne (hs.round p hp)
    refine ⟨hs.signalled hreq p hp, ?_⟩
    have hleaves : ¬ s.stays p := by simp [stays, hreq]
    rw [stopResume, if_neg hleaves]
    exact carrier_notMem_eraseP hs.nodup

/-- Two carriers have parked in a second round, after both have left the first. -/
def parkedTwice : StopCoordinator Nat := ⟨true, 3, 2, 2, [⟨0, 3, false, 2⟩, ⟨1, 3, false, 2⟩], 2⟩

theorem stops_world_parkedTwice : parkedTwice.StopsWorld := by
  have hopens : ∀ a : Action Nat, a ≠ .request → ∀ s, OpensQuiet s a := fun a ha s heq =>
    absurd heq ha
  have hrun : Steps (Steps.guarded Step OpensQuiet) initial
      [.setExpected 2, .request, .park 0, .park 1, .resume 0, .waitReturns 0, .clear, .resume 1,
        .resume 0, .request, .park 1, .park 0] parkedTwice :=
    .cons ⟨hopens _ (by simp) _, rfl⟩ <| .cons ⟨fun _ _ => rfl, rfl⟩ <|
      .cons ⟨hopens _ (by simp) _, rfl⟩ <| .cons ⟨hopens _ (by simp) _, rfl⟩ <|
      .cons ⟨hopens _ (by simp) _, rfl⟩ <| .cons ⟨hopens _ (by simp) _, rfl⟩ <|
      .cons ⟨hopens _ (by simp) _, rfl⟩ <| .cons ⟨hopens _ (by simp) _, rfl⟩ <|
      .cons ⟨hopens _ (by simp) _, rfl⟩ <| .cons ⟨fun _ _ => rfl, rfl⟩ <|
      .cons ⟨hopens _ (by simp) _, rfl⟩ <| .cons ⟨hopens _ (by simp) _, rfl⟩ .nil
  exact stops_world hrun

/-- A second round is opened before the carrier of the first has woken up. -/
def reopened : StopCoordinator Nat := ⟨true, 3, 1, 1, [⟨0, 1, true, 1⟩], 2⟩

theorem not_stops_world_reopened :
    ¬ ∀ as (s : StopCoordinator Nat), Steps Step initial as s → s.StopsWorld := by
  intro hall
  have hrun : Steps Step initial [.setExpected 1, .request, .park 0, .clear, .request] reopened :=
    .cons rfl <| .cons rfl <| .cons rfl <| .cons rfl <| .cons rfl .nil
  have hparked := ((hall _ _ hrun).converged rfl reopened rfl).2.1
  exact absurd hparked (by decide)

end StopCoordinator

end Cajeta.Dbg
