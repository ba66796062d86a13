import Cajeta.Lib.Transition
import Mathlib.Logic.Function.Basic
import Mathlib.Tactic.Common
import Cajeta.Concurrent.Deque

/-!
# The carrier pool

Fibers go from the hands of a waker through a deque to a carrier and back to a wait queue. A deque
is the bag that its guarantees show it to be: a push puts a fiber in, a pop or a steal takes one
out.
-/

namespace Cajeta.Concurrent

/-- Where a pointer by which a fiber can be scheduled is. -/
inductive FiberPlace (C : Type) where
  /-- Just made, or taken off a wait queue: about to be published. -/
  | waking
  /-- On a wait queue. -/
  | waiting
  | deque (c : C)
  /-- Stolen by a carrier that has not looked at the fiber's home yet. -/
  | stolen (c : C)
  /-- The carrier is about to dispatch it. -/
  | hand (c : C)
  | running (c : C)
deriving DecidableEq

structure CarrierPool (F C : Type) where
  tokens : List (F × FiberPlace C)
  /-- `home_carrier`, -1 being none. -/
  home : F → Option C
  /-- The fiber has been given its stack and context: it has started. -/
  primed : F → Bool
  /-- The fiber whose context is on the carrier: between the swap to it and the one back. -/
  current : C → Option F

inductive PoolAction (F C : Type) where
  /-- `__cajeta_task_run` makes a fiber. -/
  | spawn (f : F)
  | wake (f : F)
  /-- `__cajeta_publish_ready` on a carrier, or on carrier 0 in place of one. -/
  | publish (f : F) (waker : C)
  | pop (c : C) (f : F)
  | steal (c victim : C) (f : F)
  /-- A thief puts a pinned fiber back where it belongs. -/
  | bounce (c : C) (f : F)
  | accept (c : C) (f : F)
  | dispatch (c : C) (f : F)
  /-- The fiber puts itself on a wait queue, still on its own stack. -/
  | park (c : C) (f : F)
  /-- The swap of a parked fiber back to its carrier. -/
  | save (c : C)
  /-- The fiber is done, swaps back and is freed. -/
  | finish (c : C) (f : F)

namespace CarrierPool
variable {F C : Type} [DecidableEq F] [DecidableEq C]

def initial : CarrierPool F C := ⟨[], fun _ => none, fun _ => false, fun _ => none⟩

def fibers (s : CarrierPool F C) : List F := s.tokens.map Prod.fst

/-- The pointer to the fiber goes from one place to another. -/
def move (s : CarrierPool F C) (f : F) (src dst : FiberPlace C) : Option (CarrierPool F C) :=
  if (f, src) ∈ s.tokens then some { s with tokens := (f, dst) :: s.tokens.erase (f,
    src) } else none

/-- The loop of the carrier is where it looks for work. -/
def Idle (s : CarrierPool F C) (c : C) : Prop :=
  s.current c = none ∧ ∀ t ∈ s.tokens, t.2 ≠ .stolen c ∧ t.2 ≠ .hand c

instance (s : CarrierPool F C) (c : C) : Decidable (s.Idle c) :=
  inferInstanceAs (Decidable (_ ∧ _))

def setCurrent (s : CarrierPool F C) (c : C) (f : Option F) : CarrierPool F C :=
  { s with current := Function.update s.current c f }

/-- The first dispatch primes the fiber and pins it to the carrier. -/
def prime (s : CarrierPool F C) (c : C) (f : F) : CarrierPool F C :=
  if s.primed f then s
  else { s with
    home := Function.update s.home f (some c), primed := Function.update s.primed f true }

def step (s : CarrierPool F C) : PoolAction F C → Option (CarrierPool F C)
  | .spawn f =>
    -- the memory of the fiber is not in use
    if f ∉ s.fibers then
      some { s with
        tokens := (f, .waking) :: s.tokens
        home := Function.update s.home f none
        primed := Function.update s.primed f false }
    else none
  | .wake f => s.move f .waiting .waking
  | .publish f waker => s.move f .waking (.deque ((s.home f).getD waker))
  | .pop c f => if s.Idle c then s.move f (.deque c) (.hand c) else none
  | .steal c victim f =>
    if s.Idle c ∧ victim ≠ c then s.move f (.deque victim) (.stolen c) else none
  | .bounce c f =>
    match s.home f with
    | some home => if home ≠ c then s.move f (.stolen c) (.deque home) else none
    | none => none
  | .accept c f =>
    if s.home f = none ∨ s.home f = some c then s.move f (.stolen c) (.hand c) else none
  | .dispatch c f => (s.move f (.hand c)
      (.running c)).map fun s => (s.prime c f).setCurrent c (some f)
  | .park c f => s.move f (.running c) .waiting
  | .save c =>
    match s.current c with
    | some f => if (f, .running c) ∈ s.tokens then none else some (s.setCurrent c none)
    | none => none
  | .finish c f =>
    if (f, .running c) ∈ s.tokens then
      some { s.setCurrent c none with tokens := s.tokens.erase (f, .running c) }
    else none

abbrev Step (s : CarrierPool F C) (a : PoolAction F C) (s' : CarrierPool F C) : Prop :=
  s.step a = some s'

end CarrierPool

namespace PoolAction
variable {F C : Type}

def spawned : PoolAction F C → List F
  | .spawn f => [f]
  | _ => []

def finished : PoolAction F C → List F
  | .finish _ f => [f]
  | _ => []

end PoolAction

end Cajeta.Concurrent

/-!
## What the carrier pool guarantees

No fiber is lost or held twice, and one that has started is dispatched by its home carrier alone.
-/

namespace Cajeta.Concurrent.CarrierPool
variable {F C : Type} [DecidableEq F] [DecidableEq C] {s s' : CarrierPool F C}

/-! ## The invariant -/

/-- Every fiber is held once, and one that has started only where its home carrier is to find it or
has it. -/
structure Sound (s : CarrierPool F C) : Prop where
  nodup : s.fibers.Nodup
  primed : ∀ f, s.primed f ↔ s.home f ≠ none
  current : ∀ c f, s.current c = some f → f ∈ s.fibers ∧ s.home f = some c
  deque : ∀ c f, (f, .deque c) ∈ s.tokens → s.home f = none ∨ s.home f = some c
  stolen : ∀ c f, (f, .stolen c) ∈ s.tokens → s.current c = none
  hand : ∀ c f, (f, .hand c) ∈ s.tokens →
    s.current c = none ∧ (s.home f = none ∨ s.home f = some c)
  running : ∀ c f, (f, .running c) ∈ s.tokens → s.current c = some f
  /-- A carrier has one fiber in hand at a time. -/
  one : ∀ c, ∀ t ∈ s.tokens, ∀ t' ∈ s.tokens, (t.2 = .stolen c ∨ t.2 = .hand c) →
    (t'.2 = .stolen c ∨ t'.2 = .hand c) → t = t'

omit [DecidableEq F] [DecidableEq C] in
theorem sound_initial : (initial : CarrierPool F C).Sound where
  nodup := List.nodup_nil
  primed _ := by simp [initial]
  current _ _ h := by cases h
  deque _ _ h := absurd h List.not_mem_nil
  stolen _ _ h := absurd h List.not_mem_nil
  hand _ _ h := absurd h List.not_mem_nil
  running _ _ h := absurd h List.not_mem_nil
  one _ _ h := absurd h List.not_mem_nil

theorem move_eq_some (h : s.move f src dst = some s') :
    (f, src) ∈ s.tokens ∧ s' = { s with tokens := (f, dst) :: s.tokens.erase (f, src) } := by
  simpa [move, eq_comm] using h

theorem fibers_move (hsrc : (f, src) ∈ s.tokens) :
    (fibers { s with tokens := (f, d) :: s.tokens.erase (f, src) }).Perm s.fibers :=
  ((List.perm_cons_erase hsrc).map Prod.fst).symm

theorem Sound.of_mem_erase (hs : s.Sound) (hsrc : (f, src) ∈ s.tokens)
    (ht : t ∈ s.tokens.erase (f, src)) : t ∈ s.tokens ∧ t.1 ≠ f := by
  refine ⟨List.mem_of_mem_erase ht, fun heq => ?_⟩
  have hnodup := ((List.perm_cons_erase hsrc).map Prod.fst).nodup_iff.mp hs.nodup
  have hmem : t.1 ∈ (s.tokens.erase (f, src)).map Prod.fst := List.mem_map_of_mem ht
  rw [heq] at hmem
  exact (List.nodup_cons.mp hnodup).1 hmem

def Admits (s : CarrierPool F C) (f : F) (src : FiberPlace C) : FiberPlace C → Prop
  | .waking | .waiting => True
  | .deque c => s.home f = none ∨ s.home f = some c
  | .stolen c => s.current c = none ∧
    ∀ t ∈ s.tokens, (t.2 = .stolen c ∨ t.2 = .hand c) → t = (f, src)
  | .hand c => s.current c = none ∧ (s.home f = none ∨ s.home f = some c) ∧
    ∀ t ∈ s.tokens, (t.2 = .stolen c ∨ t.2 = .hand c) → t = (f, src)
  | .running c => s.current c = some f

theorem Sound.move (hs : s.Sound) (h : s.move f src dst = some s') (hdst : s.Admits f src dst) :
    s'.Sound ∧ s'.fibers.Perm s.fibers := by
  obtain ⟨hsrc, rfl⟩ := move_eq_some h
  have hperm := fibers_move (d := dst) hsrc
  have hcases : ∀ t ∈ (f, dst) :: s.tokens.erase (f, src), t = (f, dst) ∨ t ∈ s.tokens ∧ t.1 ≠ f :=
    fun t ht => (List.mem_cons.mp ht).imp_right (hs.of_mem_erase hsrc)
  refine ⟨⟨hperm.nodup_iff.mpr hs.nodup, hs.primed, fun c g hc => ?_, fun c g hg => ?_,
    fun c g hg => ?_, fun c g hg => ?_, fun c g hg => ?_, fun c t ht t' ht' hp hp' => ?_⟩, hperm⟩
  · obtain ⟨hmem, hhome⟩ := hs.current c g hc
    exact ⟨hperm.mem_iff.mpr hmem, hhome⟩
  · rcases hcases _ hg with heq | ⟨hmem, -⟩
    · cases heq
      exact hdst
    · exact hs.deque c g hmem
  · rcases hcases _ hg with heq | ⟨hmem, -⟩
    · cases heq
      exact hdst.1
    · exact hs.stolen c g hmem
  · rcases hcases _ hg with heq | ⟨hmem, -⟩
    · cases heq
      exact ⟨hdst.1, hdst.2.1⟩
    · exact hs.hand c g hmem
  · rcases hcases _ hg with heq | ⟨hmem, -⟩
    · cases heq
      exact hdst
    · exact hs.running c g hmem
  · have honly : dst = .stolen c ∨ dst = .hand c →
        ∀ t ∈ s.tokens, (t.2 = .stolen c ∨ t.2 = .hand c) → t = (f, src) := by
      rintro (rfl | rfl)
      · exact hdst.2
      · exact hdst.2.2
    rcases hcases t ht with rfl | ⟨hmem, hne⟩
    · rcases hcases t' ht' with rfl | ⟨hmem', hne'⟩
      · rfl
      · exact absurd (congrArg Prod.fst (honly hp t' hmem' hp')) hne'
    · rcases hcases t' ht' with rfl | ⟨hmem', hne'⟩
      · exact absurd (congrArg Prod.fst (honly hp' t hmem hp)) hne
      · exact hs.one c t hmem t' hmem' hp hp'

/-! ## Dispatch -/

omit [DecidableEq C] in
theorem prime_home_self (hstarted : s.primed f → s.home f ≠ none)
    (hhome : s.home f = none ∨ s.home f = some c) : (s.prime c f).home f = some c := by
  rw [prime]
  split
  · next hprimed => exact hhome.resolve_left (hstarted hprimed)
  · exact Function.update_self ..

omit [DecidableEq C] in
theorem prime_home_of_ne (hne : g ≠ f) : (s.prime c f).home g = s.home g := by
  rw [prime]
  split
  · rfl
  · exact Function.update_of_ne hne _ _

omit [DecidableEq C] in
theorem prime_primed : (s.prime c f).primed g ↔ s.primed g ∨ g = f := by
  rw [prime]
  split
  · next hprimed => exact ⟨.inl, fun h => h.elim id fun heq => heq ▸ hprimed⟩
  · simp only [Function.update_apply]
    split
    · next heq => simp [heq]
    · next hne => simp [hne]

omit [DecidableEq C] in
theorem prime_tokens : (s.prime c f).tokens = s.tokens := by
  rw [prime]
  split <;> rfl

omit [DecidableEq C] in
theorem prime_current : (s.prime c f).current = s.current := by
  rw [prime]
  split <;> rfl

theorem Sound.dispatch (hs : s.Sound) (h : Step s (.dispatch c f) s') :
    s'.Sound ∧ s'.fibers.Perm s.fibers ∧ (f, .hand c) ∈ s.tokens ∧ s'.current c = some f ∧
      s'.home f = some c := by
  obtain ⟨_, hmove, rfl⟩ := Option.map_eq_some_iff.mp h
  obtain ⟨hsrc, rfl⟩ := move_eq_some hmove
  obtain ⟨hfree, hhome⟩ := hs.hand c f hsrc
  have hself : (prime { s with tokens := (f, .running c) :: s.tokens.erase (f, .hand c) }
      c f).home f = some c := prime_home_self (hs.primed f).mp hhome
  have hother : ∀ g ≠ f, (prime { s with tokens := (f, .running c) :: s.tokens.erase (f, .hand c) }
      c f).home g = s.home g := fun g hne => prime_home_of_ne hne
  have hperm := fibers_move (d := .running c) hsrc
  have hcases : ∀ t ∈ (f, .running c) :: s.tokens.erase (f, .hand c),
      t = (f, .running c) ∨ t ∈ s.tokens ∧ t.1 ≠ f :=
    fun t ht => (List.mem_cons.mp ht).imp_right (hs.of_mem_erase hsrc)
  have hmine : ∀ t ∈ s.tokens, t.1 ≠ f → ¬ (t.2 = .stolen c ∨ t.2 = .hand c) :=
    fun t ht hne hp => hne (congrArg Prod.fst (hs.one c t ht _ hsrc hp (.inr rfl)))
  have hcurrent : ∀ c', Function.update s.current c (some f) c' =
      if c' = c then some f else s.current c' := fun c' => Function.update_apply ..
  refine ⟨⟨?_, fun g => ?_, fun c' g hc => ?_, fun c' g hg => ?_, fun c' g hg => ?_,
    fun c' g hg => ?_, fun c' g hg => ?_, fun c' t ht t' ht' hp hp' => ?_⟩, ?_, hsrc, ?_, hself⟩
  · simpa only [fibers, setCurrent, prime_tokens] using hperm.nodup_iff.mpr hs.nodup
  · change (prime _ c f).primed g ↔ (prime _ c f).home g ≠ none
    rw [prime_primed]
    by_cases hg : g = f
    · subst hg
      rw [hself]
      simp
    · rw [hother g hg]
      simpa [hg] using hs.primed g
  · simp only [setCurrent, prime_current, hcurrent] at hc
    simp only [fibers, setCurrent, prime_tokens]
    split at hc
    · next heq =>
      cases hc
      subst heq
      exact ⟨hperm.mem_iff.mpr (List.mem_map_of_mem hsrc), hself⟩
    · next hne =>
      obtain ⟨hmem, hg⟩ := hs.current c' g hc
      have hgf : g ≠ f := by
        rintro rfl
        rcases hhome with hnone | hsome
        · rw [hnone] at hg
          cases hg
        · rw [hsome, Option.some.injEq] at hg
          exact hne hg.symm
      exact ⟨hperm.mem_iff.mpr hmem, (hother g hgf).trans hg⟩
  · simp only [setCurrent, prime_tokens] at hg ⊢
    rcases hcases _ hg with heq | ⟨hmem, hne⟩
    · cases heq
    · rw [hother g hne]
      exact hs.deque c' g hmem
  · simp only [setCurrent, prime_tokens, prime_current, hcurrent] at hg ⊢
    rcases hcases _ hg with heq | ⟨hmem, hne⟩
    · cases heq
    · rw [if_neg]
      · exact hs.stolen c' g hmem
      · rintro rfl
        exact hmine _ hmem hne (.inl rfl)
  · simp only [setCurrent, prime_tokens, prime_current, hcurrent] at hg ⊢
    rcases hcases _ hg with heq | ⟨hmem, hne⟩
    · cases heq
    · rw [if_neg, hother g hne]
      · exact hs.hand c' g hmem
      · rintro rfl
        exact hmine _ hmem hne (.inr rfl)
  · simp only [setCurrent, prime_tokens, prime_current, hcurrent] at hg ⊢
    rcases hcases _ hg with heq | ⟨hmem, hne⟩
    · cases heq
      exact if_pos rfl
    · have hold := hs.running c' g hmem
      rw [if_neg, hold]
      rintro rfl
      rw [hfree] at hold
      cases hold
  · simp only [setCurrent, prime_tokens] at ht ht'
    rcases hcases t ht with rfl | ⟨hmem, -⟩
    · simp at hp
    · rcases hcases t' ht' with rfl | ⟨hmem', -⟩
      · simp at hp'
      · exact hs.one c' t hmem t' hmem' hp hp'
  · simpa only [fibers, setCurrent, prime_tokens] using hperm
  · simp only [setCurrent, Function.update_self]

/-! ## The other steps -/

omit [DecidableEq C] in
theorem Sound.spawn (hs : s.Sound) (hnew : f ∉ s.fibers) : Sound { s with
    tokens := (f, .waking) :: s.tokens
    home := Function.update s.home f none
    primed := Function.update s.primed f false } := by
  have hne : ∀ t ∈ s.tokens, t.1 ≠ f := fun t ht heq => hnew (heq ▸ List.mem_map_of_mem ht)
  have hhome : ∀ g ≠ f, Function.update s.home f none g = s.home g := fun g hg =>
    Function.update_of_ne hg _ _
  refine ⟨List.nodup_cons.mpr ⟨hnew, hs.nodup⟩, fun g => ?_, fun c g hc => ?_, fun c g hg => ?_,
    fun c g hg => ?_, fun c g hg => ?_, fun c g hg => ?_, fun c t ht t' ht' hp hp' => ?_⟩
  · simp only [Function.update_apply]
    split
    · simp
    · exact hs.primed g
  · obtain ⟨hmem, hg⟩ := hs.current c g hc
    refine ⟨List.mem_cons_of_mem _ hmem, (hhome g ?_).trans hg⟩
    rintro rfl
    exact hnew hmem
  · rcases List.mem_cons.mp hg with heq | hg
    · cases heq
    · dsimp only
      rw [hhome g (hne _ hg)]
      exact hs.deque c g hg
  · rcases List.mem_cons.mp hg with heq | hg
    · cases heq
    · exact hs.stolen c g hg
  · rcases List.mem_cons.mp hg with heq | hg
    · cases heq
    · dsimp only
      rw [hhome g (hne _ hg)]
      exact hs.hand c g hg
  · rcases List.mem_cons.mp hg with heq | hg
    · cases heq
    · exact hs.running c g hg
  · rcases List.mem_cons.mp ht with rfl | ht
    · simp at hp
    · rcases List.mem_cons.mp ht' with rfl | ht'
      · simp at hp'
      · exact hs.one c t ht t' ht' hp hp'

omit [DecidableEq F] in
theorem Sound.save (hs : s.Sound) (hc : s.current c = some f)
    (hparked : (f, .running c) ∉ s.tokens) : (s.setCurrent c none).Sound := by
  have hcurrent : ∀ c', Function.update s.current c none c' =
      if c' = c then none else s.current c' := fun c' => Function.update_apply ..
  refine ⟨hs.nodup, hs.primed, fun c' g hg => ?_, hs.deque, fun c' g hg => ?_, fun c' g hg => ?_,
    fun c' g hg => ?_, hs.one⟩
  · simp only [setCurrent, hcurrent] at hg
    split at hg
    · cases hg
    · exact hs.current c' g hg
  · simp only [setCurrent, hcurrent]
    split
    · rfl
    · exact hs.stolen c' g hg
  · simp only [setCurrent, hcurrent]
    obtain ⟨hfree, hhome⟩ := hs.hand c' g hg
    refine ⟨?_, hhome⟩
    split
    · rfl
    · exact hfree
  · have hold := hs.running c' g hg
    simp only [setCurrent, hcurrent]
    rw [if_neg, hold]
    rintro rfl
    rw [hc, Option.some.injEq] at hold
    exact hparked (hold ▸ hg)

theorem Sound.finish (hs : s.Sound) (hsrc : (f, .running c) ∈ s.tokens) :
    Sound { s.setCurrent c none with tokens := s.tokens.erase (f, .running c) } := by
  have hperm := (List.perm_cons_erase hsrc).map Prod.fst
  have hnodup : (f :: (s.tokens.erase (f, .running c)).map Prod.fst).Nodup :=
    hperm.nodup_iff.mp hs.nodup
  have hrun := hs.running c f hsrc
  have hcurrent : ∀ c', Function.update s.current c none c' =
      if c' = c then none else s.current c' := fun c' => Function.update_apply ..
  have hmem : ∀ t ∈ s.tokens.erase (f, .running c), t ∈ s.tokens ∧ t.1 ≠ f := fun t =>
    hs.of_mem_erase hsrc
  refine ⟨(List.nodup_cons.mp hnodup).2, hs.primed, fun c' g hg => ?_, fun c' g hg => ?_,
    fun c' g hg => ?_, fun c' g hg => ?_, fun c' g hg => ?_, fun c' t ht t' ht' => ?_⟩
  · simp only [setCurrent, hcurrent] at hg
    split at hg
    · cases hg
    · next hne =>
      obtain ⟨hfiber, hhome⟩ := hs.current c' g hg
      refine ⟨(List.mem_cons.mp (hperm.mem_iff.mp hfiber)).resolve_left ?_, hhome⟩
      rintro rfl
      rw [(hs.current c g hrun).2, Option.some.injEq] at hhome
      exact hne hhome.symm
  · exact hs.deque c' g (hmem _ hg).1
  · simp only [setCurrent, hcurrent]
    split
    · rfl
    · exact hs.stolen c' g (hmem _ hg).1
  · simp only [setCurrent, hcurrent]
    obtain ⟨hfree, hhome⟩ := hs.hand c' g (hmem _ hg).1
    refine ⟨?_, hhome⟩
    split
    · rfl
    · exact hfree
  · obtain ⟨hold, hne⟩ := hmem _ hg
    have hold := hs.running c' g hold
    simp only [setCurrent, hcurrent]
    rw [if_neg, hold]
    rintro rfl
    rw [hrun, Option.some.injEq] at hold
    exact hne hold.symm
  · exact hs.one c' t (hmem _ ht).1 t' (hmem _ ht').1

theorem step_effect (hs : s.Sound) (h : Step s a s') :
    s'.Sound ∧ (s'.fibers ++ a.finished).Perm (a.spawned ++ s.fibers) := by
  have hmoved : ∀ {f src dst}, s.move f src dst = some s' → s.Admits f src dst →
      s'.Sound ∧ (s'.fibers ++ []).Perm ([] ++ s.fibers) := fun h hdst => by
    rw [List.append_nil]
    exact hs.move h hdst
  cases a with
  | spawn f =>
    simp only [Step, step, Option.ite_none_right_eq_some, Option.some.injEq] at h
    obtain ⟨hnew, rfl⟩ := h
    refine ⟨hs.spawn hnew, ?_⟩
    simp [fibers, PoolAction.finished, PoolAction.spawned]
  | wake f => exact hmoved h trivial
  | publish f waker =>
    refine hmoved h ?_
    cases hhome : s.home f with
    | none => exact .inl hhome
    | some home => exact .inr hhome
  | pop c f =>
    simp only [Step, step, Option.ite_none_right_eq_some] at h
    obtain ⟨⟨hfree, hnone⟩, hmove⟩ := h
    refine hmoved hmove ⟨hfree, hs.deque c f (move_eq_some hmove).1, fun t ht hp => ?_⟩
    exact (hp.elim (hnone t ht).1 (hnone t ht).2).elim
  | steal c victim f =>
    simp only [Step, step, Option.ite_none_right_eq_some] at h
    obtain ⟨⟨⟨hfree, hnone⟩, -⟩, hmove⟩ := h
    refine hmoved hmove ⟨hfree, fun t ht hp => ?_⟩
    exact (hp.elim (hnone t ht).1 (hnone t ht).2).elim
  | bounce c f =>
    simp only [Step, step] at h
    split at h
    · next home hhome =>
      split at h
      · exact hmoved h (.inr hhome)
      · cases h
    · cases h
  | accept c f =>
    simp only [Step, step, Option.ite_none_right_eq_some] at h
    obtain ⟨hhome, hmove⟩ := h
    have hsrc := (move_eq_some hmove).1
    refine hmoved hmove ⟨hs.stolen c f hsrc, hhome, fun t ht hp => ?_⟩
    exact hs.one c t ht _ hsrc hp (.inl rfl)
  | dispatch c f =>
    obtain ⟨hs', hperm, -⟩ := hs.dispatch h
    exact ⟨hs', by simpa [PoolAction.finished, PoolAction.spawned] using hperm⟩
  | park c f => exact hmoved h trivial
  | save c =>
    simp only [Step, step] at h
    split at h
    · next f hc =>
      split at h
      · cases h
      · next hparked =>
        cases h
        refine ⟨hs.save hc hparked, ?_⟩
        simp [fibers, setCurrent, PoolAction.finished, PoolAction.spawned]
    · cases h
  | finish c f =>
    simp only [Step, step, Option.ite_none_right_eq_some, Option.some.injEq] at h
    obtain ⟨hsrc, rfl⟩ := h
    refine ⟨hs.finish hsrc, ?_⟩
    exact List.perm_append_comm.trans ((List.perm_cons_erase hsrc).map Prod.fst).symm

/-- Fibers are held once, and go to their home carrier alone once they have started. -/
structure Pinned (s : CarrierPool F C) : Prop where
  nodup : s.fibers.Nodup
  kept : ∀ a s', Step s a s' → (s'.fibers ++ a.finished).Perm (a.spawned ++ s.fibers)
  /-- A fiber is dispatched by its home, and when its context is on no carrier. -/
  dispatch : ∀ c f s', Step s (.dispatch c f) s' →
    (s.primed f → s.home f = some c) ∧ (∀ c', s.current c' ≠ some f) ∧ s'.home f = some c
  one : ∀ c c' f, s.current c = some f → s.current c' = some f → c = c'

theorem Sound.pinned (hs : s.Sound) : s.Pinned := by
  refine ⟨hs.nodup, fun _ _ h => (step_effect hs h).2, fun c f s' h => ?_, fun c c' f hc hc' => ?_⟩
  · obtain ⟨-, -, hsrc, -, hhome'⟩ := hs.dispatch h
    obtain ⟨hfree, hhome⟩ := hs.hand c f hsrc
    refine ⟨fun hprimed => hhome.resolve_left ((hs.primed f).mp hprimed), fun c' hc' => ?_, hhome'⟩
    rcases hhome with hnone | hsome
    · rw [(hs.current c' f hc').2] at hnone
      cases hnone
    · rw [(hs.current c' f hc').2, Option.some.injEq] at hsome
      rw [hsome, hfree] at hc'
      cases hc'
  · have hhome := (hs.current c f hc).2
    rw [(hs.current c' f hc').2, Option.some.injEq] at hhome
    exact hhome.symm

theorem sound_run (h : Steps Step initial as s) : s.Sound :=
  Steps.preserves (P := Sound) (fun _ _ _ ha hs => (step_effect hs ha).1) h sound_initial

/-- The deques lose and duplicate nothing, and the carriers that use them keep to their fibers. -/
theorem carrierPool_delivers {X : Type} [DecidableEq X] {slots : Int → F} {d : Deque F X}
    {ls : List (DequeAction F X × DequeEvent F)}
    (hdeque : Steps Deque.Step (Deque.init slots) ls d)
    (hpool : Steps Step (initial : CarrierPool F C) as s) : d.Delivers ls ∧ s.Pinned :=
  ⟨Deque.deque_delivers hdeque, (sound_run hpool).pinned⟩

/-- A fiber through a deque, and one that parks, is woken, stolen by the other carrier and put back
before its own has saved it. -/
theorem carrierPool_delivers_sample :
    (∃ d : Deque Nat Bool, d.Delivers [(.push 7, .none), (.owner, .none), (.owner, .none),
      (.owner, .pushed 7), (.thief true, .none), (.pop, .none), (.thief true, .none),
      (.owner, .none), (.thief true, .none), (.owner, .none), (.owner, .none),
      (.thief true, .answered (.took 7)), (.owner, .none), (.owner, .answered .lost)]) ∧
    ∃ s : CarrierPool Nat Bool, s.current false = some 0 ∧ s.Pinned := by
  have hdeque : ∃ d : Deque Nat Bool, Steps Deque.Step (Deque.init fun _ => 0)
      [(.push 7, .none), (.owner, .none), (.owner, .none), (.owner, .pushed 7),
        (.thief true, .none), (.pop, .none), (.thief true, .none), (.owner, .none),
        (.thief true, .none), (.owner, .none), (.owner, .none),
        (.thief true, .answered (.took 7)), (.owner, .none), (.owner, .answered .lost)] d :=
    ⟨_, .cons rfl <| .cons rfl <| .cons rfl <| .cons rfl <| .cons rfl <| .cons rfl <| .cons rfl <|
      .cons rfl <| .cons rfl <| .cons rfl <| .cons rfl <| .cons rfl <| .cons rfl <|
      .cons rfl .nil⟩
  have hpool : ∃ s : CarrierPool Nat Bool, s.current false = some 0 ∧
      Steps Step initial [.spawn 0, .publish 0 false, .pop false 0, .dispatch false 0,
        .park false 0, .wake 0, .publish 0 true, .steal true false 0, .bounce true 0] s :=
    ⟨_, rfl, .cons rfl <| .cons rfl <| .cons rfl <| .cons rfl <| .cons rfl <| .cons rfl <|
      .cons rfl <| .cons rfl <| .cons rfl .nil⟩
  obtain ⟨d, hd⟩ := hdeque
  obtain ⟨s, hcurrent, hs⟩ := hpool
  obtain ⟨hdelivers, hpinned⟩ := carrierPool_delivers hd hs
  exact ⟨⟨d, hdelivers⟩, s, hcurrent, hpinned⟩

end Cajeta.Concurrent.CarrierPool
