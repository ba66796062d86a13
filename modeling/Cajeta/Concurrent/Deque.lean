import Cajeta.Lib.Transition
import Cajeta.Lib.Ring
import Mathlib.Data.List.Perm.Basic

/-!
# The deque of a carrier

The Chase-Lev deque, one load, store or compare-and-swap a step. Its pushes and pops hold the
deque's mutex, so one of them is under way at a time; steals take no lock.
-/

namespace Cajeta.Concurrent

/-- `CAJETA_DEQUE_CAP`. -/
def dequeCap : Int := 2048

/-- Why an operation answers what it does. -/
inductive DequeResult (F : Type) where
  | took (f : F)
  | empty
  /-- The compare-and-swap found that somebody else was first. -/
  | lost
deriving DecidableEq

/-- How far the push or pop that holds the mutex has come. -/
inductive OwnerOp (F : Type) where
  | idle
  /-- About to load `top`. -/
  | pushTop (f : F) (b : Int)
  /-- About to write the slot. -/
  | pushSlot (f : F) (b : Int)
  /-- About to publish the new `bottom`. -/
  | pushStore (f : F) (b : Int)
  /-- The overflow of the deque has ended the process. -/
  | aborted
  /-- About to store the lower `bottom`. -/
  | popStore (b : Int)
  /-- About to load `top`. -/
  | popTop (b : Int)
  /-- About to read the slot. -/
  | popSlot (b t : Int)
  /-- About to swap for the last element. -/
  | popSwap (b : Int) (f : F)
  /-- About to store `bottom` for good. -/
  | popRestore (b : Int) (result : DequeResult F)

/-- How far a steal has come. -/
inductive ThiefOp (F : Type) where
  | idle
  /-- About to load `bottom`. -/
  | bottom (t : Int)
  /-- About to read the slot. -/
  | slot (t : Int)
  /-- About to swap. -/
  | swap (t : Int) (f : F)

structure Deque (F X : Type) where
  top : Int
  bottom : Int
  slots : Int → F
  owner : OwnerOp F
  thief : X → ThiefOp F

inductive DequeAction (F X : Type) where
  /-- Takes the mutex and loads `bottom`. -/
  | push (f : F)
  | pop
  /-- The next step of the push or pop. -/
  | owner
  /-- The next step of a steal; of an idle thief the load of `top`. -/
  | thief (x : X)

inductive DequeEvent (F : Type) where
  | none
  | pushed (f : F)
  /-- A pop or a steal answers. -/
  | answered (result : DequeResult F)

namespace Deque
variable {F X : Type}

/-- `__cajeta_deque_init`; the slots hold whatever they held. -/
def init (slots : Int → F) : Deque F X := ⟨0, 0, slots, .idle, fun _ => .idle⟩

/-- A step of `__cajeta_deque_push_bottom` or `__cajeta_deque_pop_bottom`. -/
def ownerStep (d : Deque F X) : Option (Deque F X × DequeEvent F) :=
  match d.owner with
  | .idle | .aborted => none
  | .pushTop f b =>
    if b - d.top ≥ dequeCap then some ({ d with owner := .aborted }, .none)
    else some ({ d with owner := .pushSlot f b }, .none)
  | .pushSlot f b =>
    some ({ d with
      slots := Function.update d.slots (b % dequeCap) f, owner := .pushStore f b }, .none)
  | .pushStore f b => some ({ d with bottom := b + 1, owner := .idle }, .pushed f)
  | .popStore b => some ({ d with bottom := b, owner := .popTop b }, .none)
  | .popTop b =>
    if d.top > b then some ({ d with owner := .popRestore d.top .empty }, .none)
    else some ({ d with owner := .popSlot b d.top }, .none)
  | .popSlot b t =>
    if t < b then some ({ d with owner := .idle }, .answered (.took (d.slots (b % dequeCap))))
    else some ({ d with owner := .popSwap b (d.slots (b % dequeCap)) }, .none)
  | .popSwap b f =>
    if d.top = b then some ({ d with top := b + 1, owner := .popRestore (b + 1) (.took f) }, .none)
    else some ({ d with owner := .popRestore (b + 1) .lost }, .none)
  | .popRestore b result => some ({ d with bottom := b, owner := .idle }, .answered result)

variable [DecidableEq X]

def setThief (d : Deque F X) (x : X) (op : ThiefOp F) : Deque F X :=
  { d with thief := Function.update d.thief x op }

/-- A step of `__cajeta_deque_steal`. -/
def thiefStep (d : Deque F X) (x : X) : Deque F X × DequeEvent F :=
  match d.thief x with
  | .idle => (d.setThief x (.bottom d.top), .none)
  | .bottom t =>
    if t ≥ d.bottom then (d.setThief x .idle, .answered .empty)
    else (d.setThief x (.slot t), .none)
  | .slot t => (d.setThief x (.swap t (d.slots (t % dequeCap))), .none)
  | .swap t f =>
    if d.top = t then ({ d.setThief x .idle with top := t + 1 }, .answered (.took f))
    else (d.setThief x .idle, .answered .lost)

def step (d : Deque F X) : DequeAction F X → Option (Deque F X × DequeEvent F)
  | .push f =>
    match d.owner with
    | .idle => some ({ d with owner := .pushTop f d.bottom }, .none)
    | _ => none
  | .pop =>
    match d.owner with
    | .idle => some ({ d with owner := .popStore (d.bottom - 1) }, .none)
    | _ => none
  | .owner => d.ownerStep
  | .thief x =>
    match d.owner with
    | .aborted => none
    | _ => some (d.thiefStep x)

abbrev Step (d : Deque F X) (l : DequeAction F X × DequeEvent F) (d' : Deque F X) : Prop :=
  d.step l.1 = some (d', l.2)

/-- The fibers in the deque that no operation has in hand: a pop has from the moment it has lowered
`bottom`. -/
def unclaimed (d : Deque F X) : List F := Window.elems d.slots dequeCap d.top d.bottom

end Deque

/-!
## What the deque guarantees

Each fiber pushed is answered by one pop or steal, and nobody finds the deque empty while it holds a
fiber that nobody has in hand, however the steps of the operations mix.
-/

/-! ## Where the fibers are -/

namespace OwnerOp
variable {F : Type}

/-- The sequence number up to which a thief may still take: a pop of the last element leaves it to
the race. -/
def limit (op : OwnerOp F) (bottom : Int) : Int :=
  match op with
  | .popTop b | .popSwap b _ => b + 1
  | .popSlot b t => if t < b then b else b + 1
  | .popRestore b _ => b
  | _ => bottom

/-- The fiber that the pop will answer whatever the thieves do. -/
def inHand (op : OwnerOp F) (slots : Int → F) : List F :=
  match op with
  | .popSlot b t => if t < b then [slots (b % dequeCap)] else []
  | .popRestore _ (.took f) => [f]
  | _ => []

def Fits (op : OwnerOp F) (top bottom : Int) (slots : Int → F) : Prop :=
  match op with
  | .idle | .aborted => True
  | .pushTop _ b => bottom = b
  | .pushSlot _ b => bottom = b ∧ b - top < dequeCap
  | .pushStore f b => bottom = b ∧ b - top < dequeCap ∧ slots (b % dequeCap) = f
  | .popStore b => bottom = b + 1
  | .popTop b => bottom = b
  | .popSlot b t => bottom = b ∧ t ≤ b ∧ t ≤ top
  | .popSwap b f => bottom = b ∧ b ≤ top ∧ (top = b → slots (b % dequeCap) = f)
  | .popRestore b _ => bottom = b - 1 ∧ top = b

end OwnerOp

namespace ThiefOp
variable {F : Type} {op : ThiefOp F} {slots slots' : Int → F}

/-- What the steal has seen is so, if its swap can still succeed. -/
def Fits (op : ThiefOp F) (top limit : Int) (slots : Int → F) : Prop :=
  match op with
  | .idle => True
  | .bottom t => t ≤ top
  | .slot t => t ≤ top ∧ (t = top → top < limit)
  | .swap t f => t ≤ top ∧ (t = top → top < limit ∧ slots (top % dequeCap) = f)

theorem Fits.mono (h : op.Fits top limit slots)
    (hkeep : top < limit → top < limit' ∧ slots' (top % dequeCap) = slots (top % dequeCap)) :
    op.Fits top limit' slots' := by
  cases op with
  | idle => trivial
  | bottom t => exact h
  | slot t => exact ⟨h.1, fun heq => (hkeep (h.2 heq)).1⟩
  | swap t f =>
    refine ⟨h.1, fun heq => ?_⟩
    obtain ⟨hlt, hslot⟩ := h.2 heq
    exact ⟨(hkeep hlt).1, (hkeep hlt).2.trans hslot⟩

theorem Fits.advance (h : op.Fits top limit slots) : op.Fits (top + 1) limit' slots' := by
  cases op with
  | idle => trivial
  | bottom t =>
    change t ≤ top + 1
    have : t ≤ top := h
    omega
  | slot t | swap t f =>
    have hle : t ≤ top := h.1
    exact ⟨by omega, fun heq => absurd heq (by omega)⟩

end ThiefOp

namespace Deque
variable {F X : Type} {d d' : Deque F X}

def limit (d : Deque F X) : Int := d.owner.limit d.bottom

/-- The fibers pushed and not yet answered. -/
def unreturned (d : Deque F X) : List F :=
  Window.elems d.slots dequeCap d.top d.limit ++ d.owner.inHand d.slots

theorem bottom_le_limit (h : d.owner.Fits d.top d.bottom d.slots) : d.bottom ≤ d.limit := by
  rw [limit]
  cases hop : d.owner <;> rw [hop] at h <;> simp only [OwnerOp.Fits, OwnerOp.limit] at h ⊢
  case popSlot => split <;> omega
  all_goals omega

structure Sound (d : Deque F X) : Prop where
  top : d.top ≤ d.limit
  size : d.limit - d.top ≤ dequeCap
  owner : d.owner.Fits d.top d.bottom d.slots
  thief : ∀ x, (d.thief x).Fits d.top d.limit d.slots

theorem sound_init (slots : Int → F) : (init slots : Deque F X).Sound :=
  ⟨Int.le_refl 0, by simp [limit, init, OwnerOp.limit, dequeCap], trivial, fun _ => trivial⟩

end Deque

namespace DequeEvent
variable {F : Type}

def pushedFibers : DequeEvent F → List F
  | .pushed f => [f]
  | .none | .answered _ => []

def returnedFibers : DequeEvent F → List F
  | .answered (.took f) => [f]
  | .none | .pushed _ | .answered .empty | .answered .lost => []

end DequeEvent

namespace Deque
variable {F X : Type} {d d' : Deque F X}

/-- A step keeps the deque sound and moves a fiber in when it is pushed, out when it is answered. -/
structure Effect (d d' : Deque F X) (e : DequeEvent F) : Prop where
  sound : d'.Sound
  fibers : (d.unreturned ++ e.pushedFibers).Perm (e.returnedFibers ++ d'.unreturned)

/-! ## Pushes and pops -/

theorem Sound.advanceOwner {op : OwnerOp F} (hs : d.Sound)
    (hfits : op.Fits d.top d.bottom d.slots) (hlimit : op.limit d.bottom = d.limit)
    (hhand : op.inHand d.slots = d.owner.inHand d.slots) : d.Effect { d with owner :=
      op } .none where
  sound := by
    have hlimit' : limit { d with owner := op } = d.limit := hlimit
    exact ⟨hlimit' ▸ hs.top, hlimit' ▸ hs.size, hfits, hlimit' ▸ hs.thief⟩
  fibers := by
    have hsame : unreturned { d with owner := op } = d.unreturned := by
      simp only [unreturned, limit, hlimit, hhand]
    rw [hsame]
    simp [DequeEvent.pushedFibers, DequeEvent.returnedFibers]

theorem ownerStep_effect (hs : d.Sound) (h : d.ownerStep = some (d', e)) : d.Effect d' e := by
  have howner := hs.owner
  have htop := hs.top
  have hsize := hs.size
  have hthief := hs.thief
  simp only [limit] at htop hsize hthief
  cases hop : d.owner with
  | idle | aborted => simp [ownerStep, hop] at h
  | pushTop f b =>
    rw [hop] at howner htop hsize
    simp only [ownerStep, hop] at h
    split at h
    · cases h
      exact hs.advanceOwner trivial (by rw [limit, hop]; rfl) (by rw [hop]; rfl)
    · next hroom =>
      cases h
      exact hs.advanceOwner ⟨howner, by omega⟩ (by rw [limit, hop]; rfl) (by rw [hop]; rfl)
  | pushSlot f b =>
    rw [hop] at howner htop hsize hthief
    simp only [ownerStep, hop, Option.some.injEq, Prod.mk.injEq] at h
    obtain ⟨rfl, rfl⟩ := h
    obtain ⟨hbottom, hroom⟩ := howner
    simp only [OwnerOp.limit] at htop hsize hthief
    refine ⟨⟨htop, hsize, ⟨hbottom, hroom, Function.update_self ..⟩, fun x => ?_⟩, ?_⟩
    · refine (hthief x).mono fun hlt => ⟨hlt, ?_⟩
      exact Function.update_of_ne (Window.emod_ne (by omega) (by omega)) _ _
    · have hsame : Window.elems (Function.update d.slots (b % dequeCap) f) dequeCap d.top d.bottom =
          Window.elems d.slots dequeCap d.top d.bottom := by
        rw [hbottom]
        exact Window.elems_update (by omega) f
      simp [unreturned, limit, hop, OwnerOp.limit, OwnerOp.inHand, hsame,
        DequeEvent.pushedFibers, DequeEvent.returnedFibers]
  | pushStore f b =>
    rw [hop] at howner htop hsize hthief
    simp only [ownerStep, hop, Option.some.injEq, Prod.mk.injEq] at h
    obtain ⟨rfl, rfl⟩ := h
    obtain ⟨rfl, hroom, hslot⟩ := howner
    simp only [OwnerOp.limit] at htop hsize hthief
    refine ⟨⟨?_, ?_, trivial, fun x => ?_⟩, ?_⟩
    · simp only [limit, OwnerOp.limit]
      omega
    · simp only [limit, OwnerOp.limit]
      omega
    · exact (hthief x).mono fun hlt => ⟨by simp only [limit, OwnerOp.limit]; omega, rfl⟩
    · simp [unreturned, limit, hop, OwnerOp.limit, OwnerOp.inHand, Window.elems_concat htop, hslot,
        DequeEvent.pushedFibers, DequeEvent.returnedFibers]
  | popStore b =>
    rw [hop] at howner htop hsize hthief
    simp only [ownerStep, hop, Option.some.injEq, Prod.mk.injEq] at h
    obtain ⟨rfl, rfl⟩ := h
    have hbottom : d.bottom = b + 1 := howner
    simp only [OwnerOp.limit, hbottom] at htop hsize hthief
    refine ⟨⟨htop, hsize, rfl, hthief⟩, ?_⟩
    simp [unreturned, limit, hop, OwnerOp.limit, OwnerOp.inHand, hbottom,
      DequeEvent.pushedFibers, DequeEvent.returnedFibers]
  | popTop b =>
    rw [hop] at howner htop hsize hthief
    have hbottom : d.bottom = b := howner
    simp only [OwnerOp.limit] at htop hsize hthief
    simp only [ownerStep, hop] at h
    split at h
    · next hnone =>
      cases h
      have htop : d.top = b + 1 := by omega
      refine hs.advanceOwner ⟨by omega, rfl⟩ ?_ (by rw [hop]; rfl)
      simp only [limit, hop, OwnerOp.limit]
      exact htop
    · next hsome =>
      cases h
      by_cases hlt : d.top < b
      · refine ⟨⟨?_, ?_, ⟨hbottom, by omega, Int.le_refl _⟩, fun x => ?_⟩, ?_⟩
        · simp only [limit, OwnerOp.limit, if_pos hlt]
          omega
        · simp only [limit, OwnerOp.limit, if_pos hlt]
          omega
        · refine (hthief x).mono fun _ => ⟨?_, rfl⟩
          simp only [limit, OwnerOp.limit, if_pos hlt]
          exact hlt
        · simp [unreturned, limit, hop, OwnerOp.limit, OwnerOp.inHand, hlt,
            Window.elems_concat (Int.le_of_lt hlt), DequeEvent.pushedFibers,
            DequeEvent.returnedFibers]
      · refine hs.advanceOwner ⟨hbottom, by omega, Int.le_refl _⟩ ?_ ?_
        · simp only [limit, hop, OwnerOp.limit, if_neg hlt]
        · simp only [hop, OwnerOp.inHand, if_neg hlt]
  | popSlot b t =>
    rw [hop] at howner htop hsize hthief
    obtain ⟨hbottom, hle, hold⟩ := howner
    simp only [ownerStep, hop] at h
    split at h
    · next hlt =>
      cases h
      simp only [OwnerOp.limit, if_pos hlt] at htop hsize hthief
      refine ⟨⟨hbottom ▸ htop, hbottom ▸ hsize, trivial, hbottom ▸ hthief⟩, ?_⟩
      simp [unreturned, limit, hop, OwnerOp.limit, OwnerOp.inHand, hlt, hbottom,
        DequeEvent.pushedFibers, DequeEvent.returnedFibers]
    · next hlast =>
      cases h
      refine hs.advanceOwner ⟨hbottom, by omega, fun heq => rfl⟩ ?_ ?_
      · simp only [limit, hop, OwnerOp.limit, if_neg hlast]
      · simp only [hop, OwnerOp.inHand, if_neg hlast]
  | popSwap b f =>
    rw [hop] at howner htop hsize hthief
    obtain ⟨hbottom, hle, hslot⟩ := howner
    simp only [OwnerOp.limit] at htop hsize hthief
    simp only [ownerStep, hop] at h
    split at h
    · next heq =>
      cases h
      refine ⟨⟨Int.le_refl _, by simp [limit, OwnerOp.limit, dequeCap],
        ⟨by change d.bottom = b + 1 - 1; omega, rfl⟩, fun x => heq ▸ (hthief x).advance⟩, ?_⟩
      have hlast : Window.elems d.slots dequeCap d.top (b + 1) = [f] := by
        rw [heq, Window.elems_concat (Int.le_refl b), Window.elems_eq_nil (Int.le_refl b),
          hslot heq]
        rfl
      simp [unreturned, limit, hop, OwnerOp.limit, OwnerOp.inHand, hlast,
        Window.elems_eq_nil (Int.le_refl (b + 1)), DequeEvent.pushedFibers,
        DequeEvent.returnedFibers]
    · next hne =>
      cases h
      refine hs.advanceOwner ⟨by omega, by omega⟩ ?_ (by rw [hop]; rfl)
      simp only [limit, hop, OwnerOp.limit]
  | popRestore b result =>
    rw [hop] at howner htop hsize hthief
    simp only [ownerStep, hop, Option.some.injEq, Prod.mk.injEq] at h
    obtain ⟨rfl, rfl⟩ := h
    simp only [OwnerOp.limit] at htop hsize hthief
    refine ⟨⟨htop, hsize, trivial, hthief⟩, ?_⟩
    have hnone : Window.elems d.slots dequeCap d.top b = [] :=
      Window.elems_eq_nil (Int.le_of_eq howner.2.symm)
    cases result <;> simp [unreturned, limit, hop, OwnerOp.limit, OwnerOp.inHand, hnone,
      DequeEvent.pushedFibers, DequeEvent.returnedFibers]

/-! ## Steals -/

variable [DecidableEq X]

theorem Sound.advanceThief {op : ThiefOp F} (hs : d.Sound) (hfits : op.Fits d.top d.limit d.slots)
    (hreturned : DequeEvent.returnedFibers e = []) (hpushed : DequeEvent.pushedFibers e = []) :
    d.Effect (d.setThief x op) e where
  sound := by
    refine ⟨hs.top, hs.size, hs.owner, fun y => ?_⟩
    change (Function.update d.thief x op y).Fits _ _ _
    rw [Function.update_apply]
    split
    · exact hfits
    · exact hs.thief y
  fibers := by
    have hsame : (d.setThief x op).unreturned = d.unreturned := rfl
    simp [hsame, hreturned, hpushed]

omit [DecidableEq X] in
theorem fits_advance (h : d.owner.Fits d.top d.bottom d.slots) (hlt : d.top < d.limit) :
    d.owner.Fits (d.top + 1) d.bottom d.slots := by
  rw [limit] at hlt
  cases hop : d.owner with
  | idle | aborted | pushTop | popStore | popTop =>
    rw [hop] at h
    exact h
  | pushSlot | popSlot =>
    rw [hop] at h
    simp only [OwnerOp.Fits] at h ⊢
    omega
  | pushStore =>
    rw [hop] at h
    obtain ⟨hbottom, hroom, hslot⟩ := h
    exact ⟨hbottom, by omega, hslot⟩
  | popSwap =>
    rw [hop] at h hlt
    obtain ⟨hbottom, hle, -⟩ := h
    exact ⟨hbottom, by omega, fun heq => absurd heq (by omega)⟩
  | popRestore =>
    rw [hop] at h hlt
    simp only [OwnerOp.limit] at hlt
    exact absurd h.2 (by omega)

theorem thiefStep_effect (hs : d.Sound) (x : X) :
    d.Effect (d.thiefStep x).1 (d.thiefStep x).2 := by
  have hthief := hs.thief x
  unfold thiefStep
  cases hop : d.thief x with
  | idle => exact hs.advanceThief (Int.le_refl _) rfl rfl
  | bottom t =>
    rw [hop] at hthief
    have hle : t ≤ d.top := hthief
    simp only
    split
    · exact hs.advanceThief trivial rfl rfl
    · next hsome =>
      refine hs.advanceThief ⟨hle, fun heq => ?_⟩ rfl rfl
      exact Int.lt_of_lt_of_le (by omega) (bottom_le_limit hs.owner)
  | slot t =>
    rw [hop] at hthief
    refine hs.advanceThief ⟨hthief.1, fun heq => ⟨hthief.2 heq, ?_⟩⟩ rfl rfl
    rw [heq]
  | swap t f =>
    rw [hop] at hthief
    simp only
    split
    · next heq =>
      obtain ⟨hlt, hslot⟩ := hthief.2 heq.symm
      subst heq
      refine ⟨⟨?_, ?_, fits_advance hs.owner hlt, fun y => ?_⟩, ?_⟩
      · exact Int.add_one_le_of_lt hlt
      · have hsize := hs.size
        change d.limit - (d.top + 1) ≤ dequeCap
        omega
      · change (Function.update d.thief x .idle y).Fits (d.top + 1) d.limit d.slots
        rw [Function.update_apply]
        split
        · trivial
        · exact (hs.thief y).advance
      · change (d.unreturned ++ []).Perm ([f] ++
          (Window.elems d.slots dequeCap (d.top + 1) d.limit ++ d.owner.inHand d.slots))
        rw [List.append_nil, unreturned, Window.elems_eq_cons hlt, hslot]
        exact .rfl
    · exact hs.advanceThief trivial rfl rfl

theorem step_effect (hs : d.Sound) (h : Step d (a, e) d') : d.Effect d' e := by
  cases a with
  | push f =>
    simp only [Step, step] at h
    split at h
    · next hop =>
      cases h
      exact hs.advanceOwner rfl (by rw [limit, hop]; rfl) (by rw [hop]; rfl)
    · cases h
  | pop =>
    simp only [Step, step] at h
    split at h
    · next hop =>
      cases h
      refine hs.advanceOwner ?_ (by rw [limit, hop]; rfl) (by rw [hop]; rfl)
      exact (Int.sub_add_cancel _ _).symm
    · cases h
  | owner => exact ownerStep_effect hs h
  | thief x =>
    simp only [Step, step] at h
    split at h
    · cases h
    · have heffect := thiefStep_effect hs x
      rw [Option.some.inj h] at heffect
      exact heffect

/-! ## Runs -/

def pushedOf (ls : List (DequeAction F X × DequeEvent F)) : List F :=
  ls.flatMap (·.2.pushedFibers)

def returnedOf (ls : List (DequeAction F X × DequeEvent F)) : List F :=
  ls.flatMap (·.2.returnedFibers)

theorem run_fibers (h : Steps Step d ls d') (hs : d.Sound) :
    d'.Sound ∧ (d.unreturned ++ pushedOf ls).Perm (returnedOf ls ++ d'.unreturned) := by
  induction h with
  | nil => exact ⟨hs, by simp [pushedOf, returnedOf]⟩
  | @cons d l d₁ ls d₂ ha _ ih =>
    have heffect := step_effect hs ha
    obtain ⟨hs', hperm⟩ := ih heffect.sound
    refine ⟨hs', ?_⟩
    simp only [pushedOf, returnedOf, List.flatMap_cons] at hperm ⊢
    rw [← List.append_assoc, List.append_assoc l.2.returnedFibers]
    refine (heffect.fibers.append_right _).trans ?_
    rw [List.append_assoc]
    exact hperm.append_left _

/-- What holds of a deque after a run from its creation. -/
structure Delivers (ls : List (DequeAction F X × DequeEvent F)) (d : Deque F X) : Prop where
  /-- Each push is answered once or still to be answered. -/
  once : (pushedOf ls).Perm (returnedOf ls ++ d.unreturned)
  /-- What is still to be answered is in the deque or in the hands of the one pop under way. -/
  unreturned : d.owner = .idle → d.unreturned = d.unclaimed
  stealEmpty : ∀ x d', Step d (.thief x, .answered .empty) d' → d.unclaimed = []
  /-- A pop decides for empty when it loads `top`. -/
  popEmpty : ∀ d' b e, Step d (.owner, e) d' → d'.owner = .popRestore b .empty → d.unclaimed = []
  stealLost : ∀ x d', Step d (.thief x, .answered .lost) d' →
    ∃ t f, d.thief x = .swap t f ∧ t < d.top
  popLost : ∀ d' b e, Step d (.owner, e) d' → d'.owner = .popRestore b .lost →
    ∃ t f, d.owner = .popSwap t f ∧ t < d.top

theorem Sound.stealEmpty (hs : d.Sound) (h : Step d (.thief x, .answered .empty) d') :
    d.unclaimed = [] := by
  have hthief := hs.thief x
  simp only [Step, step] at h
  split at h
  · cases h
  · simp only [thiefStep] at h
    cases hop : d.thief x with
    | bottom t =>
      rw [hop] at h hthief
      have hle : t ≤ d.top := hthief
      simp only at h
      split at h
      · exact Window.elems_eq_nil (by omega)
      · cases h
    | idle | slot t =>
      rw [hop] at h
      cases h
    | swap t f =>
      rw [hop] at h
      simp only at h
      split at h <;> cases h

theorem Sound.stealLost (hs : d.Sound) (h : Step d (.thief x, .answered .lost) d') :
    ∃ t f, d.thief x = .swap t f ∧ t < d.top := by
  have hthief := hs.thief x
  simp only [Step, step] at h
  split at h
  · cases h
  · simp only [thiefStep] at h
    cases hop : d.thief x with
    | bottom t =>
      rw [hop] at h
      simp only at h
      split at h <;> cases h
    | idle | slot t =>
      rw [hop] at h
      cases h
    | swap t f =>
      rw [hop] at h hthief
      simp only at h
      split at h
      · cases h
      · next hne =>
        have hle : t ≤ d.top := hthief.1
        exact ⟨t, f, rfl, by omega⟩

omit [DecidableEq X] in
theorem Sound.popEmpty (hs : d.Sound) (h : d.ownerStep = some (d', e))
    (howner : d'.owner = .popRestore b .empty) : d.unclaimed = [] := by
  have hfits := hs.owner
  cases hop : d.owner with
  | popTop b' =>
    rw [hop] at hfits
    have hbottom : d.bottom = b' := hfits
    simp only [ownerStep, hop] at h
    split at h
    · exact Window.elems_eq_nil (by omega)
    · cases h
      cases howner
  | idle | aborted => simp [ownerStep, hop] at h
  | pushTop | popSlot | popSwap =>
    simp only [ownerStep, hop] at h
    split at h <;> cases h <;> cases howner
  | pushSlot | pushStore | popStore | popRestore =>
    simp only [ownerStep, hop, Option.some.injEq, Prod.mk.injEq] at h
    obtain ⟨rfl, _⟩ := h
    cases howner

omit [DecidableEq X] in
theorem Sound.popLost (hs : d.Sound) (h : d.ownerStep = some (d', e))
    (howner : d'.owner = .popRestore b .lost) : ∃ t f, d.owner = .popSwap t f ∧ t < d.top := by
  have hfits := hs.owner
  cases hop : d.owner with
  | popSwap t f =>
    rw [hop] at hfits
    have hle : t ≤ d.top := hfits.2.1
    simp only [ownerStep, hop] at h
    split at h
    · cases h
      cases howner
    · exact ⟨t, f, rfl, by omega⟩
  | idle | aborted => simp [ownerStep, hop] at h
  | pushTop | popSlot | popTop =>
    simp only [ownerStep, hop] at h
    split at h <;> cases h <;> cases howner
  | pushSlot | pushStore | popStore | popRestore =>
    simp only [ownerStep, hop, Option.some.injEq, Prod.mk.injEq] at h
    obtain ⟨rfl, _⟩ := h
    cases howner

theorem deque_delivers {slots : Int → F} (h : Steps Step (init slots : Deque F X) ls d) :
    d.Delivers ls := by
  obtain ⟨hs, hperm⟩ := run_fibers h (sound_init slots)
  refine ⟨?_, fun hidle => ?_, fun _ _ => hs.stealEmpty, fun _ _ _ => hs.popEmpty,
    fun _ _ => hs.stealLost, fun _ _ _ => hs.popLost⟩
  · have hstart : (init slots : Deque F X).unreturned = [] := rfl
    rwa [hstart, List.nil_append] at hperm
  · simp [unreturned, unclaimed, limit, hidle, OwnerOp.limit, OwnerOp.inHand]

end Deque

end Cajeta.Concurrent
