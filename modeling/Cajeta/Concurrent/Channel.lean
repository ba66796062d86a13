import Cajeta.Lib.Ring
import Cajeta.Lib.Transition
import Mathlib.Algebra.Order.Group.Int
import Mathlib.Tactic.Tauto

/-!
# Channels

A bounded queue shared by any number of fibers. Each critical section is one step; a wait ends it
and a wake-up, which may be spurious, starts another. A wait may end with a cancellation instead.
-/

namespace Cajeta.Concurrent

open Slots

structure Channel (T : Type) where
  buf : List T
  capacity : Nat
  head : Nat
  tail : Nat
  size : Nat
  closed : Bool

/-- How a critical section ends. -/
inductive ChannelEvent (T : Type) where
  | waits
  | sent (item : T)
  | raised
  | refused
  | received (item : T)
  | empty
  | closed
  | isClosed (answer : Bool)
  | cancelled

namespace Channel
variable {T : Type}

/-- The slots of a new array hold the default of the type. -/
def new (capacity : Nat) (default : T) : Channel T where
  buf := List.replicate capacity default
  capacity := capacity
  head := 0
  tail := 0
  size := 0
  closed := false

/-! ## Critical sections

A section that would index beyond the buffer has no result. -/

def put (c : Channel T) (item : T) : Option (Channel T) := do
  let buf ← store c.buf c.tail item
  return { c with buf, tail := (c.tail + 1) % c.capacity, size := c.size + 1 }

def take (c : Channel T) : Option (Channel T × T) := do
  let item ← c.buf[c.head]?
  return ({ c with head := (c.head + 1) % c.capacity, size := c.size - 1 }, item)

def send (c : Channel T) (item : T) : Option (Channel T × ChannelEvent T) :=
  if c.capacity ≤ c.size && !c.closed then some (c, .waits)
  else if c.closed then some (c, .raised)
  else do return (← c.put item, .sent item)

def trySend (c : Channel T) (item : T) : Option (Channel T × ChannelEvent T) :=
  if c.closed || c.capacity ≤ c.size then some (c, .refused)
  else do return (← c.put item, .sent item)

/-- An empty answer reads a slot for the unused value of its `Optional`. -/
def answerEmpty (c : Channel T) : Option (Channel T × ChannelEvent T) := do
  let _ ← c.buf[c.head]?
  return (c, .empty)

def receive (c : Channel T) : Option (Channel T × ChannelEvent T) :=
  if c.size = 0 && !c.closed then some (c, .waits)
  else if c.size = 0 then c.answerEmpty
  else do
    let (c, item) ← c.take
    return (c, .received item)

def tryReceive (c : Channel T) : Option (Channel T × ChannelEvent T) :=
  if c.size = 0 then c.answerEmpty
  else do
    let (c, item) ← c.take
    return (c, .received item)

def close (c : Channel T) : Channel T := { c with closed := true }

end Channel

/-! ## Fibers -/

inductive ChannelWait (T : Type) where
  | send (item : T)
  | receive

structure ChannelSystem (F T : Type) where
  chan : Channel T
  waits : F → Option (ChannelWait T)

inductive ChannelAction (F T : Type) where
  | send (f : F) (item : T)
  | trySend (f : F) (item : T)
  | receive (f : F)
  | tryReceive (f : F)
  | close (f : F)
  | isClosed (f : F)
  /-- A waiting fiber has the lock again. -/
  | wake (f : F)
  /-- The lock is not acquired: a call, or a wait, ends with the cancellation. -/
  | cancel (f : F)

def ChannelAction.fiber {F T : Type} : ChannelAction F T → F
  | .send f _ | .trySend f _ | .receive f | .tryReceive f | .close f | .isClosed f | .wake f
  | .cancel f => f

namespace ChannelSystem
variable {F T : Type}

def new (capacity : Nat) (default : T) : ChannelSystem F T := ⟨.new capacity default, fun _ => none⟩

def criticalSection (s : ChannelSystem F T) :
    ChannelAction F T → Option (Channel T × ChannelEvent T)
  | .send f item => if (s.waits f).isNone then s.chan.send item else none
  | .trySend f item => if (s.waits f).isNone then s.chan.trySend item else none
  | .receive f => if (s.waits f).isNone then s.chan.receive else none
  | .tryReceive f => if (s.waits f).isNone then s.chan.tryReceive else none
  | .close f => if (s.waits f).isNone then some (s.chan.close, .closed) else none
  | .isClosed f => if (s.waits f).isNone then some (s.chan, .isClosed s.chan.closed) else none
  | .wake f =>
    match s.waits f with
    | some (.send item) => s.chan.send item
    | some .receive => s.chan.receive
    | none => none
  | .cancel _ => some (s.chan, .cancelled)

def waitOf (s : ChannelSystem F T) : ChannelAction F T → Option (ChannelWait T)
  | .send _ item => some (.send item)
  | .receive _ => some .receive
  | .wake f => s.waits f
  | _ => none

variable [DecidableEq F]

def step (s : ChannelSystem F T) (a : ChannelAction F T) :
    Option (ChannelSystem F T × ChannelEvent T) := do
  let (chan, e) ← s.criticalSection a
  let wait := match e with
    | .waits => s.waitOf a
    | _ => none
  return (⟨chan, Function.update s.waits a.fiber wait⟩, e)

/-- A step with the way its section ends. -/
abbrev Step (s : ChannelSystem F T) (l : ChannelAction F T × ChannelEvent T)
    (s' : ChannelSystem F T) : Prop :=
  s.step l.1 = some (s', l.2)

end ChannelSystem

/-!
## Channels are bounded queues

What goes in comes out in order and once, whatever waits and cancellations come in between.
-/

namespace ChannelEvent
variable {T : Type}

/-- The item that a section has put in. -/
def sentItems : ChannelEvent T → List T
  | .sent item => [item]
  | _ => []

/-- The item that a section has taken out. -/
def receivedItems : ChannelEvent T → List T
  | .received item => [item]
  | _ => []

/-- The section is that of a receive that does not wait. -/
def takes : ChannelEvent T → Nat
  | .received _ | .empty => 1
  | _ => 0

/-- The section is that of a send that has failed, or of a call that was cancelled. -/
def Fails : ChannelEvent T → Prop
  | .raised | .refused | .cancelled => True
  | _ => False

end ChannelEvent

namespace Channel
variable {T : Type} {c c' : Channel T}

/-- The buffered items, the next to be received first. -/
def items (c : Channel T) : List T := Ring.items c.buf c.head c.size

structure WellFormed (c : Channel T) : Prop where
  buf : c.buf.length = c.capacity
  head : c.head < c.capacity
  size : c.size ≤ c.capacity
  tail : c.tail = (c.head + c.size) % c.capacity

theorem wellFormed_new (d : T) (hcap : 1 ≤ n) : (new n d).WellFormed := by
  refine ⟨by simp [new], hcap, Nat.zero_le _, ?_⟩
  simp [new]

theorem WellFormed.length_items (hc : c.WellFormed) : c.items.length = c.size :=
  Ring.length_items (hc.buf ▸ hc.size)

theorem WellFormed.items_eq_nil (hc : c.WellFormed) : c.items = [] ↔ c.size = 0 := by
  rw [← List.length_eq_zero_iff, hc.length_items]

theorem put_spec (hc : c.WellFormed) (hsize : c.size < c.capacity) (item : T) :
    ∃ c', c.put item = some c' ∧ c'.WellFormed ∧ c'.items = c.items ++ [item] ∧
      c'.closed = c.closed ∧ c'.capacity = c.capacity := by
  have htail : c.tail < c.buf.length := by
    rw [hc.buf, hc.tail]
    exact Nat.mod_lt _ (by omega)
  refine ⟨⟨c.buf.set c.tail item, c.capacity, c.head, (c.tail + 1) % c.capacity, c.size + 1,
    c.closed⟩, ?_, ⟨?_, hc.head, hsize, ?_⟩, ?_, rfl, rfl⟩
  · simp [put, store, htail]
  · rw [List.length_set, hc.buf]
  · simp only [hc.tail, Nat.mod_add_mod, Nat.add_assoc]
  · simp only [items, hc.tail, ← hc.buf]
    exact Ring.items_set (by rwa [hc.buf])

theorem take_spec (hc : c.WellFormed) (hsize : 0 < c.size) :
    ∃ c' item, c.take = some (c', item) ∧ c'.WellFormed ∧ c.items = item :: c'.items ∧
      c'.closed = c.closed ∧ c'.capacity = c.capacity := by
  have hhead : c.head < c.buf.length := hc.buf ▸ hc.head
  have hget : c.buf[c.head]? = some c.buf[c.head] := List.getElem?_eq_getElem hhead
  have hcap := hc.size
  refine ⟨⟨c.buf, c.capacity, (c.head + 1) % c.capacity, c.tail, c.size - 1, c.closed⟩,
    c.buf[c.head], ?_, ⟨hc.buf, Nat.mod_lt _ (by omega), ?_, ?_⟩, ?_, rfl, rfl⟩
  · simp [take, hget]
  · change c.size - 1 ≤ c.capacity
    omega
  · simp only [hc.tail, Nat.mod_add_mod]
    congr 1
    omega
  · have hcons := Ring.items_eq_cons (n := c.size - 1) hget (by rw [hc.buf]; omega)
    rw [Nat.sub_add_cancel hsize, hc.buf] at hcons
    exact hcons

/-- What a critical section does to the queue. -/
structure Effect (c c' : Channel T) (e : ChannelEvent T) : Prop where
  wellFormed : c'.WellFormed
  capacity : c'.capacity = c.capacity
  items : c.items ++ e.sentItems = e.receivedItems ++ c'.items
  closed : c.closed → c'.closed ∧ e.sentItems = []
  fails : e.Fails → c' = c
  empty : e = .empty → c.items = []

theorem effect_refl (hc : c.WellFormed) (hsent : e.sentItems = [])
    (hreceived : e.receivedItems = [])
    (hempty : e = .empty → c.items = []) : Effect c c e where
  wellFormed := hc
  capacity := rfl
  items := by rw [hsent, hreceived, List.append_nil, List.nil_append]
  closed h := ⟨h, hsent⟩
  fails _ := rfl
  empty := hempty

theorem effect_put (hc : c.WellFormed) (hsize : c.size < c.capacity) (hopen : ¬ c.closed)
    (item : T) :
    ∃ c', c.put item = some c' ∧ Effect c c' (.sent item) := by
  obtain ⟨c', hput, hwf, hitems, -, hcap⟩ := put_spec hc hsize item
  exact ⟨c', hput, hwf, hcap, hitems.symm, fun h => absurd h hopen, False.elim, by simp⟩

theorem effect_take (hc : c.WellFormed) (hsize : 0 < c.size) :
    ∃ c' item, c.take = some (c', item) ∧ Effect c c' (.received item) := by
  obtain ⟨c', item, htake, hwf, hitems, hclosed, hcap⟩ := take_spec hc hsize
  refine ⟨c', item, htake, hwf, hcap, ?_, fun h => ⟨hclosed ▸ h, rfl⟩, False.elim, by simp⟩
  simpa [ChannelEvent.sentItems, ChannelEvent.receivedItems] using hitems

theorem effect_answerEmpty (hc : c.WellFormed) (hsize : c.size = 0) :
    c.answerEmpty = some (c, .empty) ∧ Effect c c .empty := by
  have hget : c.buf[c.head]? = some _ := List.getElem?_eq_getElem (hc.buf ▸ hc.head)
  exact ⟨by simp [answerEmpty, hget], effect_refl hc rfl rfl fun _ => hc.items_eq_nil.mpr hsize⟩

theorem send_spec (hc : c.WellFormed) (item : T) :
    ∃ c' e, c.send item = some (c', e) ∧ Effect c c' e ∧ e ≠ .empty := by
  rw [send]
  split
  · exact ⟨c, .waits, rfl, effect_refl hc rfl rfl (by simp), by simp⟩
  · split
    · exact ⟨c, .raised, rfl, effect_refl hc rfl rfl (by simp), by simp⟩
    · next hfull hopen =>
      simp only [Bool.and_eq_true, decide_eq_true_eq, Bool.not_eq_true'] at hfull
      obtain ⟨c', hput, heffect⟩ := effect_put hc (by simp_all) hopen item
      exact ⟨c', .sent item, by simp [hput], heffect, by simp⟩

theorem trySend_spec (hc : c.WellFormed) (item : T) :
    ∃ c' e, c.trySend item = some (c', e) ∧ Effect c c' e ∧ e ≠ .empty := by
  rw [trySend]
  split
  · exact ⟨c, .refused, rfl, effect_refl hc rfl rfl (by simp), by simp⟩
  · next hcan =>
    simp only [Bool.or_eq_true, decide_eq_true_eq, not_or, Nat.not_le] at hcan
    obtain ⟨c', hput, heffect⟩ := effect_put hc hcan.2 hcan.1 item
    exact ⟨c', .sent item, by simp [hput], heffect, by simp⟩

theorem receive_spec (hc : c.WellFormed) :
    ∃ c' e, c.receive = some (c', e) ∧ Effect c c' e ∧ (e = .empty → c.closed) := by
  rw [receive]
  split
  · exact ⟨c, .waits, rfl, effect_refl hc rfl rfl (by simp), by simp⟩
  · next hwait =>
    split
    · next hsize =>
      obtain ⟨hanswer, heffect⟩ := effect_answerEmpty hc hsize
      refine ⟨c, .empty, hanswer, heffect, fun _ => ?_⟩
      simpa [hsize] using hwait
    · next hsize =>
      obtain ⟨c', item, htake, heffect⟩ := effect_take hc (Nat.pos_of_ne_zero hsize)
      exact ⟨c', .received item, by simp [htake], heffect, by simp⟩

theorem tryReceive_spec (hc : c.WellFormed) :
    ∃ c' e, c.tryReceive = some (c', e) ∧ Effect c c' e := by
  rw [tryReceive]
  split
  · next hsize =>
    obtain ⟨hanswer, heffect⟩ := effect_answerEmpty hc hsize
    exact ⟨c, .empty, hanswer, heffect⟩
  · next hsize =>
    obtain ⟨c', item, htake, heffect⟩ := effect_take hc (Nat.pos_of_ne_zero hsize)
    exact ⟨c', .received item, by simp [htake], heffect⟩

theorem effect_close (hc : c.WellFormed) : Effect c c.close .closed where
  wellFormed := ⟨hc.buf, hc.head, hc.size, hc.tail⟩
  capacity := rfl
  items := List.append_nil _
  closed _ := ⟨rfl, rfl⟩
  fails := False.elim
  empty := by simp

end Channel

namespace ChannelSystem
variable {F T : Type} {s s' : ChannelSystem F T}

open Channel (Effect send_spec trySend_spec receive_spec tryReceive_spec effect_close effect_refl
  wellFormed_new)

/-- A call of a fiber that does not wait, a wake-up of one that does, and any cancellation. -/
def Enabled (s : ChannelSystem F T) : ChannelAction F T → Prop
  | .cancel _ => True
  | .wake f => s.waits f ≠ none
  | a => s.waits a.fiber = none

theorem criticalSection_enabled {r} (h : s.criticalSection a = some r) : s.Enabled a := by
  cases a <;> simp only [criticalSection] at h
  case cancel => trivial
  case wake f =>
    intro hnone
    rw [hnone] at h
    cases h
  all_goals
    split at h
    · next hidle => exact Option.isNone_iff_eq_none.mp hidle
    · cases h

theorem criticalSection_spec (hs : s.chan.WellFormed) (ha : s.Enabled a) :
    ∃ c' e, s.criticalSection a = some (c', e) ∧ Effect s.chan c' e ∧
      ((∀ f, a ≠ .tryReceive f) → e = .empty → s.chan.closed) := by
  have hidle : ∀ f, s.waits f = none → (s.waits f).isNone := fun f => Option.isNone_iff_eq_none.mpr
  cases a with
  | send f item =>
    obtain ⟨c', e, hsend, heffect, hne⟩ := send_spec hs item
    exact ⟨c', e, by rw [criticalSection, if_pos (hidle f ha), hsend], heffect,
      fun _ h => absurd h hne⟩
  | trySend f item =>
    obtain ⟨c', e, hsend, heffect, hne⟩ := trySend_spec hs item
    exact ⟨c', e, by rw [criticalSection, if_pos (hidle f ha), hsend], heffect,
      fun _ h => absurd h hne⟩
  | receive f =>
    obtain ⟨c', e, hreceive, heffect, hclosed⟩ := receive_spec hs
    exact ⟨c', e, by rw [criticalSection, if_pos (hidle f ha), hreceive], heffect, fun _ => hclosed⟩
  | tryReceive f =>
    obtain ⟨c', e, hreceive, heffect⟩ := tryReceive_spec hs
    exact ⟨c', e, by rw [criticalSection, if_pos (hidle f ha), hreceive], heffect,
      fun hne => absurd rfl (hne f)⟩
  | close f =>
    exact ⟨_, _, by rw [criticalSection, if_pos (hidle f ha)], effect_close hs, by simp⟩
  | isClosed f =>
    exact ⟨_, _, by rw [criticalSection, if_pos (hidle f ha)],
      effect_refl hs rfl rfl (by simp), by simp⟩
  | cancel f => exact ⟨_, _, rfl, effect_refl hs rfl rfl (by simp), by simp⟩
  | wake f =>
    rw [criticalSection]
    cases hw : s.waits f with
    | none => exact absurd hw ha
    | some w =>
      cases w with
      | send item =>
        obtain ⟨c', e, hsend, heffect, hne⟩ := send_spec hs item
        exact ⟨c', e, hsend, heffect, fun _ h => absurd h hne⟩
      | receive =>
        obtain ⟨c', e, hreceive, heffect, hclosed⟩ := receive_spec hs
        exact ⟨c', e, hreceive, heffect, fun _ => hclosed⟩

variable [DecidableEq F]

theorem step_spec (hs : s.chan.WellFormed) (h : Step s (a, e) s') :
    Effect s.chan s'.chan e ∧ ((∀ f, a ≠ .tryReceive f) → e = .empty → s.chan.closed) := by
  simp only [Step, step, Option.bind_eq_bind, Option.bind_eq_some_iff] at h
  obtain ⟨⟨c, e'⟩, hsection, heq⟩ := h
  obtain ⟨c', e'', hspec, heffect, hempty⟩ :=
    criticalSection_spec hs (criticalSection_enabled hsection)
  rw [hspec] at hsection
  cases hsection
  cases heq
  exact ⟨heffect, hempty⟩

def sentOf (ls : List (ChannelAction F T × ChannelEvent T)) : List T := ls.flatMap (·.2.sentItems)

def receivedOf (ls : List (ChannelAction F T × ChannelEvent T)) : List T :=
  ls.flatMap (·.2.receivedItems)

/-- The number of receives that did not wait. -/
def takesOf (ls : List (ChannelAction F T × ChannelEvent T)) : Nat := (ls.map (·.2.takes)).sum

theorem run_items (h : Steps Step s ls s') (hs : s.chan.WellFormed) :
    s'.chan.WellFormed ∧ s'.chan.capacity = s.chan.capacity ∧
      s.chan.items ++ sentOf ls = receivedOf ls ++ s'.chan.items := by
  induction h with
  | nil => exact ⟨hs, rfl, by simp [sentOf, receivedOf]⟩
  | cons ha _ ih =>
    have heffect := (step_spec hs ha).1
    obtain ⟨hwf, hcap, hitems⟩ := ih heffect.wellFormed
    refine ⟨hwf, hcap.trans heffect.capacity, ?_⟩
    simp only [sentOf, receivedOf, List.flatMap_cons] at hitems ⊢
    rw [← List.append_assoc, heffect.items, List.append_assoc, hitems, List.append_assoc]

theorem run_closed (h : Steps Step s ls s') (hs : s.chan.WellFormed) (hclosed : s.chan.closed) :
    sentOf ls = [] ∧ receivedOf ls = s.chan.items.take (takesOf ls) := by
  induction h with
  | nil => simp [sentOf, receivedOf, takesOf]
  | @cons s l s₁ ls s₂ ha _ ih =>
    obtain ⟨a, e⟩ := l
    have heffect := (step_spec hs ha).1
    obtain ⟨hclosed', hnone⟩ := heffect.closed hclosed
    obtain ⟨hsent, hreceived⟩ := ih heffect.wellFormed hclosed'
    have hitems := heffect.items
    rw [hnone, List.append_nil] at hitems
    simp only [sentOf, receivedOf, takesOf, List.flatMap_cons, List.map_cons,
      List.sum_cons] at hsent hreceived ⊢
    refine ⟨by rw [hnone, hsent, List.nil_append], ?_⟩
    rw [hreceived, hitems]
    cases e
    case received item => simp [ChannelEvent.receivedItems, ChannelEvent.takes, Nat.add_comm 1]
    case empty =>
      have hdrained := heffect.empty rfl
      rw [hdrained] at hitems
      simp only [ChannelEvent.receivedItems, List.nil_append] at hitems ⊢
      rw [← hitems]
      simp
    all_goals simp [ChannelEvent.receivedItems, ChannelEvent.takes]

/-- What holds of a channel after a run from its creation. -/
structure BoundedFifo (capacity : Nat) (ls : List (ChannelAction F T × ChannelEvent T))
    (s : ChannelSystem F T) : Prop where
  /-- Every item sent has been received, in order, or is buffered. -/
  fifo : receivedOf ls ++ s.chan.items = sentOf ls
  bounded : s.chan.items.length = s.chan.size ∧ s.chan.size ≤ capacity
  ring : ((s.chan.tail : Int) - s.chan.head) % capacity = (s.chan.size : Int) % capacity
  /-- No enabled section goes wrong. -/
  total : ∀ a, s.Enabled a → (s.step a).isSome
  empty : ∀ a s', Step s (a, .empty) s' → (∀ f, a ≠ .tryReceive f) →
    s.chan.closed ∧ receivedOf ls = sentOf ls
  fails : ∀ a e s', Step s (a, e) s' → e.Fails → s'.chan = s.chan
  closed : s.chan.closed → ∀ ls' s', Steps Step s ls' s' →
    sentOf ls' = [] ∧ receivedOf ls' = s.chan.items.take (takesOf ls')

theorem channel_boundedFifo {capacity : Nat} (d : T) (hcap : 1 ≤ capacity)
    (h : Steps Step (new capacity d : ChannelSystem F T) ls s) : BoundedFifo capacity ls s := by
  have hnew : (Channel.new capacity d).WellFormed := wellFormed_new d hcap
  obtain ⟨hwf, hcapacity, hitems⟩ := run_items h hnew
  have hstart : (new capacity d : ChannelSystem F T).chan.items = [] :=
    hnew.items_eq_nil.mpr rfl
  rw [hstart, List.nil_append] at hitems
  change s.chan.capacity = capacity at hcapacity
  refine ⟨hitems.symm, ⟨hwf.length_items, hcapacity ▸ hwf.size⟩, ?_, fun a ha => ?_,
    fun a s' hstep hne => ?_, fun a e s' hstep hfails => ?_, fun hclosed ls' s' hrun =>
      run_closed hrun hwf hclosed⟩
  · rw [hwf.tail, hcapacity]
    push_cast
    rw [Int.emod_sub_emod]
    congr 1
    omega
  · obtain ⟨c', e, hsection, -, -⟩ := criticalSection_spec hwf ha
    simp [step, hsection]
  · obtain ⟨heffect, hclosed⟩ := step_spec hwf hstep
    rw [heffect.empty rfl, List.append_nil] at hitems
    exact ⟨hclosed hne rfl, hitems.symm⟩
  · exact (step_spec hwf hstep).1.fails hfails

/-- A run through two slots: the third item is sent by a fiber that waits for room and lies in the
slot of the first. -/
def wrapRun : List (ChannelAction Nat Nat × ChannelEvent Nat) :=
  [(.send 0 7, .sent 7), (.send 0 8, .sent 8), (.send 2 9, .waits), (.receive 1, .received 7),
    (.wake 2, .sent 9), (.receive 1, .received 8), (.receive 1, .received 9)]

theorem channel_boundedFifo_sample :
    ∃ s : ChannelSystem Nat Nat, s.chan.buf = [9, 8] ∧ BoundedFifo 2 wrapRun s := by
  have hrun : ∃ s, s.chan.buf = [9, 8] ∧ Steps Step (new 2 0 : ChannelSystem Nat Nat) wrapRun s :=
    ⟨_, rfl, .cons rfl <| .cons rfl <| .cons rfl <| .cons rfl <| .cons rfl <| .cons rfl <|
      .cons rfl .nil⟩
  obtain ⟨s, hbuf, hs⟩ := hrun
  exact ⟨s, hbuf, channel_boundedFifo 0 (by decide) hs⟩

end ChannelSystem

end Cajeta.Concurrent
