import Cajeta.Concurrent.ReadySet
import Mathlib.Data.List.Nodup

/-!
# When a readiness set forgets no member

A member that has fired is in no list until the next wait arms it, so that the closing of its
descriptor does not find it. In every run in which each descriptor is closed while its members are
armed, and their rings have room, the sets remember every event and every closing. The reactor works
through events that it fetched before it took the mutex, so such a run also has no event that hits a
member armed after the fetch.
-/

namespace Cajeta.Concurrent.ReadySet
open FiberWait (Interest Event Occasion)

theorem IoSet.push_members (k : IoSet Fd) (r : Record Fd) : (k.push r).members = k.members := by
  unfold push
  split <;> rfl

theorem IoSet.push_of_lt {k : IoSet Fd} (h : k.ring.length < ringSize) (r : Record Fd) :
    k.push r = { k with ring := k.ring ++ [r], log := k.log ++ [r] } := if_pos h

theorem IoSet.push_eq_or (k : IoSet Fd) (r : Record Fd) : k.push r = k ∨
    k.push r = { k with ring := k.ring ++ [r], log := k.log ++ [r] } := by
  unfold push
  split
  · exact .inr rfl
  · exact .inl rfl

def Record.key (r : Record Fd) : Nat × Nat := (r.cause.member, r.cause.arming)

namespace System
variable {S F Fd : Type} {s s' : System S F Fd} {k : S} {id : Nat}

structure Linked (s : System S F Fd) : Prop where
  listed : ∀ id, id ∈ s.waiters ↔ id ∈ (s.sets (s.heap id).set).members ∧ (s.heap id).armed
  nodup : s.waiters.Nodup
  owner : ∀ k, ∀ id ∈ (s.sets k).members, (s.heap id).set = k ∧ id < s.next
  members : ∀ k, (s.sets k).members.Nodup
  dead : ∀ k, ∀ id ∈ (s.sets k).members, (s.heap id).armed → (s.heap id).dead = false
  live : ∀ k, ∀ i ∈ (s.sets k).members, ∀ j ∈ (s.sets k).members, (s.heap i).dead = false →
    (s.heap j).dead = false → (s.heap i).fd = (s.heap j).fd → i = j

structure Logged (s : System S F Fd) : Prop where
  sub : ∀ k, ((s.sets k).returned ++ (s.sets k).ring).Sublist (s.sets k).log
  fresh : ∀ k, ∀ r ∈ (s.sets k).log, r.cause.member < s.next
  caused : ∀ k, ∀ r ∈ (s.sets k).log,
    r.cause.occasion ∈ r.cause.since ∧ r.cause.occasion.Concerns r.fd r.cause.interest
  once : ∀ k, ((s.sets k).log.map Record.key).Nodup
  arming : ∀ k, ∀ r ∈ (s.sets k).log, r.cause.arming ≤ (s.heap r.cause.member).arming ∧
    (r.cause.arming = (s.heap r.cause.member).arming → (s.heap r.cause.member).armed = false)

structure Kept (s : System S F Fd) (k : S) : Prop where
  order : s.recordsOf k (s.sets k).log = s.recordsOf k ((s.sets k).returned ++ (s.sets k).ring)
  reported : ∀ id ∈ (s.sets k).members, (s.heap id).dead → ∃ r ∈ (s.sets k).log,
    r.cause.member = id ∧ r.cause.occasion = .closed (s.heap id).fd
  closed : ∀ id ∈ (s.sets k).members, (s.heap id).closed → (s.heap id).dead

theorem initial_linked (heap : Nat → Member S Fd) : (initial heap : System S F Fd).Linked where
  listed _ := iff_of_false List.not_mem_nil fun h => List.not_mem_nil h.1
  nodup := .nil
  owner _ _ h := absurd h List.not_mem_nil
  members _ := .nil
  dead _ _ h := absurd h List.not_mem_nil
  live _ _ h := absurd h List.not_mem_nil

theorem initial_logged (heap : Nat → Member S Fd) : (initial heap : System S F Fd).Logged where
  sub _ := .refl _
  fresh _ _ h := absurd h List.not_mem_nil
  caused _ _ h := absurd h List.not_mem_nil
  once _ := .nil
  arming _ _ h := absurd h List.not_mem_nil

theorem initial_kept (heap : Nat → Member S Fd) : (initial heap : System S F Fd).Kept k where
  order := rfl
  reported _ h := absurd h List.not_mem_nil
  closed _ h := absurd h List.not_mem_nil

theorem Linked.not_listed (h : s.Linked) (ha : (s.heap id).armed = false) :
    id ∉ s.waiters := fun hmem => by
  rw [((h.listed id).mp hmem).2] at ha
  cases ha

theorem Linked.eq_of_set (h : s.Linked) (hi : i ∈ s.waiters) (hj : j ∈ s.waiters)
    (hfd : (s.heap i).fd = (s.heap j).fd) (hs : (s.heap i).set = (s.heap j).set) : i = j := by
  obtain ⟨hi, hia⟩ := (h.listed i).mp hi
  obtain ⟨hj, hja⟩ := (h.listed j).mp hj
  rw [← hs] at hj
  exact h.live _ i hi j hj (h.dead _ i hi hia) (h.dead _ j hj hja) hfd

theorem Linked.congr (h : s.Linked) (hw : s'.waiters = s.waiters) (hn : s.next ≤ s'.next)
    (hm : ∀ k, (s'.sets k).members = (s.sets k).members)
    (hh : ∀ id, id < s.next → (s'.heap id).fd = (s.heap id).fd ∧
      (s'.heap id).set = (s.heap id).set ∧ (s'.heap id).armed = (s.heap id).armed ∧
      (s'.heap id).dead = (s.heap id).dead) : s'.Linked := by
  have hreg {k id} (hid : id ∈ (s.sets k).members) := hh id (h.owner k id hid).2
  refine ⟨fun id => ?_, hw ▸ h.nodup, fun k id hid => ?_, fun k => hm k ▸ h.members k,
    fun k id hid ha => ?_, fun k i hi j hj hdi hdj hfd => ?_⟩
  · rw [hw, h.listed id, hm]
    constructor
    · rintro ⟨hid, ha⟩
      obtain ⟨-, hs, ha', -⟩ := hreg hid
      rw [hs, ha']
      exact ⟨hid, ha⟩
    · rintro ⟨hid, ha⟩
      obtain ⟨-, hs, ha', -⟩ := hreg hid
      rw [← hs, ← ha']
      exact ⟨hid, ha⟩
  · rw [hm] at hid
    obtain ⟨hs, hlt⟩ := h.owner k id hid
    exact ⟨(hreg hid).2.1.trans hs, Nat.lt_of_lt_of_le hlt hn⟩
  · rw [hm] at hid
    obtain ⟨-, -, ha', hd⟩ := hreg hid
    rw [hd]
    exact h.dead k id hid (ha' ▸ ha)
  · rw [hm] at hi hj
    obtain ⟨hfi, -, -, hdi'⟩ := hreg hi
    obtain ⟨hfj, -, -, hdj'⟩ := hreg hj
    rw [hdi'] at hdi
    rw [hdj'] at hdj
    exact h.live k i hi j hj hdi hdj (hfi.symm.trans (hfd.trans hfj))

theorem Logged.congr (h : s.Logged) (hn : s.next ≤ s'.next)
    (hl : ∀ k, (s'.sets k).log = (s.sets k).log)
    (hr : ∀ k, ((s'.sets k).returned ++ (s'.sets k).ring).Sublist
      ((s.sets k).returned ++ (s.sets k).ring))
    (hh : ∀ id, id < s.next → (s'.heap id).armed → (s.heap id).armed = true)
    (ha : ∀ id, id < s.next → (s'.heap id).arming = (s.heap id).arming) : s'.Logged where
  sub k := by rw [hl]; exact (hr k).trans (h.sub k)
  fresh k r hmem := Nat.lt_of_lt_of_le (h.fresh k r (hl k ▸ hmem)) hn
  caused k r hmem := h.caused k r (hl k ▸ hmem)
  once k := by rw [hl]; exact h.once k
  arming k r hmem := by
    rw [hl] at hmem
    have hlt := h.fresh k r hmem
    obtain ⟨h1, h2⟩ := h.arming k r hmem
    rw [ha _ hlt]
    refine ⟨h1, fun e => Bool.eq_false_iff.mpr fun harm => ?_⟩
    rw [hh _ hlt harm] at h2
    cases h2 e

theorem Kept.congr (h : s.Kept k) (hm : (s'.sets k).members = (s.sets k).members)
    (hl : (s'.sets k).log = (s.sets k).log)
    (hr : (s'.sets k).returned ++ (s'.sets k).ring = (s.sets k).returned ++ (s.sets k).ring)
    (hh : ∀ id ∈ (s.sets k).members, (s'.heap id).fd = (s.heap id).fd ∧
      (s'.heap id).dead = (s.heap id).dead ∧ ((s'.heap id).closed → (s.heap id).closed ∨
      (s.heap id).dead)) : s'.Kept k where
  order := by
    unfold recordsOf
    rw [hl, hr, hm]
    exact h.order
  reported id hid hd := by
    rw [hm] at hid
    obtain ⟨hfd, hd', -⟩ := hh id hid
    rw [hl, hfd]
    exact h.reported id hid (hd' ▸ hd)
  closed id hid hc := by
    rw [hm] at hid
    obtain ⟨-, hd, hc'⟩ := hh id hid
    rw [hd]
    exact (hc' hc).elim (h.closed id hid) fun hd => hd

theorem Linked.note (h : s.Linked) (os : List (Occasion Fd)) : (s.note os).Linked :=
  h.congr rfl (Nat.le_refl _) (fun _ => rfl) fun _ _ => ⟨rfl, rfl, rfl, rfl⟩

theorem Logged.note (h : s.Logged) (os : List (Occasion Fd)) : (s.note os).Logged :=
  h.congr (Nat.le_refl _) (fun _ => rfl) (fun _ => .refl _) (fun _ _ => id) fun _ _ => rfl

theorem Kept.note (h : s.Kept k) (os : List (Occasion Fd)) : (s.note os).Kept k :=
  h.congr rfl rfl rfl fun _ _ => ⟨rfl, rfl, .inl⟩

/-! ## Arming -/

variable {accepts : Fd → Bool}

theorem arm_eq_or (s : System S F Fd) (accepts : Fd → Bool) (id : Nat) : s.arm accepts id = s ∨
    (s.heap id).armed = false ∧ (s.heap id).dead = false ∧ s.arm accepts id = { s with
      waiters := id :: s.waiters
      heap := Function.update s.heap id
        { s.heap id with armed := true, arming := (s.heap id).arming + 1, since := [] } } := by
  by_cases h : ((s.heap id).armed || (s.heap id).dead) = true
  · exact .inl (if_pos h)
  · have hfree := h
    rw [Bool.or_eq_true, not_or, Bool.not_eq_true, Bool.not_eq_true] at hfree
    by_cases ha : accepts (s.heap id).fd = true
    · exact .inr ⟨hfree.1, hfree.2, (if_neg h).trans (if_pos ha)⟩
    · exact .inl ((if_neg h).trans (if_neg ha))

theorem arm_sets (s : System S F Fd) (accepts : Fd → Bool) (id : Nat) :
    (s.arm accepts id).sets = s.sets := by
  rcases arm_eq_or s accepts id with e | ⟨-, -, e⟩ <;> rw [e]

theorem arm_next : (s.arm accepts id).next = s.next := by
  rcases arm_eq_or s accepts id with e | ⟨-, -, e⟩ <;> rw [e]

theorem arm_heap_of_ne (h : j ≠ id) : (s.arm accepts id).heap j = s.heap j := by
  rcases arm_eq_or s accepts id with e | ⟨-, -, e⟩ <;> rw [e]
  exact Function.update_of_ne h ..

theorem arm_heap (s : System S F Fd) (accepts : Fd → Bool) (id j : Nat) :
    ((s.arm accepts id).heap j).fd = (s.heap j).fd ∧
    ((s.arm accepts id).heap j).set = (s.heap j).set ∧
    ((s.arm accepts id).heap j).dead = (s.heap j).dead ∧
    ((s.arm accepts id).heap j).closed = (s.heap j).closed := by
  by_cases h : j = id
  · subst h
    rcases arm_eq_or s accepts j with e | ⟨-, -, e⟩ <;> rw [e]
    · exact ⟨rfl, rfl, rfl, rfl⟩
    · simp
  · rw [arm_heap_of_ne h]
    exact ⟨rfl, rfl, rfl, rfl⟩

theorem arm_armed (hd : (s.heap id).dead = false) (ha : accepts (s.heap id).fd) :
    ((s.arm accepts id).heap id).armed := by
  unfold arm
  by_cases h : (s.heap id).armed
  · simp [h]
  · simp [h, hd, ha]

theorem arm_armed_of (h : (s.heap j).armed) : ((s.arm accepts id).heap j).armed := by
  by_cases hj : j = id
  · subst hj
    rcases arm_eq_or s accepts j with e | ⟨ha, -, -⟩
    · rwa [e]
    · rw [ha] at h
      cases h
  · rwa [arm_heap_of_ne hj]

theorem Linked.arm (h : s.Linked) (accepts : Fd → Bool) (hid : id ∈ (s.sets k).members) :
    (s.arm accepts id).Linked := by
  obtain ⟨hk, -⟩ := h.owner k id hid
  rcases arm_eq_or s accepts id with e | ⟨ha, hd, e⟩
  · rw [e]
    exact h
  have hheap := arm_heap s accepts id
  have hsets := arm_sets s accepts id
  refine ⟨fun j => ?_, ?_, fun k' j hj => ?_, fun k' => ?_, fun k' j hj hja => ?_,
    fun k' i hi j hj hdi hdj hfd => ?_⟩
  · rw [hsets, (hheap j).2.1]
    by_cases hj : j = id
    · subst hj
      rw [e]
      simpa [hk] using hid
    · rw [arm_heap_of_ne hj, ← h.listed j, e]
      simp [hj]
  · rw [e]
    exact List.nodup_cons.mpr ⟨h.not_listed ha, h.nodup⟩
  · rw [hsets] at hj
    rw [(hheap j).2.1, arm_next]
    exact h.owner k' j hj
  · rw [hsets]
    exact h.members k'
  · rw [hsets] at hj
    rw [(hheap j).2.2.1]
    by_cases hjid : j = id
    · rw [hjid, hd]
    · rw [arm_heap_of_ne hjid] at hja
      exact h.dead k' j hj hja
  · rw [hsets] at hi hj
    rw [(hheap i).2.2.1] at hdi
    rw [(hheap j).2.2.1] at hdj
    rw [(hheap i).1, (hheap j).1] at hfd
    exact h.live k' i hi j hj hdi hdj hfd

theorem Logged.arm (h : s.Logged) : (s.arm accepts id).Logged := by
  rcases arm_eq_or s accepts id with e | ⟨-, -, e⟩
  · rw [e]
    exact h
  have hsets := arm_sets s accepts id
  refine ⟨fun k => ?_, fun k r hr => ?_, fun k r hr => ?_, fun k => ?_, fun k r hr => ?_⟩
  · rw [hsets]
    exact h.sub k
  · rw [hsets] at hr
    rw [arm_next]
    exact h.fresh k r hr
  · rw [hsets] at hr
    exact h.caused k r hr
  · rw [hsets]
    exact h.once k
  · rw [hsets] at hr
    obtain ⟨h1, h2⟩ := h.arming k r hr
    by_cases hj : r.cause.member = id
    · rw [e]
      subst hj
      simp only [Function.update_self]
      exact ⟨Nat.le_succ_of_le h1, fun e => absurd e (by omega)⟩
    · rw [arm_heap_of_ne hj]
      exact ⟨h1, h2⟩

theorem Kept.arm (h : s.Kept k) : (s.arm accepts id).Kept k := by
  have hsets := arm_sets s accepts id
  refine h.congr (by rw [hsets]) (by rw [hsets]) (by rw [hsets]) fun j _ => ?_
  obtain ⟨h1, -, h2, h3⟩ := arm_heap s accepts id j
  exact ⟨h1, h2, fun hc => .inl (h3 ▸ hc)⟩

/-! ## Firing -/

variable [DecidableEq S] {kill : Bool} {o : Occasion Fd} {mask : Interest}

/-- The record that is made of a member. -/
def recordOf (s : System S F Fd) (o : Occasion Fd) (mask : Interest) (id : Nat) : Record Fd :=
  ⟨(s.heap id).fd, reported (s.heap id).events mask,
    ⟨id, (s.heap id).arming, (s.heap id).events, o, (s.heap id).since⟩⟩

theorem fire_heap_self : (s.fire kill o mask id).heap id =
    { s.heap id with armed := false, dead := (s.heap id).dead || kill } :=
  Function.update_self ..

theorem fire_heap_of_ne (h : j ≠ id) : (s.fire kill o mask id).heap j = s.heap j :=
  Function.update_of_ne h ..

theorem fire_sets_self : (s.fire kill o mask id).sets (s.heap id).set =
    (s.sets (s.heap id).set).push (s.recordOf o mask id) :=
  Function.update_self ..

theorem fire_sets_of_ne (h : k ≠ (s.heap id).set) : (s.fire kill o mask id).sets k = s.sets k :=
  Function.update_of_ne h ..

theorem fire_members (s : System S F Fd) (kill : Bool) (o : Occasion Fd) (mask : Interest)
    (id : Nat) (k : S) :
    ((s.fire kill o mask id).sets k).members = (s.sets k).members := by
  by_cases h : k = (s.heap id).set
  · subst h
    rw [fire_sets_self, IoSet.push_members]
  · rw [fire_sets_of_ne h]

theorem fire_heap (s : System S F Fd) (kill : Bool) (o : Occasion Fd) (mask : Interest) (id : Nat)
    (j : Nat) : ((s.fire kill o mask id).heap j).fd = (s.heap j).fd ∧
    ((s.fire kill o mask id).heap j).set = (s.heap j).set ∧
    ((s.fire kill o mask id).heap j).arming = (s.heap j).arming ∧
    ((s.fire kill o mask id).heap j).closed = (s.heap j).closed := by
  by_cases h : j = id
  · rw [h, fire_heap_self]
    exact ⟨rfl, rfl, rfl, rfl⟩
  · rw [fire_heap_of_ne h]
    exact ⟨rfl, rfl, rfl, rfl⟩

theorem fire_dead (h : ((s.fire kill o mask id).heap j).dead = false) :
    (s.heap j).dead = false := by
  by_cases hj : j = id
  · subst hj
    rw [fire_heap_self, Bool.or_eq_false_iff] at h
    exact h.1
  · rwa [fire_heap_of_ne hj] at h

theorem fire_sets (s : System S F Fd) (kill : Bool) (o : Occasion Fd) (mask : Interest) (id : Nat)
    (k : S) : (s.fire kill o mask id).sets k = s.sets k ∨
    k = (s.heap id).set ∧ (s.fire kill o mask id).sets k = { s.sets k with
      ring := (s.sets k).ring ++ [s.recordOf o mask id]
      log := (s.sets k).log ++ [s.recordOf o mask id] } := by
  by_cases h : k = (s.heap id).set
  · subst h
    rw [fire_sets_self]
    exact (IoSet.push_eq_or _ _).imp_right fun e => ⟨rfl, e⟩
  · exact .inl (fire_sets_of_ne h)

theorem Linked.fire (h : s.Linked) (hid : id ∈ s.waiters) : (s.fire kill o mask id).Linked := by
  have hheap := fire_heap s kill o mask id
  have hm := fire_members s kill o mask id
  refine ⟨fun j => ?_, h.nodup.erase id, fun k j hj => ?_, fun k => ?_, fun k j hj ha => ?_,
    fun k i hi j hj hdi hdj hfd => ?_⟩
  · rw [hm, (hheap j).2.1]
    show j ∈ s.waiters.erase id ↔ _
    rw [h.nodup.mem_erase_iff, h.listed j]
    by_cases hj : j = id
    · subst hj
      rw [fire_heap_self]
      simp
    · rw [fire_heap_of_ne hj]
      exact and_iff_right hj
  · rw [hm] at hj
    rw [(hheap j).2.1]
    exact h.owner k j hj
  · rw [hm]
    exact h.members k
  · rw [hm] at hj
    by_cases hjid : j = id
    · rw [hjid, fire_heap_self] at ha
      cases ha
    · rw [fire_heap_of_ne hjid] at ha ⊢
      exact h.dead k j hj ha
  · rw [hm] at hi hj
    rw [(hheap i).1, (hheap j).1] at hfd
    exact h.live k i hi j hj (fire_dead hdi) (fire_dead hdj) hfd

theorem Logged.fire (h : s.Logged) (hs : s.Linked) (hid : id ∈ s.waiters)
    (hc : o ∈ (s.heap id).since ∧ o.Concerns (s.heap id).fd (s.heap id).events) :
    (s.fire kill o mask id).Logged := by
  obtain ⟨hmem, harmed⟩ := (hs.listed id).mp hid
  have hlt := (hs.owner _ id hmem).2
  have hheap := fire_heap s kill o mask id
  have hsets := fire_sets s kill o mask id
  have hlog {k} {r : Record Fd} (hr : r ∈ ((s.fire kill o mask id).sets k).log) :
      r ∈ (s.sets k).log ∨ r = s.recordOf o mask id := by
    rcases hsets k with e | ⟨-, e⟩ <;> rw [e] at hr
    · exact .inl hr
    · exact (List.mem_append.mp hr).imp_right List.mem_singleton.mp
  refine ⟨fun k => ?_, fun k r hr => ?_, fun k r hr => ?_, fun k => ?_, fun k r hr => ?_⟩
  · rcases hsets k with e | ⟨-, e⟩ <;> rw [e]
    · exact h.sub k
    · rw [← List.append_assoc]
      exact (h.sub k).append (.refl _)
  · rcases hlog hr with hr | rfl
    · exact h.fresh k r hr
    · exact hlt
  · rcases hlog hr with hr | rfl
    · exact h.caused k r hr
    · exact hc
  · rcases hsets k with e | ⟨-, e⟩ <;> rw [e]
    · exact h.once k
    · rw [List.map_append, List.map_singleton]
      refine List.nodup_append.mpr ⟨h.once k, List.nodup_singleton _, fun a ha b hb hab => ?_⟩
      obtain ⟨r, hr, rfl⟩ := List.mem_map.mp ha
      rw [List.mem_singleton.mp hb] at hab
      have hmember : r.cause.member = id := congrArg Prod.fst hab
      have harming : r.cause.arming = (s.heap id).arming := congrArg Prod.snd hab
      have := (h.arming k r hr).2 (by rw [hmember, harming])
      rw [hmember, harmed] at this
      cases this
  · rw [(hheap _).2.2.1]
    have hself : ((s.fire kill o mask id).heap id).armed = false := by rw [fire_heap_self]
    rcases hlog hr with hr | rfl
    · obtain ⟨h1, h2⟩ := h.arming k r hr
      refine ⟨h1, fun e => ?_⟩
      by_cases hj : r.cause.member = id
      · rw [hj, hself]
      · rw [fire_heap_of_ne hj]
        exact h2 e
    · exact ⟨Nat.le_refl _, fun _ => hself⟩

/-- A member of a closing descriptor is reported if there is room in the ring. -/
theorem Kept.fire (h : s.Kept k) (hs : s.Linked) (hid : id ∈ s.waiters)
    (hroom : kill → (s.heap id).set = k →
      (s.sets k).ring.length < ringSize ∧ o = .closed (s.heap id).fd) :
    (s.fire kill o mask id).Kept k := by
  obtain ⟨hmem, harmed⟩ := (hs.listed id).mp hid
  have hheap := fire_heap s kill o mask id
  have hsets := fire_sets s kill o mask id
  refine ⟨?_, fun j hj hd => ?_, fun j hj hc => ?_⟩
  · unfold recordsOf
    rcases hsets k with e | ⟨-, e⟩ <;> rw [e]
    · exact h.order
    · have := h.order
      unfold recordsOf at this
      simp only [List.filter_append, ← List.append_assoc] at this ⊢
      rw [this]
  · rw [fire_members] at hj
    rw [(hheap j).1]
    have hold (hd : (s.heap j).dead) : ∃ r ∈ ((s.fire kill o mask id).sets k).log,
        r.cause.member = j ∧ r.cause.occasion = .closed (s.heap j).fd := by
      obtain ⟨r, hr, hrj⟩ := h.reported j hj hd
      refine ⟨r, ?_, hrj⟩
      rcases hsets k with e | ⟨-, e⟩ <;> rw [e]
      · exact hr
      · exact List.mem_append_left _ hr
    by_cases hjid : j = id
    · subst hjid
      rw [fire_heap_self, Bool.or_eq_true] at hd
      rcases hd with hd | hkill
      · exact hold hd
      · have hk := (hs.owner k j hj).1
        obtain ⟨hlt, ho⟩ := hroom hkill hk
        subst hk
        refine ⟨s.recordOf o mask j, ?_, rfl, ho⟩
        rw [fire_sets_self, IoSet.push_of_lt hlt]
        exact List.mem_append_right _ (List.mem_singleton_self _)
    · rw [fire_heap_of_ne hjid] at hd
      exact hold hd
  · rw [fire_members] at hj
    rw [(hheap j).2.2.2] at hc
    have hd := h.closed j hj hc
    by_cases hjid : j = id
    · rw [hjid, fire_heap_self, ← hjid, hd]
      rfl
    · rwa [fire_heap_of_ne hjid]

theorem fireAll_members (ids : List Nat) (k : S) :
    ((ids.foldl (fire kill o mask) s).sets k).members = (s.sets k).members := by
  induction ids generalizing s with
  | nil => rfl
  | cons id ids ih => exact ih.trans (fire_members s kill o mask id k)

theorem fireAll_waiters {ids : List Nat} (h : j ∈ (ids.foldl (fire kill o mask) s).waiters) :
    j ∈ s.waiters := by
  induction ids generalizing s with
  | nil => exact h
  | cons id ids ih => exact List.mem_of_mem_erase (ih h)

theorem fireAll_sets_of_ne {ids : List Nat} (h : ∀ j ∈ ids, (s.heap j).set ≠ k) :
    (ids.foldl (fire kill o mask) s).sets k = s.sets k := by
  induction ids generalizing s with
  | nil => rfl
  | cons id ids ih =>
    obtain ⟨hid, hids⟩ := List.forall_mem_cons.mp h
    refine (ih fun j hj => ?_).trans (fire_sets_of_ne hid.symm)
    rw [(fire_heap s kill o mask id j).2.1]
    exact hids j hj

theorem fireAll_heap {ids : List Nat} (kill : Bool) (o : Occasion Fd) (mask : Interest)
    (hn : ids.Nodup) (j : Nat) :
    (ids.foldl (fire kill o mask) s).heap j =
      if j ∈ ids then { s.heap j with armed := false, dead := (s.heap j).dead || kill }
      else s.heap j := by
  induction ids generalizing s with
  | nil => rfl
  | cons id ids ih =>
    obtain ⟨hid, hids⟩ := List.nodup_cons.mp hn
    rw [List.foldl_cons, ih hids]
    by_cases hj : j = id
    · rw [hj, if_neg hid, if_pos (List.mem_cons_self ..), fire_heap_self]
    · simp only [fire_heap_of_ne hj, List.mem_cons, hj, false_or]

theorem fireAll_sets {ids : List Nat}
    (hsets : ids.Pairwise fun i j => (s.heap i).set ≠ (s.heap j).set)
    (hid : id ∈ ids) : (ids.foldl (fire kill o mask) s).sets (s.heap id).set =
      (s.sets (s.heap id).set).push (s.recordOf o mask id) := by
  induction ids generalizing s with
  | nil => exact absurd hid List.not_mem_nil
  | cons i ids ih =>
    obtain ⟨hi, hids⟩ := List.pairwise_cons.mp hsets
    have hset (j : Nat) := (fire_heap s kill o mask i j).2.1
    rw [List.foldl_cons]
    rcases List.mem_cons.mp hid with rfl | hid
    · rw [fireAll_sets_of_ne, fire_sets_self]
      intro j hj
      rw [hset]
      exact (hi j hj).symm
    · have hne := hi id hid
      have hids' : ids.Pairwise fun a b => ((s.fire kill o mask i).heap a).set ≠
          ((s.fire kill o mask i).heap b).set := hids.imp fun hab => by rwa [hset, hset]
      have hheap : (s.fire kill o mask i).heap id = s.heap id :=
        fire_heap_of_ne fun e => hne (e ▸ rfl)
      have := ih hids' hid
      unfold recordOf at this ⊢
      rwa [hheap, fire_sets_of_ne hne.symm] at this

theorem fireAll_invariants {ids : List Nat} (kill : Bool) (o : Occasion Fd) (mask : Interest)
    (hn : ids.Nodup) (h : s.Linked) (hl : s.Logged)
    (hmem : ∀ id ∈ ids, id ∈ s.waiters) (hfd : ∀ id ∈ ids, (s.heap id).fd = fd)
    (hc : ∀ id ∈ ids, o ∈ (s.heap id).since ∧ o.Concerns fd (s.heap id).events) :
    (ids.foldl (fire kill o mask) s).Linked ∧ (ids.foldl (fire kill o mask) s).Logged ∧
      ∀ k, s.Kept k → (kill → o = .closed fd ∧
        ∀ id ∈ ids, (s.heap id).set = k → (s.sets k).ring.length < ringSize) →
        (ids.foldl (fire kill o mask) s).Kept k := by
  induction ids generalizing s with
  | nil => exact ⟨h, hl, fun _ hk _ => hk⟩
  | cons id ids ih =>
    obtain ⟨hid, hids⟩ := List.nodup_cons.mp hn
    obtain ⟨hmem₁, hmem₂⟩ := List.forall_mem_cons.mp hmem
    obtain ⟨hfd₁, hfd₂⟩ := List.forall_mem_cons.mp hfd
    obtain ⟨hc₁, hc₂⟩ := List.forall_mem_cons.mp hc
    have hne {j : Nat} (hj : j ∈ ids) : j ≠ id := fun e => hid (e ▸ hj)
    have hheap {j : Nat} (hj : j ∈ ids) : (s.fire kill o mask id).heap j = s.heap j :=
      fire_heap_of_ne (hne hj)
    obtain ⟨h1, h2, h3⟩ := ih hids (h.fire hmem₁) (hl.fire h hmem₁ (hfd₁ ▸ hc₁))
      (fun j hj => (h.nodup.mem_erase_iff).mpr ⟨hne hj, hmem₂ j hj⟩)
      (fun j hj => by rw [hheap hj, hfd₂ j hj]) (fun j hj => by rw [hheap hj]; exact hc₂ j hj)
    refine ⟨h1, h2, fun k hk hroom => h3 k (hk.fire h hmem₁ fun hkill hset => ?_) fun hkill => ?_⟩
    · obtain ⟨ho, hr⟩ := hroom hkill
      exact ⟨hr id (List.mem_cons_self ..) hset, by rw [ho, hfd₁]⟩
    · obtain ⟨ho, hr⟩ := hroom hkill
      refine ⟨ho, fun j hj hset => ?_⟩
      rw [hheap hj] at hset
      have hset' : k ≠ (s.heap id).set := fun e =>
        hne hj (h.eq_of_set (hmem₂ j hj) hmem₁ ((hfd₂ j hj).trans hfd₁.symm) (hset.trans e))
      rw [fire_sets_of_ne hset']
      exact hr j (List.mem_cons_of_mem _ hj) hset

variable [DecidableEq Fd]

omit [DecidableEq S] in
theorem concerns_of_hits {ev : Event Fd} (h : s.hits ev id) :
    (s.heap id).fd = ev.fd ∧ (Occasion.report ev).Concerns ev.fd (s.heap id).events := by
  unfold hits at h
  rw [Bool.and_eq_true, decide_eq_true_eq] at h
  refine ⟨h.1, rfl, ?_⟩
  have hev := h.2
  simp only [Interest.meets, Event.firedMask, Bool.or_eq_true, Bool.and_eq_true] at hev
  grind

theorem reactorEvent_heap (h : s.Linked) (ev : Event Fd) (id : Nat) :
    ((s.reactorEvent ev).heap id).fd = (s.heap id).fd ∧
    ((s.reactorEvent ev).heap id).events = (s.heap id).events ∧
    ((s.reactorEvent ev).heap id).since = (s.heap id).since := by
  unfold reactorEvent
  rw [fireAll_heap _ _ _ (h.nodup.filter _)]
  split <;> exact ⟨rfl, rfl, rfl⟩

theorem reactorEvent_invariants (h : s.Linked) (hl : s.Logged) {ev : Event Fd}
    (hfresh : ∀ id ∈ s.waiters, s.hits ev id → .report ev ∈ (s.heap id).since) :
    (s.reactorEvent ev).Linked ∧ (s.reactorEvent ev).Logged ∧
      ∀ k, s.Kept k → (s.reactorEvent ev).Kept k := by
  have hids {id : Nat} (hid : id ∈ s.waiters.filter (s.hits ev)) := List.mem_filter.mp hid
  obtain ⟨h1, h2, h3⟩ := fireAll_invariants false (.report ev) ev.firedMask (h.nodup.filter _) h hl
    (fun id hid => (hids hid).1) (fun id hid => (concerns_of_hits (hids hid).2).1)
    fun id hid => ⟨hfresh id (hids hid).1 (hids hid).2, (concerns_of_hits (hids hid).2).2⟩
  exact ⟨h1, h2, fun k hk => h3 k hk fun e => by cases e⟩

theorem reactorEvents_invariants {evs : List (Event Fd)} (h : s.Linked) (hl : s.Logged)
    (hfresh : ∀ ev ∈ evs, ∀ id ∈ s.waiters, s.hits ev id → .report ev ∈ (s.heap id).since) :
    (evs.foldl reactorEvent s).Linked ∧ (evs.foldl reactorEvent s).Logged ∧
      ∀ k, s.Kept k → (evs.foldl reactorEvent s).Kept k := by
  induction evs generalizing s with
  | nil => exact ⟨h, hl, fun _ hk => hk⟩
  | cons ev evs ih =>
    obtain ⟨h1, h2, h3⟩ := reactorEvent_invariants h hl (hfresh ev List.mem_cons_self)
    have hfresh' : ∀ ev' ∈ evs, ∀ id ∈ (s.reactorEvent ev).waiters,
        (s.reactorEvent ev).hits ev' id →
        .report ev' ∈ ((s.reactorEvent ev).heap id).since := fun ev' hev id hid hhit => by
      obtain ⟨hfd, hevents, hsince⟩ := reactorEvent_heap h ev id
      unfold hits at hhit
      rw [hfd, hevents] at hhit
      rw [hsince]
      exact hfresh ev' (List.mem_cons_of_mem _ hev) id (fireAll_waiters hid) hhit
    obtain ⟨h1', h2', h3'⟩ := ih h1 h2 hfresh'
    exact ⟨h1', h2', fun k hk => h3' k (h3 k hk)⟩

theorem reactorRound_invariants (h : s.Linked) (hl : s.Logged)
    (hfresh : ∀ ev ∈ s.batch, ∀ id ∈ s.waiters, s.hits ev id → .report ev ∈ (s.heap id).since) :
    s.reactorRound.Linked ∧ s.reactorRound.Logged ∧ ∀ k, s.Kept k → s.reactorRound.Kept k := by
  obtain ⟨h1, h2, h3⟩ := reactorEvents_invariants h hl hfresh
  exact ⟨{ h1 with }, { h2 with }, fun k hk => { h3 k hk with }⟩

/-- The closing of a descriptor, whose members that are not dead are armed and have room. -/
theorem closeFd_invariants (h : s.Linked) (hl : s.Logged) (fd : Fd) :
    (s.closeFd fd).Linked ∧ (s.closeFd fd).Logged ∧
      (s.Guard (.close fd) → ∀ k, s.Kept k → (s.closeFd fd).Kept k) := by
  have hids {id : Nat} (hid : id ∈ s.waiters.filter fun id => (s.heap id).fd = fd) :
      id ∈ s.waiters ∧ (s.heap id).fd = fd := by
    obtain ⟨h1, h2⟩ := List.mem_filter.mp hid
    exact ⟨h1, of_decide_eq_true h2⟩
  have hn := h.nodup.filter fun id => decide ((s.heap id).fd = fd)
  obtain ⟨h1, h2, h3⟩ := fireAll_invariants true (.closed fd) ⟨true, true⟩ hn (h.note [.closed fd])
    (hl.note [.closed fd]) (fun id hid => (hids hid).1) (fun id hid => (hids hid).2)
    fun _ _ => ⟨List.mem_cons_self, rfl⟩
  refine ⟨h1.congr rfl (Nat.le_refl _) (fun _ => rfl) fun _ _ => ⟨rfl, rfl, rfl, rfl⟩,
    h2.congr (Nat.le_refl _) (fun _ => rfl) (fun _ => .refl _) (fun _ _ => id) fun _ _ => rfl,
    fun hguard k hk => ?_⟩
  have hk' := h3 k (hk.note _) fun _ => ⟨rfl, fun id hid hset => ?_⟩
  · refine hk'.congr rfl rfl rfl fun id hid => ⟨rfl, rfl, fun hc => ?_⟩
    have hc' := (Bool.or_eq_true _ _).mp hc
    refine hc'.imp_right fun hfd => ?_
    have hfd' := of_decide_eq_true hfd
    have hheap := fireAll_heap (s := s.note [.closed fd]) true (.closed fd) ⟨true, true⟩ hn id
    rw [fireAll_members] at hid
    rw [hheap] at hfd' ⊢
    split
    · exact Bool.or_true _
    · next hno =>
      rw [if_neg hno] at hfd'
      refine Bool.not_eq_false _ ▸ fun hd => hno ?_
      have hid' := (h.owner k id hid).1 ▸ hid
      have harmed := (hguard k id hid hfd' hd).1
      exact List.mem_filter.mpr ⟨(h.listed id).mpr ⟨hid', harmed⟩, decide_eq_true hfd'⟩
  · obtain ⟨hmem, hfd⟩ := hids hid
    obtain ⟨hreg, harmed⟩ := (h.listed id).mp hmem
    have hd := h.dead _ id hreg harmed
    have hset' : (s.heap id).set = k := hset
    rw [hset'] at hreg
    exact (hguard k id hreg hfd hd).2

/-! ## Adding, dropping and waiting -/

omit [DecidableEq S] [DecidableEq Fd] in
theorem armIds_invariants {ids : List Nat} (accepts : Fd → Bool) (h : s.Linked) (hl : s.Logged)
    (hids : ∀ id ∈ ids, id ∈ (s.sets k).members) :
    (ids.foldl (arm accepts) s).Linked ∧ (ids.foldl (arm accepts) s).Logged ∧
      (ids.foldl (arm accepts) s).sets = s.sets ∧
      ∀ k, s.Kept k → (ids.foldl (arm accepts) s).Kept k := by
  induction ids generalizing s with
  | nil => exact ⟨h, hl, rfl, fun _ hk => hk⟩
  | cons id ids ih =>
    obtain ⟨hid, hids⟩ := List.forall_mem_cons.mp hids
    obtain ⟨h1, h2, h3, h4⟩ := ih (h.arm accepts hid) hl.arm
      (fun j hj => by rw [arm_sets]; exact hids j hj)
    exact ⟨h1, h2, h3.trans (arm_sets ..), fun k hk => h4 k hk.arm⟩

omit [DecidableEq S] [DecidableEq Fd] in
theorem armIds_armed {ids : List Nat} (hid : id ∈ ids ∨ (s.heap id).armed)
    (hd : (s.heap id).dead = false) (ha : accepts (s.heap id).fd) :
    ((ids.foldl (arm accepts) s).heap id).armed := by
  induction ids generalizing s with
  | nil => exact hid.resolve_left List.not_mem_nil
  | cons j ids ih =>
    obtain ⟨hfd, -, hdead, -⟩ := arm_heap s accepts j id
    refine ih ?_ (hdead.trans hd) (hfd ▸ ha)
    rcases hid with hid | harm
    · rcases List.mem_cons.mp hid with rfl | hid
      · exact .inr (arm_armed hd ha)
      · exact .inl hid
    · exact .inr (arm_armed_of harm)

omit [DecidableEq Fd] in
theorem link_invariants (h : s.Linked) (hl : s.Logged) (k : S) (fd : Fd) (events : Interest)
    (hnew : ∀ j ∈ (s.sets k).members, (s.heap j).dead = false → (s.heap j).fd ≠ fd) :
    let s' : System S F Fd := { s with
      heap := Function.update s.heap s.next ⟨fd, events, k, false, false, 0, false, []⟩
      next := s.next + 1
      sets := Function.update s.sets k { s.sets k with members := s.next :: (s.sets k).members } }
    s'.Linked ∧ s'.Logged ∧ ∀ k, s.Kept k → s'.Kept k := by
  intro s'
  have hother {j} (hj : j < s.next) : s'.heap j = s.heap j :=
    Function.update_of_ne (Nat.ne_of_lt hj) ..
  have hself : s'.heap s.next = ⟨fd, events, k, false, false, 0, false, []⟩ :=
    Function.update_self ..
  have hmem {k' j} : j ∈ (s'.sets k').members ↔
      j ∈ (s.sets k').members ∨ k' = k ∧ j = s.next := by
    by_cases hk : k' = k
    · subst hk
      simp [s', or_comm]
    · simp [s', hk]
  have hlist (k') : (s'.sets k').log = (s.sets k').log ∧ (s'.sets k').ring = (s.sets k').ring ∧
      (s'.sets k').returned = (s.sets k').returned := by
    by_cases hk : k' = k
    · subst hk
      simp [s']
    · simp [s', hk]
  have hlt {k' j} (hj : j ∈ (s.sets k').members) := (h.owner k' j hj).2
  refine ⟨⟨fun j => ?_, h.nodup, fun k' j hj => ?_, fun k' => ?_, fun k' j hj ha => ?_,
    fun k' i hi j hj hdi hdj hfd => ?_⟩, ?_, fun k' hk =>
      ⟨?_, fun j hj hd => ?_, fun j hj hc => ?_⟩⟩
  · show j ∈ s.waiters ↔ _
    rw [h.listed j, hmem]
    by_cases hj : j = s.next
    · subst hj
      rw [hself]
      refine iff_of_false (fun hj => ?_) fun hj => by cases hj.2
      exact absurd (hlt hj.1) (Nat.lt_irrefl _)
    · have hheap : s'.heap j = s.heap j := Function.update_of_ne hj ..
      simp [hheap, hj]
  · rcases hmem.mp hj with hj | ⟨rfl, rfl⟩
    · obtain ⟨hset, hlt⟩ := h.owner k' j hj
      rw [hother hlt]
      exact ⟨hset, Nat.lt_succ_of_lt hlt⟩
    · rw [hself]
      exact ⟨rfl, Nat.lt_succ_self _⟩
  · by_cases hk : k' = k
    · subst hk
      simp only [s', Function.update_self]
      exact List.nodup_cons.mpr ⟨fun hmem => Nat.lt_irrefl _ (hlt hmem), h.members k'⟩
    · simp only [s', Function.update_of_ne hk]
      exact h.members k'
  · rcases hmem.mp hj with hj | ⟨rfl, rfl⟩
    · rw [hother (hlt hj)] at ha ⊢
      exact h.dead k' j hj ha
    · rw [hself]
  · rcases hmem.mp hi with hi' | ⟨hk, rfl⟩ <;> rcases hmem.mp hj with hj' | ⟨hk', rfl⟩
    · rw [hother (hlt hi')] at hdi hfd
      rw [hother (hlt hj')] at hdj hfd
      exact h.live k' i hi' j hj' hdi hdj hfd
    · rw [hother (hlt hi')] at hdi hfd
      rw [hself] at hfd
      exact absurd hfd (hnew i (hk' ▸ hi') hdi)
    · rw [hother (hlt hj')] at hdj hfd
      rw [hself] at hfd
      exact absurd hfd.symm (hnew j (hk ▸ hj') hdj)
    · rfl
  · refine hl.congr (Nat.le_succ _) (fun k' => (hlist k').1) (fun k' => ?_) (fun j hj ha => ?_)
      fun j hj => by rw [hother hj]
    · rw [(hlist k').2.1, (hlist k').2.2]
    · rwa [hother hj] at ha
  · have hold (rs : List (Record Fd)) (hrs : ∀ r ∈ rs, r.cause.member < s.next) :
        s'.recordsOf k' rs = s.recordsOf k' rs := by
      refine List.filter_congr fun r hr => decide_eq_decide.mpr ?_
      rw [hmem]
      exact or_iff_left fun e => Nat.ne_of_lt (hrs r hr) e.2
    have hfresh := hl.fresh k'
    rw [(hlist k').1, (hlist k').2.1, (hlist k').2.2, hold _ hfresh,
      hold _ fun r hr => hfresh r ((hl.sub k').subset hr)]
    exact hk.order
  · rcases hmem.mp hj with hj | ⟨rfl, rfl⟩
    · rw [hother (hlt hj)] at hd ⊢
      rw [(hlist k').1]
      exact hk.reported j hj hd
    · rw [hself] at hd
      cases hd
  · rcases hmem.mp hj with hj | ⟨rfl, rfl⟩
    · rw [hother (hlt hj)] at hc ⊢
      exact hk.closed j hj hc
    · rw [hself] at hc
      cases hc

theorem add_invariants (h : s.Linked) (hl : s.Logged) (k : S) (fd : Fd) (events : Interest)
    (accepts : Fd → Bool) : (s.add k fd events accepts).Linked ∧
      (s.add k fd events accepts).Logged ∧
        ∀ k', s.Kept k' → (s.add k fd events accepts).Kept k' := by
  unfold add
  split
  · next id hid =>
    have hmem : id ∈ (s.sets k).members := List.mem_of_find?_eq_some hid
    have hsame (j : Nat) : (Function.update s.heap id { s.heap id with events } j) =
        { s.heap j with events := if j = id then events else (s.heap j).events } := by
      by_cases hj : j = id
      · subst hj
        simp
      · simp [hj]
    have h1 : System.Linked
        { s with heap := Function.update s.heap id { s.heap id with events } } :=
      h.congr rfl (Nat.le_refl _) (fun _ => rfl) fun j _ => by simp [hsame]
    have h2 : System.Logged
        { s with heap := Function.update s.heap id { s.heap id with events } } :=
      hl.congr (Nat.le_refl _) (fun _ => rfl) (fun _ => .refl _)
        (fun j _ ha => by simpa [hsame] using ha)
        fun j _ => by simp [hsame]
    refine ⟨h1.arm _ hmem, h2.arm, fun k' hk => Kept.arm (hk.congr rfl rfl rfl fun j _ => ?_)⟩
    simp only [hsame, true_and]
    exact .inl
  · next hnone =>
    have hnew : ∀ j ∈ (s.sets k).members, (s.heap j).dead = false → (s.heap j).fd ≠ fd := by
      intro j hj hd hfd
      have := List.find?_eq_none.mp hnone j hj
      simp [hd, hfd] at this
    split
    · obtain ⟨h1, h2, h3⟩ := link_invariants h hl k fd events hnew
      refine ⟨h1.arm (k := k) _ ?_, h2.arm, fun k' hk => (h3 k' hk).arm⟩
      simp
    · have hother {j} (hj : j < s.next) :
          Function.update s.heap s.next ⟨fd, events, k, false, false, 0, false, []⟩ j = s.heap j :=
        Function.update_of_ne (Nat.ne_of_lt hj) ..
      refine ⟨h.congr rfl (Nat.le_succ _) (fun _ => rfl) fun j hj => ?_,
        hl.congr (Nat.le_succ _) (fun _ => rfl) (fun _ => .refl _) (fun j hj ha => ?_)
          fun j hj => ?_,
        fun k' hk => hk.congr rfl rfl rfl fun j hj => ?_⟩
      · simp only [hother hj, and_self]
      · simpa only [hother hj] using ha
      · simp only [hother hj]
      · simp only [hother (h.owner k' j hj).2, true_and]
        exact .inl

theorem dropMember_invariants (h : s.Linked) (hl : s.Logged) (hid : id ∈ (s.sets k).members) :
    (s.dropMember k id).Linked ∧ (s.dropMember k id).Logged ∧
      (∀ k', k' ≠ k → s.Kept k' → (s.dropMember k id).Kept k') ∧
      ((∀ r ∈ (s.sets k).ring, r.fd = (s.heap id).fd → r.cause.member = id) → s.Kept k →
        (s.dropMember k id).Kept k) := by
  have hset := (h.owner k id hid).1
  have hself : (s.dropMember k id).heap id = { s.heap id with armed := false } :=
    Function.update_self ..
  have hother {j} (hj : j ≠ id) : (s.dropMember k id).heap j = s.heap j :=
    Function.update_of_ne hj ..
  have hsets : (s.dropMember k id).sets k = { s.sets k with
      members := (s.sets k).members.erase id
      ring := (s.sets k).ring.filter fun r => r.fd ≠ (s.heap id).fd } := Function.update_self ..
  have hsets' {k'} (hk : k' ≠ k) : (s.dropMember k id).sets k' = s.sets k' :=
    Function.update_of_ne hk ..
  have hmem {k' j} : j ∈ ((s.dropMember k id).sets k').members ↔
      j ≠ id ∧ j ∈ (s.sets k').members := by
    by_cases hk : k' = k
    · subst hk
      rw [hsets]
      exact (h.members k').mem_erase_iff
    · rw [hsets' hk]
      refine ⟨fun hj => ⟨fun e => hk ?_, hj⟩, And.right⟩
      rw [← hset, ← (h.owner k' j hj).1, e]
  have hwaiters {j} : j ∈ (s.dropMember k id).waiters ↔ j ≠ id ∧ j ∈ s.waiters := by
    show j ∈ (if (s.heap id).armed then s.waiters.erase id else s.waiters) ↔ _
    split
    · exact h.nodup.mem_erase_iff
    · next ha =>
      refine ⟨fun hj => ⟨fun e => ?_, hj⟩, And.right⟩
      exact h.not_listed (eq_false_of_ne_true ha) (e ▸ hj)
  have hfields (j : Nat) : ((s.dropMember k id).heap j).fd = (s.heap j).fd ∧
      ((s.dropMember k id).heap j).set = (s.heap j).set ∧
      ((s.dropMember k id).heap j).dead = (s.heap j).dead ∧
      ((s.dropMember k id).heap j).arming = (s.heap j).arming ∧
      ((s.dropMember k id).heap j).closed = (s.heap j).closed := by
    by_cases hj : j = id
    · rw [hj, hself]
      exact ⟨rfl, rfl, rfl, rfl, rfl⟩
    · rw [hother hj]
      exact ⟨rfl, rfl, rfl, rfl, rfl⟩
  refine ⟨⟨fun j => ?_, ?_, fun k' j hj => ?_, fun k' => ?_, fun k' j hj ha => ?_,
    fun k' i hi j hj hdi hdj hfd => ?_⟩, ?_, fun k' hk hkept => ?_, fun hring hkept => ?_⟩
  · rw [hwaiters, hmem, h.listed j, (hfields j).2.1, and_assoc]
    refine and_congr_right fun hj => and_congr_right fun _ => ?_
    rw [hother hj]
  · show (if (s.heap id).armed then s.waiters.erase id else s.waiters).Nodup
    split
    · exact h.nodup.erase id
    · exact h.nodup
  · rw [(hfields j).2.1]
    exact h.owner k' j (hmem.mp hj).2
  · by_cases hk : k' = k
    · subst hk
      rw [hsets]
      exact (h.members k').erase id
    · rw [hsets' hk]
      exact h.members k'
  · obtain ⟨hj, hj'⟩ := hmem.mp hj
    rw [hother hj] at ha ⊢
    exact h.dead k' j hj' ha
  · rw [(hfields i).2.2.1] at hdi
    rw [(hfields j).2.2.1] at hdj
    rw [(hfields i).1, (hfields j).1] at hfd
    exact h.live k' i (hmem.mp hi).2 j (hmem.mp hj).2 hdi hdj hfd
  · refine hl.congr (Nat.le_refl _) (fun k' => ?_) (fun k' => ?_) (fun j _ ha => ?_)
      fun j _ => (hfields j).2.2.2.1
    · by_cases hk : k' = k
      · rw [hk, hsets]
      · rw [hsets' hk]
    · by_cases hk : k' = k
      · rw [hk, hsets]
        exact (List.Sublist.refl _).append List.filter_sublist
      · rw [hsets' hk]
    · by_cases hj : j = id
      · rw [hj, hself] at ha
        cases ha
      · rwa [hother hj] at ha
  · refine hkept.congr (by rw [hsets' hk]) (by rw [hsets' hk]) (by rw [hsets' hk]) fun j _ => ?_
    obtain ⟨h1, -, h2, -, h3⟩ := hfields j
    exact ⟨h1, h2, fun hc => .inl (h3 ▸ hc)⟩
  · have hrec (rs : List (Record Fd)) : (s.dropMember k id).recordsOf k rs =
        (s.recordsOf k rs).filter fun r => r.cause.member ≠ id := by
      unfold recordsOf
      rw [List.filter_filter]
      refine List.filter_congr fun r _ => ?_
      rw [← Bool.decide_and]
      exact decide_eq_decide.mpr hmem
    refine ⟨?_, fun j hj hd => ?_, fun j hj hc => ?_⟩
    · -- a record that is taken along is of the member
      have hpurge : (s.recordsOf k ((s.sets k).ring.filter fun r => r.fd ≠ (s.heap id).fd)).filter
          (fun r => decide (r.cause.member ≠ id)) =
          (s.recordsOf k (s.sets k).ring).filter fun r => decide (r.cause.member ≠ id) := by
        unfold recordsOf
        rw [List.filter_filter, List.filter_filter, List.filter_filter]
        refine List.filter_congr fun r hr => ?_
        have := hring r hr
        by_cases hm : r.cause.member = id
        · simp [hm]
        · have hfd : r.fd ≠ (s.heap id).fd := fun e => hm (this e)
          simp [hm, hfd]
      have happ (rs rs' : List (Record Fd)) : s.recordsOf k (rs ++ rs') =
          s.recordsOf k rs ++ s.recordsOf k rs' := List.filter_append ..
      rw [hsets, hrec, hrec, happ, List.filter_append, hpurge, ← List.filter_append, ← happ,
        hkept.order]
    · rw [(hfields j).2.2.1] at hd
      rw [(hfields j).1, hsets]
      exact hkept.reported j (hmem.mp hj).2 hd
    · rw [(hfields j).2.2.2.2] at hc
      rw [(hfields j).2.2.1]
      exact hkept.closed j (hmem.mp hj).2 hc

theorem dropMember_members (k : S) (id : Nat) :
    ((s.dropMember k id).sets k).members = (s.sets k).members.erase id := by
  simp [dropMember]

theorem dropIds_invariants {ids : List Nat} (h : s.Linked) (hl : s.Logged)
    (hids : (s.sets k).members = ids) :
    (ids.foldl (dropMember k) s).Linked ∧ (ids.foldl (dropMember k) s).Logged ∧
      (∀ k', k' ≠ k → s.Kept k' → (ids.foldl (dropMember k) s).Kept k') ∧
      ((ids.foldl (dropMember k) s).sets k).members = [] := by
  induction ids generalizing s with
  | nil => exact ⟨h, hl, fun _ _ hk => hk, hids⟩
  | cons id ids ih =>
    have hid : id ∈ (s.sets k).members := hids ▸ List.mem_cons_self ..
    obtain ⟨h1, h2, h3, -⟩ := dropMember_invariants h hl hid
    obtain ⟨h1', h2', h3', h4'⟩ := ih h1 h2 (by rw [dropMember_members, hids, List.erase_cons_head])
    exact ⟨h1', h2', fun k' hk hkept => h3' k' hk (h3 k' hk hkept), h4'⟩

omit [DecidableEq S] [DecidableEq Fd] in
theorem Kept.of_empty (h : (s.sets k).members = []) : s.Kept k where
  order := by
    unfold recordsOf
    rw [h]
    simp
  reported id hid := absurd (h ▸ hid) List.not_mem_nil
  closed id hid := absurd (h ▸ hid) List.not_mem_nil

theorem destroy_invariants (h : s.Linked) (hl : s.Logged) (k : S) :
    (s.destroy k).Linked ∧ (s.destroy k).Logged ∧ ∀ k', s.Kept k' → (s.destroy k).Kept k' := by
  obtain ⟨h1, h2, h3, h4⟩ := dropIds_invariants (k := k) h hl rfl
  refine ⟨h1, h2, fun k' hk' => ?_⟩
  by_cases hk : k' = k
  · subst hk
    exact Kept.of_empty h4
  · exact h3 k' hk hk'

theorem remove_invariants (h : s.Linked) (hl : s.Logged) (k : S) (fd : Fd) :
    (s.remove k fd).Linked ∧ (s.remove k fd).Logged ∧
      (s.Guard (.remove k fd) → ∀ k', s.Kept k' → (s.remove k fd).Kept k') := by
  unfold remove
  split
  · next id hfind =>
    have hfd : (s.heap id).fd = fd :=
      of_decide_eq_true (List.find?_some (p := fun id => decide ((s.heap id).fd = fd)) hfind)
    obtain ⟨h1, h2, h3, h4⟩ := dropMember_invariants h hl (List.mem_of_find?_eq_some hfind)
    refine ⟨h1, h2, fun hguard k' hk' => ?_⟩
    by_cases hk : k' = k
    · subst hk
      exact h4 (fun r hr e => hguard id hfind r hr (e.trans hfd)) hk'
    · exact h3 k' hk hk'
  · exact ⟨h, hl, fun _ _ hk => hk⟩

omit [DecidableEq Fd] in
theorem drain_invariants (h : s.Linked) (hl : s.Logged) (k : S) (cap : Nat) :
    (s.drain k cap).Linked ∧ (s.drain k cap).Logged ∧
      ∀ k', s.Kept k' → (s.drain k cap).Kept k' := by
  have hsets (k' : S) : ((s.drain k cap).sets k').members = (s.sets k').members ∧
      ((s.drain k cap).sets k').log = (s.sets k').log ∧
      ((s.drain k cap).sets k').returned ++ ((s.drain k cap).sets k').ring =
        (s.sets k').returned ++ (s.sets k').ring := by
    by_cases hk : k' = k
    · subst hk
      simp [drain, List.append_assoc]
    · simp [drain, hk]
  refine ⟨h.congr rfl (Nat.le_refl _) (fun k' => (hsets k').1) fun _ _ => ⟨rfl, rfl, rfl, rfl⟩,
    hl.congr (Nat.le_refl _) (fun k' => (hsets k').2.1) (fun k' => ?_) (fun _ _ h => h)
      fun _ _ => rfl,
    fun k' hk => hk.congr (hsets k').1 (hsets k').2.1 (hsets k').2.2 fun _ _ => ⟨rfl, rfl, .inl⟩⟩
  rw [(hsets k').2.2]

variable [DecidableEq F]

omit [DecidableEq Fd] in
theorem look_invariants (h : s.Linked) (hl : s.Logged) (f : F) (k : S) (cap : Nat) :
    (s.look f k cap).Linked ∧ (s.look f k cap).Logged ∧
      ∀ k', s.Kept k' → (s.look f k cap).Kept k' := by
  unfold look
  split
  · exact ⟨{ h with }, { hl with }, fun k' hk => { hk with }⟩
  · obtain ⟨h1, h2, h3⟩ := drain_invariants h hl k cap
    exact ⟨{ h1 with }, { h2 with }, fun k' hk => { h3 k' hk with }⟩

omit [DecidableEq Fd] in
theorem wait_invariants (h : s.Linked) (hl : s.Logged) (f : F) (k : S) (cap : Nat)
    (accepts : Fd → Bool) : (s.wait f k cap accepts).Linked ∧ (s.wait f k cap accepts).Logged ∧
      ∀ k', s.Kept k' → (s.wait f k cap accepts).Kept k' := by
  obtain ⟨h1, h2, -, h4⟩ := armIds_invariants (k := k) accepts h hl fun _ h => h
  obtain ⟨h1', h2', h4'⟩ := look_invariants h1 h2 f k cap
  exact ⟨h1', h2', fun k' hk => h4' k' (h4 k' hk)⟩

/-! ## Runs -/

variable {a : Action S Fd}

theorem step_invariants (h : s.Linked) (hl : s.Logged) (hguard : s.Guard a) (hs : Step s a s') :
    s'.Linked ∧ s'.Logged ∧ ∀ k, s.Kept k → s'.Kept k := by
  cases hs with
  | add k fd events accepts => exact add_invariants h hl k fd events accepts
  | remove k fd =>
    obtain ⟨h1, h2, h3⟩ := remove_invariants h hl k fd
    exact ⟨h1, h2, h3 hguard⟩
  | destroy k => exact destroy_invariants h hl k
  | wait k cap accepts => exact wait_invariants h hl _ k cap accepts
  | look => exact look_invariants h hl _ _ _
  | leave => exact ⟨{ h with }, { hl with }, fun k' hk => { hk with }⟩
  | reactorFetch evs =>
    exact ⟨{ h.note (evs.map .report) with }, { hl.note (evs.map .report) with },
      fun k' hk => { hk.note (evs.map .report) with }⟩
  | reactorRound => exact reactorRound_invariants h hl hguard
  | closeFd fd =>
    obtain ⟨h1, h2, h3⟩ := closeFd_invariants h hl fd
    exact ⟨h1, h2, h3 hguard⟩

omit [DecidableEq F] in
theorem Linked.delivered (h : s.Linked) {ev : Event Fd} (hid : id ∈ s.waiters)
    (hit : s.hits ev id) :
    (∃ r, r.cause.member = id ∧ r.fd = ev.fd ∧ r.ev = reported (s.heap id).events ev.firedMask ∧
      ((s.reactorEvent ev).sets (s.heap id).set).ring = (s.sets (s.heap id).set).ring ++ [r]) ∨
    ringSize ≤ (s.sets (s.heap id).set).ring.length ∧
      ((s.reactorEvent ev).heap id).dead = false := by
  have hids : id ∈ s.waiters.filter (s.hits ev) := List.mem_filter.mpr ⟨hid, hit⟩
  have hn := h.nodup.filter (s.hits ev)
  have hsets : (s.waiters.filter (s.hits ev)).Pairwise
      fun i j => (s.heap i).set ≠ (s.heap j).set := by
    refine hn.imp_of_mem fun {i j} hi hj hij e => hij ?_
    obtain ⟨hi, hhi⟩ := List.mem_filter.mp hi
    obtain ⟨hj, hhj⟩ := List.mem_filter.mp hj
    exact h.eq_of_set hi hj ((concerns_of_hits hhi).1.trans (concerns_of_hits hhj).1.symm) e
  obtain ⟨hreg, harmed⟩ := (h.listed id).mp hid
  by_cases hroom : (s.sets (s.heap id).set).ring.length < ringSize
  · refine .inl ⟨s.recordOf (.report ev) ev.firedMask id, rfl, (concerns_of_hits hit).1, rfl, ?_⟩
    unfold reactorEvent
    rw [fireAll_sets hsets hids, IoSet.push_of_lt hroom]
  · refine .inr ⟨Nat.le_of_not_lt hroom, ?_⟩
    unfold reactorEvent
    rw [fireAll_heap _ _ _ hn, if_pos hids, h.dead _ id hreg harmed]
    rfl

omit [DecidableEq F] in
theorem remembers_of_invariants (h : s.Linked) (hl : s.Logged) (hk : ∀ k, s.Kept k) :
    s.Remembers where
  order k := (hk k).order
  caused k r hr := hl.caused k r ((hl.sub k).subset hr)
  once k := (hl.once k).sublist ((hl.sub k).map _)
  delivered ev id hid hit := h.delivered hid hit
  rearmed k id hid accepts hd ha := armIds_armed (.inl hid) hd ha
  closed k id hid hc := by
    have hd := (hk k).closed id hid hc
    obtain ⟨r, hr, hrid, ho⟩ := (hk k).reported id hid hd
    refine ⟨hd, Bool.eq_false_iff.mpr fun ha => ?_, r, ?_, hrid, ho⟩
    · rw [h.dead k id hid ha] at hd
      cases hd
    · have hmem : r ∈ s.recordsOf k (s.sets k).log :=
        List.mem_filter.mpr ⟨hr, decide_eq_true (hrid ▸ hid)⟩
      rw [(hk k).order] at hmem
      exact (List.mem_filter.mp hmem).1

/-- In every run in which each descriptor is closed while its members that are not dead are armed
and have room in their rings, no member is removed over the record of another one of its
descriptor, and no fetched event hits a member that was armed after it, the sets forget no
member. -/
theorem forgets_no_member (heap : Nat → Member S Fd)
    (h : Steps (Steps.guarded Step Guard) (initial heap : System S F Fd) as s) : s.Remembers := by
  have hinv := h.preserves (P := fun s => s.Linked ∧ s.Logged ∧ ∀ k, s.Kept k)
    (fun s a s' hs h => ?_) ⟨initial_linked heap, initial_logged heap, fun _ => initial_kept heap⟩
  · exact remembers_of_invariants hinv.1 hinv.2.1 hinv.2.2
  · obtain ⟨h1, h2, h3⟩ := step_invariants h.1 h.2.1 hs.1 hs.2
    exact ⟨h1, h2, fun k => h3 k (h.2.2 k)⟩

/-- A member of descriptor `5` is closed while it is armed: it is reported. -/
theorem forgets_no_member_armed :
    ∃ s : System Nat Nat Nat, (s.heap 0).closed ∧ (s.heap 0).dead ∧ s.Remembers := by
  let heap : Nat → Member Nat Nat := fun _ => ⟨0, ⟨false, false⟩, 0, false, false, 0, false, []⟩
  let s₁ : System Nat Nat Nat := (initial heap).add 0 5 ⟨true, false⟩ fun _ => true
  let s₂ := s₁.closeFd 5
  have h₁ : Step (initial heap) .other s₁ := .add 0 5 ⟨true, false⟩ _ rfl
  have h₂ : Step s₁ (.close 5) s₂ := .closeFd 5
  have hg : s₁.Guard (.close 5) := by
    intro k id hid _ _
    by_cases hk : k = 0
    · subst hk
      have hid' : id ∈ [0] := hid
      rw [List.mem_singleton.mp hid']
      exact ⟨rfl, by decide⟩
    · have hnil : (s₁.sets k).members = [] := by
        show (Function.update (initial heap).sets 0 _ k).members = []
        rw [Function.update_of_ne hk]
        rfl
      rw [hnil] at hid
      exact absurd hid List.not_mem_nil
  have h : Steps (Steps.guarded Step Guard) (initial heap) [.other, .close 5] s₂ :=
    .cons ⟨trivial, h₁⟩ (.cons ⟨hg, h₂⟩ .nil)
  exact ⟨s₂, rfl, rfl, forgets_no_member heap h⟩

/-- A member of descriptor `5` has fired; the descriptor is closed before the next wait, which arms
the member again. -/
theorem forgets_fired_member : ¬∀ (heap : Nat → Member Nat Nat) (s : System Nat Nat Nat) as,
    Steps Step (initial heap) as s → s.Remembers := by
  let heap : Nat → Member Nat Nat := fun _ => ⟨0, ⟨false, false⟩, 0, false, false, 0, false, []⟩
  let s₁ : System Nat Nat Nat := (initial heap).add 0 5 ⟨true, false⟩ fun _ => true
  let s₂ := s₁.fetch [⟨5, true, false, false, false, false⟩]
  let s₃ := s₂.reactorRound
  let s₄ := s₃.closeFd 5
  let s₅ := s₄.wait 0 0 1 fun _ => true
  have h₁ : Step (initial heap) .other s₁ := .add 0 5 ⟨true, false⟩ _ rfl
  have h₂ : Step s₁ .other s₂ := .reactorFetch [⟨5, true, false, false, false, false⟩] rfl
  have h₃ : Step s₂ .round s₃ := .reactorRound
  have h₄ : Step s₃ (.close 5) s₄ := .closeFd 5
  have h₅ : Step s₄ .other s₅ := .wait 0 1 _ rfl Nat.one_pos
  intro hall
  have := (hall heap s₅ _ (.cons h₁ (.cons h₂ (.cons h₃ (.cons h₄ (.cons h₅ .nil)))))).closed 0 0
    (List.mem_cons_self ..) rfl
  exact absurd this.2.1 (by decide)

/-- The reactor fetches an event of descriptor `5`, which is closed and, under the same number,
added again before the reactor works through its batch: the new member is reported for nothing. -/
theorem reports_stale_event : ¬∀ (heap : Nat → Member Nat Nat) (s : System Nat Nat Nat) as,
    Steps Step (initial heap) as s → s.Remembers := by
  let heap : Nat → Member Nat Nat := fun _ => ⟨0, ⟨false, false⟩, 0, false, false, 0, false, []⟩
  let s₁ : System Nat Nat Nat := (initial heap).add 0 5 ⟨true, false⟩ fun _ => true
  let s₂ := s₁.fetch [⟨5, true, false, false, false, false⟩]
  let s₃ := s₂.closeFd 5
  let s₄ := s₃.add 0 5 ⟨true, false⟩ fun _ => true
  let s₅ := s₄.reactorRound
  have h₁ : Step (initial heap) .other s₁ := .add 0 5 ⟨true, false⟩ _ rfl
  have h₂ : Step s₁ .other s₂ := .reactorFetch [⟨5, true, false, false, false, false⟩] rfl
  have h₃ : Step s₂ (.close 5) s₃ := .closeFd 5
  have h₄ : Step s₃ .other s₄ := .add 0 5 ⟨true, false⟩ _ rfl
  have h₅ : Step s₄ .round s₅ := .reactorRound
  intro hall
  have hmem : true ∈ ((s₅.sets 0).returned ++ (s₅.sets 0).ring).map (·.cause.since.isEmpty) := by
    decide
  obtain ⟨r, hr, hnil⟩ := List.mem_map.mp hmem
  have hcaused := (hall heap s₅ _
    (.cons h₁ (.cons h₂ (.cons h₃ (.cons h₄ (.cons h₅ .nil)))))).caused 0 r hr
  rw [List.isEmpty_iff.mp hnil] at hcaused
  exact absurd hcaused.1 List.not_mem_nil

end System

end Cajeta.Concurrent.ReadySet
