import Cajeta.Concurrent.Scope
import Mathlib.Data.List.Nodup

/-!
# What a scope frame knows

The entries of a frame against the tasks that were registered in it: which of them still have an
entry, and what is true of the others.
-/

namespace Cajeta.Concurrent
variable {tasks tasks' : ScopeTasks} {es : List ScopeEntry}

/-- What a step leaves of a task that it does not free. -/
structure ScopeTask.Keeps (k k' : ScopeTask) : Prop where
  spawner : k'.spawner = k.spawner
  discarded : k'.discarded = k.discarded
  freed : k'.freed = k.freed
  done : k.done → k'.done
  exception : k.done → k'.exception = k.exception

theorem ScopeTask.Keeps.refl (k : ScopeTask) : k.Keeps k := ⟨rfl, rfl, rfl, id, fun _ => rfl⟩

structure ScopeTask.Sound (k : ScopeTask) : Prop where
  freed_done : k.freed ≠ 0 → k.done
  freed_once : k.freed ≤ 1
  heard : k.freed ≠ 0 → k.discarded = false → k.exception = none

theorem ScopeTask.Sound.keep (h : ScopeTask.Sound k) (hk : k.Keeps k') : k'.Sound := by
  constructor
  · intro hfreed
    rw [hk.freed] at hfreed
    exact hk.done (h.freed_done hfreed)
  · rw [hk.freed]
    exact h.freed_once
  · intro hfreed hd
    rw [hk.freed] at hfreed
    rw [hk.discarded] at hd
    rw [hk.exception (h.freed_done hfreed)]
    exact h.heard hfreed hd

theorem ScopeTasks.free_keeps (h : t ∉ ts) : (tasks t).Keeps (ScopeTasks.free tasks ts t) := by
  refine ⟨rfl, rfl, ?_, id, fun _ => rfl⟩
  show (tasks t).freed + ts.count t = _
  rw [List.count_eq_zero.mpr h, Nat.add_zero]

theorem ScopeTasks.free_mem (hts : ts.Nodup) (h : t ∈ ts) (hfreed : (tasks t).freed = 0) :
    (ScopeTasks.free tasks ts t).freed = 1 := by
  show (tasks t).freed + ts.count t = 1
  rw [hfreed, List.count_eq_one_of_mem hts h]

theorem ScopeTasks.free_sound (hts : ts.Nodup)
    (h : ∀ t ∈ ts, (tasks t).freed = 0 ∧ (tasks t).done)
    (hheard : ∀ t ∈ ts, (tasks t).discarded = false → (tasks t).exception = none)
    (hs : (tasks t).Sound) : (ScopeTasks.free tasks ts t).Sound := by
  by_cases ht : t ∈ ts
  · obtain ⟨hfreed, hdone⟩ := h t ht
    exact ⟨fun _ => hdone, Nat.le_of_eq (ScopeTasks.free_mem hts ht hfreed),
      fun _ => hheard t ht⟩
  · exact hs.keep (ScopeTasks.free_keeps ht)

def ScopeEntry.Ok (tasks : ScopeTasks) (e : ScopeEntry) : Prop :=
  e = .cleared ∨ ∃ t, e = .of t (tasks t).discarded

/-- The tasks that still have an entry, in the order of their registration. -/
def pendingOf (es : List ScopeEntry) : List TaskId := es.filterMap ScopeEntry.doneAddr

theorem ScopeEntry.finished_of : (ScopeEntry.of t owned).finished tasks =
    (owned && (tasks t).done && (tasks t).exception.isNone) := by
  cases owned <;> rfl

/-- The scope may free the task when it makes room. -/
def reapable (tasks : ScopeTasks) (t : TaskId) : Bool :=
  (tasks t).discarded && (tasks t).done && (tasks t).exception.isNone

theorem owned_eq (h : ∀ e ∈ es, e.Ok tasks) : es.filterMap ScopeEntry.ownedTask =
    (pendingOf es).filter fun t => (tasks t).discarded := by
  induction es with
  | nil => rfl
  | cons e es ih =>
    have hes := ih fun e' he' => h e' (List.mem_cons_of_mem _ he')
    rcases h e List.mem_cons_self with rfl | ⟨t, rfl⟩
    · exact hes
    · have hpending : pendingOf (.of t (tasks t).discarded :: es) = t :: pendingOf es := rfl
      rw [hpending, List.filter_cons, ← hes]
      cases (tasks t).discarded
      · rfl
      · rfl

theorem reaped_eq (h : ∀ e ∈ es, e.Ok tasks) :
    (es.filter (ScopeEntry.finished tasks)).filterMap ScopeEntry.ownedTask =
        (pendingOf es).filter (reapable tasks) ∧
      pendingOf (es.filter fun e => !e.finished tasks && !e.dead) =
        (pendingOf es).filter fun t => !reapable tasks t := by
  induction es with
  | nil => exact ⟨rfl, rfl⟩
  | cons e es ih =>
    obtain ⟨hfreed, hkept⟩ := ih fun e' he' => h e' (List.mem_cons_of_mem _ he')
    rcases h e List.mem_cons_self with rfl | ⟨t, rfl⟩
    · exact ⟨hfreed, hkept⟩
    · have hpending : pendingOf (.of t (tasks t).discarded :: es) = t :: pendingOf es := rfl
      have hfinished : (ScopeEntry.of t (tasks t).discarded).finished tasks = reapable tasks t :=
        ScopeEntry.finished_of
      rw [hpending, List.filter_cons, List.filter_cons, List.filter_cons, List.filter_cons,
        hfinished]
      cases hr : reapable tasks t
      · refine ⟨hfreed, ?_⟩
        exact congrArg (t :: ·) hkept
      · have hd : (tasks t).discarded = true := by
          rw [reapable, Bool.and_eq_true, Bool.and_eq_true] at hr
          exact hr.1.1
        refine ⟨?_, hkept⟩
        rw [hd]
        exact congrArg (t :: ·) hfreed

/-! ## Frames -/

def ScopeFrame.pending (f : ScopeFrame) : List TaskId := pendingOf f.entries

/-- What is true of a frame in the chain of `p`: the tasks with an entry are the ones that have not
been freed, and a task that has been freed holds no exception. -/
structure ScopeFrame.Sound (tasks : ScopeTasks) (p : Party) (f : ScopeFrame) : Prop where
  entries : ∀ e ∈ f.entries, e.Ok tasks
  pending_eq : f.pending = f.registered.filter fun t => (tasks t).freed = 0
  spawner : ∀ t ∈ f.registered, (tasks t).spawner = some p
  nodup : f.registered.Nodup
  quiet : ∀ t ∈ f.registered, (tasks t).freed ≠ 0 → (tasks t).exception = none

namespace ScopeFrame.Sound

theorem mem_pending (h : ScopeFrame.Sound tasks p f) :
    t ∈ f.pending ↔ t ∈ f.registered ∧ (tasks t).freed = 0 := by
  rw [h.pending_eq, List.mem_filter, decide_eq_true_eq]

theorem nodup_pending (h : ScopeFrame.Sound tasks p f) : f.pending.Nodup := by
  rw [h.pending_eq]
  exact h.nodup.filter _

theorem empty : ScopeFrame.Sound tasks p .empty where
  entries _ h := by cases h
  pending_eq := rfl
  spawner _ h := by cases h
  nodup := List.nodup_nil
  quiet _ h := by cases h

theorem keep (h : ScopeFrame.Sound tasks p f) (hs : ∀ t, (tasks t).Sound)
    (hk : ∀ t ∈ f.registered, (tasks t).Keeps (tasks' t)) : ScopeFrame.Sound tasks' p f := by
  refine ⟨fun e he => ?_, ?_, fun t ht => ?_, h.nodup, fun t ht hfreed => ?_⟩
  · rcases h.entries e he with hcleared | ⟨t, hof⟩
    · exact Or.inl hcleared
    · have ht : t ∈ f.pending := List.mem_filterMap.mpr ⟨e, he, by rw [hof]; rfl⟩
      exact Or.inr ⟨t, by rw [hof, (hk t (h.mem_pending.mp ht).1).discarded]⟩
  · rw [h.pending_eq]
    exact List.filter_congr fun t ht => by rw [(hk t ht).freed]
  · rw [(hk t ht).spawner]
    exact h.spawner t ht
  · rw [(hk t ht).freed] at hfreed
    rw [(hk t ht).exception ((hs t).freed_done hfreed)]
    exact h.quiet t ht hfreed

theorem free (h : ScopeFrame.Sound tasks p f)
    (hentries : ∀ e ∈ es, e.Ok tasks)
    (hpending : pendingOf es = f.pending.filter fun t => t ∉ ts)
    (hquiet : ∀ t ∈ f.registered, t ∈ ts → (tasks t).exception = none) :
    ScopeFrame.Sound (ScopeTasks.free tasks ts) p { f with entries := es } := by
  have hfreed : ∀ t, (ScopeTasks.free tasks ts t).freed = 0 ↔ (tasks t).freed = 0 ∧ t ∉ ts := by
    intro t
    show (tasks t).freed + ts.count t = 0 ↔ _
    rw [Nat.add_eq_zero_iff, List.count_eq_zero]
  refine ⟨hentries, ?_, h.spawner, h.nodup, fun t ht hne => ?_⟩
  · show pendingOf es = _
    rw [hpending, h.pending_eq, List.filter_filter]
    refine List.filter_congr fun t _ => ?_
    rw [← Bool.decide_and, decide_eq_decide, hfreed]
    exact And.comm
  · by_cases hts : t ∈ ts
    · exact hquiet t ht hts
    · exact h.quiet t ht fun hzero => hne ((hfreed t).mpr ⟨hzero, hts⟩)

theorem free_disjoint (h : ScopeFrame.Sound tasks p f) (hts : ∀ t ∈ f.registered, t ∉ ts) :
    ScopeFrame.Sound (ScopeTasks.free tasks ts) p f := by
  refine h.free h.entries ?_ fun t ht hmem => absurd hmem (hts t ht)
  refine (List.filter_eq_self.mpr fun t ht => ?_).symm
  exact decide_eq_true (hts t (h.mem_pending.mp ht).1)

theorem await (h : ScopeFrame.Sound tasks p f) : ScopeFrame.Sound (tasks.await u) p f := by
  refine ⟨h.entries, h.pending_eq, h.spawner, h.nodup, fun t ht hfreed => ?_⟩
  show (if t = u then none else (tasks t).exception) = none
  rw [h.quiet t ht hfreed, ite_self]

theorem grow (h : ScopeFrame.Sound tasks p f) : ScopeFrame.Sound tasks p f.grow := by
  unfold ScopeFrame.grow
  split
  · exact ⟨h.entries, h.pending_eq, h.spawner, h.nodup, h.quiet⟩
  · exact h

theorem append (h : ScopeFrame.Sound tasks p f) (ht : t ∉ f.registered)
    (hspawner : (tasks t).spawner = some p) (hfreed : (tasks t).freed = 0)
    (howned : (tasks t).discarded = owned) : ScopeFrame.Sound tasks p (f.append t owned) := by
  refine ⟨fun e he => ?_, ?_, fun u hu => ?_, ?_, fun u hu hne => ?_⟩
  · rcases List.mem_append.mp he with he | he
    · exact h.entries e he
    · exact Or.inr ⟨t, by rw [List.mem_singleton.mp he, howned]⟩
  · have hpending : (f.append t owned).pending = f.pending ++ [t] := List.filterMap_append
    have hregistered : (f.append t owned).registered = f.registered ++ [t] := rfl
    have hnew : [t].filter (fun u => (tasks u).freed = 0) = [t] := by simp [hfreed]
    rw [hpending, hregistered, List.filter_append, ← h.pending_eq, hnew]
  · rcases List.mem_append.mp hu with hu | hu
    · exact h.spawner u hu
    · rw [List.mem_singleton.mp hu]
      exact hspawner
  · exact List.nodup_append.mpr ⟨h.nodup, List.nodup_singleton t, fun u hu v hv heq =>
      ht (by rw [← List.mem_singleton.mp hv, ← heq]; exact hu)⟩
  · rcases List.mem_append.mp hu with hu | hu
    · exact h.quiet u hu hne
    · rw [List.mem_singleton.mp hu] at hne
      exact absurd hfreed hne

theorem reap_fst (h : ScopeFrame.Sound tasks p f) :
    (f.reap tasks).1 = ScopeTasks.free tasks (f.pending.filter (reapable tasks)) := by
  rw [ScopeFrame.reap, (reaped_eq h.entries).1]
  rfl

theorem mem_reaped (h : ScopeFrame.Sound tasks p f) (ht : t ∈ f.pending.filter (reapable tasks)) :
    t ∈ f.registered ∧ (tasks t).freed = 0 ∧ (tasks t).done ∧ (tasks t).exception = none := by
  obtain ⟨hpending, hreap⟩ := List.mem_filter.mp ht
  rw [reapable, Bool.and_eq_true, Bool.and_eq_true, Option.isNone_iff_eq_none] at hreap
  exact ⟨(h.mem_pending.mp hpending).1, (h.mem_pending.mp hpending).2, hreap.1.2, hreap.2⟩

theorem reap (h : ScopeFrame.Sound tasks p f) :
    ScopeFrame.Sound (f.reap tasks).1 p (f.reap tasks).2 := by
  rw [h.reap_fst]
  refine h.free (fun e he => h.entries e (List.mem_of_mem_filter he)) ?_ fun t _ ht =>
    (h.mem_reaped ht).2.2.2
  rw [(reaped_eq h.entries).2]
  refine List.filter_congr fun t ht => ?_
  simp [List.mem_filter, show t ∈ f.pending from ht]

theorem register (owned : Bool) (h : ScopeFrame.Sound tasks p f) (ht : t ∉ f.registered)
    (hspawner : (tasks t).spawner = some p) (hfreed : (tasks t).freed = 0)
    (howned : (tasks t).discarded = owned) :
    ∃ f' ts, f.register tasks t owned = (ScopeTasks.free tasks ts, f') ∧
      ScopeFrame.Sound (ScopeTasks.free tasks ts) p f' ∧ f'.registered = f.registered ++ [t] ∧
      ts.Nodup ∧ ∀ u ∈ ts, u ∈ f.registered ∧ (tasks u).freed = 0 ∧ (tasks u).done ∧
        (tasks u).exception = none := by
  unfold ScopeFrame.register
  split
  · have hnot : t ∉ f.pending.filter (reapable tasks) := fun hmem => ht (h.mem_reaped hmem).1
    have hkeeps : (tasks t).Keeps (ScopeTasks.free tasks _ t) := ScopeTasks.free_keeps hnot
    refine ⟨_, f.pending.filter (reapable tasks), by rw [← h.reap_fst], ?_, ?_,
      h.nodup_pending.filter _, fun u => h.mem_reaped⟩
    · rw [← h.reap_fst] at hkeeps ⊢
      have hregistered : (f.reap tasks).2.grow.registered = f.registered := by
        unfold ScopeFrame.grow
        split <;> rfl
      refine h.reap.grow.append (by rwa [hregistered]) ?_ ?_ ?_
      · rw [hkeeps.spawner, hspawner]
      · rw [hkeeps.freed, hfreed]
      · rw [hkeeps.discarded, howned]
    · show (f.reap tasks).2.grow.registered ++ [t] = _
      congr 1
      unfold ScopeFrame.grow
      split <;> rfl
  · have hnil : ScopeTasks.free tasks [] = tasks := rfl
    refine ⟨f.append t owned, [], by rw [hnil], ?_, rfl, List.nodup_nil, fun u hu => by cases hu⟩
    rw [hnil]
    exact h.append ht hspawner hfreed howned

theorem pendingOf_deregister (h : ∀ e ∈ es, e.Ok tasks) :
    pendingOf (es.map fun e => if e.doneAddr = some t then .cleared else e) =
      (pendingOf es).filter fun u => u ∉ [t] := by
  induction es with
  | nil => rfl
  | cons e es ih =>
    have hes := ih fun e' he' => h e' (List.mem_cons_of_mem _ he')
    rw [List.map_cons]
    rcases h e List.mem_cons_self with rfl | ⟨u, rfl⟩
    · exact hes
    · have hpending : pendingOf (.of u (tasks u).discarded :: es) = u :: pendingOf es := rfl
      have haddr : (ScopeEntry.of u (tasks u).discarded).doneAddr = some u := rfl
      rw [hpending, List.filter_cons, haddr]
      by_cases hu : u = t
      · rw [hu, if_pos rfl, if_neg (by simp), ← hes]
        rfl
      · rw [if_neg (fun heq => hu (Option.some.inj heq)), if_pos (by simpa using hu), ← hes]
        rfl

theorem deregister (h : ScopeFrame.Sound tasks p f) (hquiet : (tasks t).exception = none) :
    ScopeFrame.Sound (ScopeTasks.free tasks [t]) p (f.deregister t) := by
  refine h.free (fun e he => ?_) (pendingOf_deregister h.entries) fun u _ hu => ?_
  · obtain ⟨e', he', rfl⟩ := List.mem_map.mp he
    split
    · exact Or.inl rfl
    · exact h.entries e' he'
  · rwa [List.mem_singleton.mp hu]

theorem release_eq (h : ScopeFrame.Sound tasks p f) : f.release tasks =
    ScopeTasks.free tasks (f.pending.filter fun t => (tasks t).discarded) := by
  rw [ScopeFrame.release, owned_eq h.entries]
  rfl

end ScopeFrame.Sound

theorem findSome?_congr {xs : List α} {f g : α → Option β} (h : ∀ x ∈ xs, f x = g x) :
    xs.findSome? f = xs.findSome? g := by
  induction xs with
  | nil => rfl
  | cons x xs ih =>
    rw [List.findSome?_cons, List.findSome?_cons, h x List.mem_cons_self,
      ih fun y hy => h y (List.mem_cons_of_mem _ hy)]

/-- The first exception, in the order of registration, among those that no `await` has thrown. -/
def ScopeFrame.firstException (tasks : ScopeTasks) (f : ScopeFrame) : Option Throwable :=
  f.registered.findSome? fun t => (tasks t).exception

theorem findSome?_filter {xs : List α} {g : α → Option β} {q : α → Bool}
    (h : ∀ x ∈ xs, q x = false → g x = none) : (xs.filter q).findSome? g = xs.findSome? g := by
  induction xs with
  | nil => rfl
  | cons x xs ih =>
    have hxs := ih fun y hy => h y (List.mem_cons_of_mem _ hy)
    rw [List.filter_cons, List.findSome?_cons]
    split
    · rw [List.findSome?_cons, hxs]
    · next hq => rw [h x List.mem_cons_self (Bool.eq_false_iff.mpr hq), hxs]

theorem ScopeFrame.Sound.firstException_eq (h : ScopeFrame.Sound tasks p f) :
    f.firstException tasks = f.pending.findSome? fun t => (tasks t).exception := by
  rw [h.pending_eq]
  exact (findSome?_filter fun t ht hfreed => h.quiet t ht (by simpa using hfreed)).symm

/-- What is true of a frame once it has been left: all of its tasks have completed, and it has freed
the discarded ones. -/
structure ScopeFrame.Joined (tasks : ScopeTasks) (f : ScopeFrame) : Prop where
  completed : ∀ t ∈ f.registered, (tasks t).done
  freed : ∀ t ∈ f.registered, (tasks t).discarded → (tasks t).freed = 1

/-- The tasks of the frame are those of `p`. -/
def ScopeFrame.Of (tasks : ScopeTasks) (p : Party) (f : ScopeFrame) : Prop :=
  ∀ t ∈ f.registered, (tasks t).spawner = some p

theorem ScopeFrame.Of.keep (h : ScopeFrame.Of tasks p f)
    (hk : ∀ t ∈ f.registered, (tasks t).Keeps (tasks' t)) : ScopeFrame.Of tasks' p f := by
  intro t ht
  rw [(hk t ht).spawner]
  exact h t ht

namespace ScopeFrame.Joined

theorem keep (h : ScopeFrame.Joined tasks f)
    (hk : ∀ t ∈ f.registered, (tasks t).Keeps (tasks' t)) : ScopeFrame.Joined tasks' f := by
  refine ⟨fun t ht => (hk t ht).done (h.completed t ht), fun t ht hd => ?_⟩
  rw [(hk t ht).discarded] at hd
  rw [(hk t ht).freed]
  exact h.freed t ht hd

theorem firstException_keep (h : ScopeFrame.Joined tasks f)
    (hk : ∀ t ∈ f.registered, (tasks t).Keeps (tasks' t)) :
    f.firstException tasks' = f.firstException tasks :=
  findSome?_congr fun t ht => (hk t ht).exception (h.completed t ht)

theorem release (h : ScopeFrame.Sound tasks p f) (hs : ∀ t, (tasks t).Sound)
    (hdone : ∀ t ∈ f.pending, (tasks t).done) :
    ScopeFrame.Joined (f.release tasks) f ∧ ScopeFrame.Of (f.release tasks) p f := by
  have hcompleted : ∀ t ∈ f.registered, (tasks t).done := by
    intro t ht
    by_cases hzero : (tasks t).freed = 0
    · exact hdone t (h.mem_pending.mpr ⟨ht, hzero⟩)
    · exact (hs t).freed_done hzero
  rw [h.release_eq]
  refine ⟨⟨hcompleted, fun t ht hd => ?_⟩, h.spawner⟩
  by_cases hpending : t ∈ f.pending
  · exact ScopeTasks.free_mem (h.nodup_pending.filter _)
      (List.mem_filter.mpr ⟨hpending, hd⟩) (h.mem_pending.mp hpending).2
  · have hfreed : (tasks t).freed ≠ 0 := fun hzero => hpending (h.mem_pending.mpr ⟨ht, hzero⟩)
    have honce := (hs t).freed_once
    rw [(ScopeTasks.free_keeps fun hmem => hpending (List.mem_of_mem_filter hmem)).freed]
    omega

end ScopeFrame.Joined

end Cajeta.Concurrent
