import Cajeta.Buildtool.TaskSchedule

/-!
# When a run of tasks returns

The graph that is checked is that of `depends-on`. A `run-task` entry is another way for a task to
run itself, and the runner never asks which tasks are under way. A run in which no task is called
while it is under way returns, since calls then nest no deeper than there are tasks.
-/

namespace Cajeta.Buildtool

/-- A task was called while it was under way. -/
def Reenters (calls : List (String × List String)) : Prop := ∃ call ∈ calls, call.1 ∈ call.2

theorem Reenters.mono (h : calls <+: calls') (hr : Reenters calls) : Reenters calls' := by
  obtain ⟨call, hmem, hcall⟩ := hr
  exact ⟨call, h.subset hmem, hcall⟩

/-- The number of tasks that are not under way. -/
def idle (tasks : Tasks) (underWay : List String) : Nat :=
  (tasks.keys.filter (· ∉ underWay)).length

theorem idle_cons_lt {tasks : Tasks} (hname : name ∈ tasks.keys) (hidle : name ∉ underWay) :
    idle tasks (name :: underWay) < idle tasks underWay := by
  have hsub : (tasks.keys.filter (· ∉ name :: underWay)).Sublist
      (tasks.keys.filter (· ∉ underWay)) :=
    List.monotone_filter_right _ fun x hx => by
      simp only [List.mem_cons, not_or, decide_eq_true_iff] at hx ⊢
      exact hx.2
  refine lt_of_le_of_ne hsub.length_le fun heq => ?_
  have hmem : name ∈ tasks.keys.filter (· ∉ name :: underWay) := by
    rw [hsub.eq_of_length heq]
    exact List.mem_filter.mpr ⟨hname, decide_eq_true hidle⟩
  exact of_decide_eq_true (List.mem_filter.mp hmem).2 List.mem_cons_self

section Returns

variable {ω α β : Type}

/-- What a part of a run leaves as it was, and what it adds to. -/
structure Follows (s s' : Run ω) : Prop where
  underWay : s'.underWay = s.underWay
  calls : s.calls <+: s'.calls

theorem Follows.refl (s : Run ω) : Follows s s := ⟨rfl, List.prefix_rfl⟩

theorem Follows.trans {s s' s'' : Run ω} (h : Follows s s') (h' : Follows s' s'') :
    Follows s s'' := ⟨h'.underWay.trans h.underWay, h.calls.trans h'.calls⟩

/-- Where fewer than `n` tasks are idle, the computation runs out of fuel only after a task was
called while it was under way. -/
structure Returns (tasks : Tasks) (n : Nat) (P : Run ω → Prop) (x : RunM ω α)
    (Q : α → Run ω → Prop) : Prop where
  follows : ∀ s, Follows s (x s).state
  ends : ∀ s, idle tasks s.underWay < n → P s → match x s with
    | .ok a s' => Q a s'
    | .error e s' => e = .outOfFuel → Reenters s'.calls

variable {tasks : Tasks} {n : Nat} {P : Run ω → Prop} {Q : α → Run ω → Prop}
  {R : β → Run ω → Prop} {x : RunM ω α} {k : α → RunM ω β}

theorem Returns.bind (hx : Returns tasks n P x Q) (hk : ∀ a, Returns tasks n (Q a) (k a) R) :
    Returns tasks n P (x >>= k) R where
  follows s := by
    have h := hx.follows s
    cases hrun : x s with
    | ok a s' =>
      rw [hrun] at h
      rw [EStateM.bind_of_ok hrun]
      exact h.trans ((hk a).follows s')
    | error e s' =>
      rw [hrun] at h
      rw [EStateM.bind_of_error hrun]
      exact h
  ends s hidle hs := by
    have hfollows := hx.follows s
    have h := hx.ends s hidle hs
    cases hrun : x s with
    | ok a s' =>
      rw [hrun] at h hfollows
      rw [EStateM.bind_of_ok hrun]
      have hunder : s'.underWay = s.underWay := hfollows.underWay
      exact (hk a).ends s' (hunder ▸ hidle) h
    | error e s' =>
      rw [hrun] at h
      rw [EStateM.bind_of_error hrun]
      exact h

theorem Returns.pure {a : α} (h : ∀ s, P s → Q a s) :
    Returns tasks n P (Pure.pure a : RunM ω α) Q where
  follows s := .refl s
  ends s _ hs := h s hs

theorem Returns.throw {e : Failure} (h : ∀ s, P s → e = .outOfFuel → Reenters s.calls) :
    Returns tasks n P (MonadExcept.throw e : RunM ω α) Q where
  follows s := .refl s
  ends s _ hs := h s hs

theorem Returns.failed (text : String) :
    Returns tasks n P (MonadExcept.throw (Failure.failed text) : RunM ω α) Q :=
  Returns.throw (e := .failed text) fun _ _ h => by cases h

theorem returns_get : Returns tasks n P (get : RunM ω (Run ω)) fun _ => P where
  follows s := .refl s
  ends _ _ hs := hs

theorem returns_check {x : Except String α} :
    Returns tasks n P (RunM.check x : RunM ω α) fun _ => P where
  follows s := by cases x <;> exact .refl s
  ends s _ hs := by
    cases x with
    | ok a => exact hs
    | error e => exact fun h => by cases h

theorem returns_setContext (f : TaskContext → TaskContext) :
    Returns tasks n P (RunM.setContext f : RunM ω Unit) fun _ _ => True where
  follows _ := ⟨rfl, List.prefix_rfl⟩
  ends _ _ _ := trivial

end Returns

/-! ## Entries -/

section Entries

variable {ω : Type} {platform : Platform ω} {tasks : Tasks} {n : Nat}

/-- If a part of the run ran out of fuel, a task was called while it was under way. -/
def Accounted (r : Option Failure × TaskContext) (s : Run ω) : Prop :=
  r.1 = some .outOfFuel → Reenters s.calls

theorem returns_inside {P : Run ω → Prop} {x : RunM ω Unit}
    (hx : Returns tasks n (fun _ => True) x fun _ _ => True) (ctx : TaskContext) :
    Returns tasks n P (RunM.inside ctx x) Accounted where
  follows s := by
    have h := hx.follows { s with ctx }
    unfold RunM.inside
    cases hrun : x { s with ctx } <;> (rw [hrun] at h; exact ⟨h.underWay, h.calls⟩)
  ends s hidle _ := by
    have h := hx.ends { s with ctx } hidle trivial
    unfold RunM.inside
    cases hrun : x { s with ctx } with
    | ok a s' => exact fun h => by cases h
    | error e s' =>
      rw [hrun] at h
      exact fun heq => h (Option.some.inj heq)

theorem returns_runOneInvocation (inv : ActionInvocation) (breadcrumb : String) :
    Returns tasks n (fun _ => True) (runOneInvocation platform inv breadcrumb) fun _ _ => True := by
  refine .bind returns_get fun s => .bind returns_check fun skip => ?_
  split
  · exact .pure fun _ _ => trivial
  split
  · exact .failed _
  · next action _ =>
    refine .bind returns_check fun resolved => .bind (Q := fun _ _ => True)
      ⟨fun _ => ⟨rfl, List.prefix_rfl⟩, fun _ _ _ => trivial⟩ fun result => ?_
    split
    · exact .failed _
    · exact returns_setContext _

theorem returns_joinChildren (results : List (Option Failure × TaskContext)) :
    Returns tasks n (fun s => ∀ r ∈ results, Accounted r s) (joinChildren results : RunM ω Unit)
      fun _ _ => True := by
  unfold joinChildren
  split
  · next hany =>
    obtain ⟨r, hr, heq⟩ := List.any_eq_true.mp hany
    exact .throw fun s hs _ => hs r hr (of_decide_eq_true heq)
  · refine .bind (returns_setContext _) fun _ => ?_
    split
    · exact .pure fun _ _ => trivial
    · exact .failed _

section Calling

variable {callTask : RunTaskCall → String → RunM ω Unit}

mutual

theorem returns_runEntry (hcall : ∀ call breadcrumb, Returns tasks n (fun _ => True)
      (callTask call breadcrumb) fun _ _ => True) (breadcrumb : String) : ∀ e : ActionEntry,
    Returns tasks n (fun _ => True) (runEntry platform callTask breadcrumb e) fun _ _ => True
  | .invocation inv => returns_runOneInvocation inv breadcrumb
  | .parallel children => by
    unfold runEntry
    split
    · exact .pure fun _ _ => trivial
    · exact .bind returns_get fun s =>
        .bind (returns_runChildren hcall s.ctx breadcrumb children 0) returns_joinChildren
  | .runTask call => hcall call breadcrumb

theorem returns_runChildren (hcall : ∀ call breadcrumb, Returns tasks n (fun _ => True)
      (callTask call breadcrumb) fun _ _ => True) (ctx : TaskContext) (breadcrumb : String) :
    ∀ (children : List ActionEntry) (i : Nat), Returns tasks n (fun _ => True)
      (runChildren platform callTask ctx breadcrumb i children) fun rs s => ∀ r ∈ rs, Accounted r s
  | [], _ => .pure (by simp)
  | e :: children, i => by
    unfold runChildren
    refine .bind (returns_inside (returns_runEntry hcall _ e) _) fun r =>
      .bind (Q := fun rs s => Accounted r s ∧ ∀ r' ∈ rs, Accounted r' s) ?_ fun rs =>
      .pure fun s hs => List.forall_mem_cons.mpr hs
    have h := returns_runChildren hcall ctx breadcrumb children (i + 1)
    refine ⟨h.follows, fun s hidle hr => ?_⟩
    -- what the first child's failure says of the calls goes on being true
    have hfollows := h.follows s
    have hends := h.ends s hidle trivial
    generalize runChildren platform callTask ctx breadcrumb (i + 1) children s = result
      at hfollows hends
    cases result with
    | ok rs s' => exact ⟨fun hfuel => (hr hfuel).mono hfollows.calls, hends⟩
    | error e s' => exact hends

end

theorem returns_runEntries (hcall : ∀ call breadcrumb, Returns tasks n (fun _ => True)
      (callTask call breadcrumb) fun _ _ => True) (breadcrumb : String)
    (entries : List ActionEntry) (i : Nat) :
    Returns tasks n (fun _ => True) (runEntries platform callTask breadcrumb i entries)
      fun _ _ => True := by
  induction entries generalizing i with
  | nil => exact .pure fun _ _ => trivial
  | cons e entries ih => exact .bind (returns_runEntry hcall _ e) fun _ => ih (i + 1)

end Calling

end Entries

/-! ## Calls of other tasks -/

section Calls

variable {ω : Type} {platform : Platform ω} {tasks : Tasks}

theorem calling_follows {x : RunM ω Unit} (hx : ∀ s, Follows s (x s).state) (name : String)
    (ctx : TaskContext) (s : Run ω) :
    ∃ r s', RunM.calling name ctx x s = .ok r s' ∧ s'.underWay = s.underWay ∧
      s.calls ++ [(name, s.underWay)] <+: s'.calls := by
  have h := hx { s with
    ctx, underWay := name :: s.underWay, calls := s.calls ++ [(name, s.underWay)] }
  unfold RunM.calling RunM.inside
  dsimp only
  generalize x _ = result at h
  cases result with
  | ok a s' => exact ⟨_, _, rfl, rfl, h.calls⟩
  | error e s' => exact ⟨_, _, rfl, rfl, h.calls⟩

/-- A call makes the task one that is under way, unless it is already. -/
theorem returns_calling {P : Run ω → Prop} {x : RunM ω Unit} {n : Nat} (hname : name ∈ tasks.keys)
    (hx : Returns tasks n (fun _ => True) x fun _ _ => True) (ctx : TaskContext) :
    Returns tasks (n + 1) P (RunM.calling name ctx x) Accounted where
  follows s := by
    obtain ⟨r, s', hrun, hunder, hcalls⟩ := calling_follows hx.follows name ctx s
    rw [hrun]
    exact ⟨hunder, (List.prefix_append _ _).trans hcalls⟩
  ends s hidle _ := by
    obtain ⟨r, s', hrun, -, hcalls⟩ := calling_follows hx.follows name ctx s
    by_cases hname' : name ∈ s.underWay
    · rw [hrun]
      exact fun _ => Reenters.mono hcalls
        ⟨_, List.mem_append_right _ (List.mem_singleton_self _), hname'⟩
    · have h := (returns_inside (P := fun _ => True) hx ctx).ends { s with
        underWay := name :: s.underWay, calls := s.calls ++ [(name, s.underWay)] }
        (Nat.lt_of_lt_of_le (idle_cons_lt hname hname') (Nat.lt_succ_iff.mp hidle)) trivial
      unfold RunM.calling
      generalize RunM.inside ctx x _ = result at h
      cases result with
      | ok r s' => exact h
      | error e s' => exact h

theorem returns_runOneRunTask (fuel : Nat) (call : RunTaskCall) (breadcrumb : String) :
    Returns tasks fuel (fun _ => True) (runOneRunTask platform tasks fuel call breadcrumb)
      fun _ _ => True := by
  induction fuel generalizing call breadcrumb with
  | zero => exact ⟨fun s => .refl s, fun _ hidle => absurd hidle (Nat.not_lt_zero _)⟩
  | succ fuel ih =>
    refine .bind returns_get fun s => .bind returns_check fun skip => ?_
    split
    · exact .pure fun _ _ => trivial
    split
    · exact .failed _
    · next called hcalled =>
      have hname : call.taskName ∈ tasks.keys :=
        SortedMap.isSome_find?.mp (Option.isSome_iff_exists.mpr ⟨called, hcalled⟩)
      refine .bind returns_check fun cli => .bind returns_check fun childCtx =>
        .bind returns_check fun _ =>
        .bind (returns_calling hname (returns_runEntries ih _ _ 0) childCtx) fun r => ?_
      obtain ⟨failure, childCtx⟩ := r
      cases failure with
      | some e => exact .throw fun s hs heq => hs (congrArg some heq)
      | none => exact .bind returns_check fun outputs => returns_setContext _

/-- The run ends with an answer or a refusal, or a task was called while it was under way. -/
def EndsUnlessReentered (x : SessionM ω α) : Prop := ∀ s, match x s with
  | .ok _ _ => True
  | .error e s' => e = .outOfFuel → Reenters s'.calls

theorem EndsUnlessReentered.bind {x : SessionM ω α} {k : α → SessionM ω β}
    (hx : EndsUnlessReentered x) (hk : ∀ a, EndsUnlessReentered (k a)) :
    EndsUnlessReentered (x >>= k) := by
  intro s
  have h := hx s
  cases hrun : x s with
  | ok a s' =>
    rw [EStateM.bind_of_ok hrun]
    exact hk a s'
  | error e s' =>
    rw [hrun] at h
    rw [EStateM.bind_of_error hrun]
    exact h

theorem ends_check (x : Except String α) :
    EndsUnlessReentered (SessionM.check (x.mapError .failed) : SessionM ω α) := by
  intro s
  cases x with
  | ok a => trivial
  | error e => exact fun h => by cases h

theorem ends_runInOrder {props : ResolvedProperties} {cli : SortedMap String String} {fuel : Nat}
    (hfuel : tasks.keys.length < fuel) (target name : String) (last : Outputs) :
    EndsUnlessReentered (runInOrder platform tasks target cli props fuel last name) := by
  unfold runInOrder
  split
  · exact fun s h => by cases h
  · next task htask =>
    refine .bind (fun _ => trivial) fun _ => .bind ?_ fun _ => fun _ => trivial
    refine .bind (ends_check _) fun ctx => .bind (ends_check _) fun _ =>
      .bind (fun s => ?_) fun _ => ends_check _
    have hidle : idle tasks [task.name] < fuel :=
      Nat.lt_of_le_of_lt (List.length_filter_le _ _) hfuel
    have hentries : Returns tasks fuel (fun _ => True) (runEntries platform
        (runOneRunTask platform tasks fuel) ("task '" ++ task.name ++ "'") 0 task.actions)
        fun _ _ => True := returns_runEntries (returns_runOneRunTask fuel) _ _ 0
    have h := hentries.ends
      { ctx := ctx.setCliParams (if name = target then cli else .empty), world := s.world,
        handed := s.handed, underWay := [task.name], calls := s.calls } hidle trivial
    unfold SessionM.runIn
    generalize runEntries platform (runOneRunTask platform tasks fuel)
      ("task '" ++ task.name ++ "'")
      0 task.actions _ = result at h
    cases result with
    | ok _ _ => trivial
    | error _ _ => exact h

theorem ends_foldlM {f : β → α → SessionM ω β} (xs : List α)
    (h : ∀ x ∈ xs, ∀ b, EndsUnlessReentered (f b x)) (b : β) :
    EndsUnlessReentered (xs.foldlM f b) := by
  induction xs generalizing b with
  | nil => exact fun _ => trivial
  | cons x xs ih =>
    rw [List.foldlM_cons]
    exact .bind (h x List.mem_cons_self b) fun b =>
      ih (fun y hy => h y (List.mem_cons_of_mem _ hy)) b

/-- A run of a checked graph in which no task is called while it is under way returns, whatever the
actions answer. -/
theorem runTask_returns (hvalid : validateTaskGraph tasks = .ok ()) (target : String)
    (cli : SortedMap String String) (props : ResolvedProperties) (s : Session ω)
    (hfree : ∀ fuel, ¬Reenters (runTask platform tasks target cli props fuel s).state.calls) :
    ∃ n, ∀ fuel, n ≤ fuel → ∀ s',
      runTask platform tasks target cli props fuel s ≠ .error .outOfFuel s' := by
  refine ⟨tasks.keys.length + 1, fun fuel hfuel s' hrun => ?_⟩
  have hcalls := hfree fuel
  rw [hrun] at hcalls
  refine hcalls ?_
  obtain ⟨hdefined, hacyclic⟩ := (validateTaskGraph_iff tasks).1.mp hvalid
  unfold runTask at hrun
  rw [hvalid] at hrun
  cases htask : tasks.find? target with
  | none =>
    rw [htask] at hrun
    cases hrun
  | some task =>
    have htarget : target ∈ tasks.keys :=
      SortedMap.isSome_find?.mp (Option.isSome_iff_exists.mpr ⟨task, htask⟩)
    obtain ⟨o, ho, -⟩ := exists_topoOrder hdefined hacyclic htarget
    rw [htask, ho] at hrun
    have hends := ends_foldlM (f := runInOrder platform tasks target cli props fuel) o.order
      (fun name _ last => ends_runInOrder hfuel target name last) .empty s
    have heq : o.order.foldlM (runInOrder platform tasks target cli props fuel) .empty s =
        .error .outOfFuel s' := hrun
    rw [heq] at hends
    exact hends rfl

end Calls

/-! ## A call of itself -/

/-- `app` calls `lib`. -/
def callingTasks : Tasks where
  entries := [("app", { name := "app", actions := [.runTask { taskName := "lib" }] }),
    ("lib", { name := "lib" })]
  sorted := by decide

/-- A run of `app` returns. -/
theorem calling_app_returns : validateTaskGraph callingTasks = .ok () ∧
    ∃ n, ∀ fuel, n ≤ fuel → ∀ s',
      runTask succeeding callingTasks "app" .empty {} fuel ⟨(), [], [], []⟩ ≠
        .error .outOfFuel s' := by
  refine ⟨by decide, runTask_returns (by decide) "app" .empty {} _ fun fuel => ?_⟩
  have hcalls : ∀ call ∈ (runTask succeeding callingTasks "app" .empty {} fuel
      ⟨(), [], [], []⟩).state.calls, call = ("lib", ["app"]) := by
    cases fuel with
    | zero => exact fun call h => by cases h
    | succ fuel => exact fun call h => List.mem_singleton.mp h
  rintro ⟨call, hmem, hcall⟩
  rw [hcalls call hmem] at hcall
  exact absurd hcall (by decide)

/-- `a` calls itself. -/
def loopingTasks : Tasks where
  entries := [("a", { name := "a", actions := [.runTask { taskName := "a" }] })]
  sorted := by decide

/-- The check accepts a task that calls itself, and no run of it returns. -/
theorem looping_task_accepted : validateTaskGraph loopingTasks = .ok () ∧
    ∀ fuel, ∃ s', runTask succeeding loopingTasks "a" .empty {} fuel ⟨(), [], [], []⟩ =
      .error .outOfFuel s' := by
  have hentries : ∀ fuel base (s : Run Unit), (∀ breadcrumb (s : Run Unit), ∃ s',
      runOneRunTask succeeding loopingTasks fuel { taskName := "a" } breadcrumb s =
        .error .outOfFuel s') →
      ∃ s', runEntries succeeding (runOneRunTask succeeding loopingTasks fuel) base 0
        [.runTask { taskName := "a" }] s = .error .outOfFuel s' := by
    intro fuel base s h
    obtain ⟨s', hs'⟩ := h (base ++ " actions[" ++ toString 0 ++ "]") s
    exact ⟨s', EStateM.bind_of_error hs'⟩
  have hcall : ∀ fuel breadcrumb (s : Run Unit), ∃ s',
      runOneRunTask succeeding loopingTasks fuel { taskName := "a" } breadcrumb s =
        .error .outOfFuel s' := by
    intro fuel
    induction fuel with
    | zero => exact fun _ s => ⟨s, rfl⟩
    | succ fuel ih =>
      intro breadcrumb s
      obtain ⟨s', hs'⟩ := hentries fuel ("task '" ++ "a" ++ "'") { s with
        ctx := { props := s.ctx.props }
        underWay := "a" :: s.underWay
        calls := s.calls ++ [("a", s.underWay)] } ih
      have hcalling : RunM.calling "a" { props := s.ctx.props }
          (runEntries succeeding (runOneRunTask succeeding loopingTasks fuel)
            ("task '" ++ "a" ++ "'") 0 [.runTask { taskName := "a" }]) s =
          .ok (some .outOfFuel, s'.ctx) { s' with ctx := s.ctx, underWay := s.underWay } := by
        unfold RunM.calling RunM.inside
        dsimp only
        rw [hs']
      refine ⟨{ s' with ctx := s.ctx, underWay := s.underWay }, ?_⟩
      change (RunM.calling "a" { props := s.ctx.props }
        (runEntries succeeding (runOneRunTask succeeding loopingTasks fuel)
          ("task '" ++ "a" ++ "'") 0 [.runTask { taskName := "a" }]) >>= _) s = _
      rw [EStateM.bind_of_ok hcalling]
      rfl
  refine ⟨by decide, fun fuel => ?_⟩
  obtain ⟨s', hs'⟩ := hentries fuel ("task '" ++ "a" ++ "'") 
    { ctx := { props := {} }, world := (), underWay := ["a"] } (hcall fuel)
  have hrun : SessionM.runIn "a" { props := {} } (runEntries succeeding
      (runOneRunTask succeeding loopingTasks fuel) ("task '" ++ "a" ++ "'") 0
      [.runTask { taskName := "a" }]) ⟨(), [], ["a"], []⟩ =
      .error .outOfFuel ⟨s'.world, s'.handed, ["a"], s'.calls⟩ := by
    unfold SessionM.runIn
    rw [hs']
  refine ⟨⟨s'.world, s'.handed, ["a"], s'.calls⟩, ?_⟩
  have htask : runOneTask succeeding loopingTasks {} fuel
      { name := "a", actions := [.runTask { taskName := "a" }] } .empty ⟨(), [], ["a"], []⟩ =
      .error .outOfFuel ⟨s'.world, s'.handed, ["a"], s'.calls⟩ := by
    change (SessionM.runIn "a" { props := {} } (runEntries succeeding
      (runOneRunTask succeeding loopingTasks fuel) ("task '" ++ "a" ++ "'") 0
      [.runTask { taskName := "a" }]) >>= _) ⟨(), [], ["a"], []⟩ = _
    exact EStateM.bind_of_error hrun
  have horder : runInOrder succeeding loopingTasks "a" .empty {} fuel .empty "a" ⟨(), [], [], []⟩ =
      .error .outOfFuel ⟨s'.world, s'.handed, ["a"], s'.calls⟩ := by
    change (runOneTask succeeding loopingTasks {} fuel
      { name := "a", actions := [.runTask { taskName := "a" }] } .empty >>= _)
        ⟨(), [], ["a"], []⟩ = _
    exact EStateM.bind_of_error htask
  change (["a"].foldlM (runInOrder succeeding loopingTasks "a" .empty {} fuel) .empty)
    ⟨(), [], [], []⟩ = _
  rw [List.foldlM_cons]
  exact EStateM.bind_of_error horder

end Cajeta.Buildtool
