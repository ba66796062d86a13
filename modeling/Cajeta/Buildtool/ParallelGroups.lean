import Cajeta.Buildtool.TaskTermination

/-!
# Parallel groups

Every child of a group starts from a copy of all outputs, and all of what it holds at its end is
merged back. What a child has only inherited is merged over what an earlier child has published.
-/

namespace Cajeta.Buildtool

/-! ## What a child publishes -/

/-- From the context a run started from: outputs that were not published are as they were, and
those that were are there. -/
structure OutputsFrom (before after : TaskContext) : Prop where
  kept : ∀ id, id ∉ after.published →
    after.actionOutputs.find? id = before.actionOutputs.find? id
  held : ∀ id ∈ after.published, (after.actionOutputs.find? id).isSome = true

theorem outputsFrom_snapshot (ctx : TaskContext) : OutputsFrom ctx.snapshot ctx.snapshot where
  kept _ _ := rfl
  held _ h := absurd h List.not_mem_nil

theorem OutputsFrom.publish (h : OutputsFrom before ctx) (id : String) (outputs : Outputs) :
    OutputsFrom before (ctx.publishOutputs id outputs) := by
  unfold TaskContext.publishOutputs
  split
  · exact h
  · refine ⟨fun id' hid' => ?_, fun id' hid' => ?_⟩
    · rw [List.mem_append, List.mem_singleton, not_or] at hid'
      rw [SortedMap.find?_insert, if_neg (Ne.symm hid'.2)]
      exact h.kept id' hid'.1
    · rw [SortedMap.find?_insert]
      split
      · rfl
      · next hne =>
        refine h.held id' ((List.mem_append.mp hid').resolve_right fun heq => ?_)
        exact hne (List.mem_singleton.mp heq).symm

theorem find?_mergeOutputs (ctx other : TaskContext) (id : String) :
    (ctx.mergeOutputs other).actionOutputs.find? id =
      (other.actionOutputs.find? id).or (ctx.actionOutputs.find? id) :=
  SortedMap.find?_foldl_insert_entries _ _ id

theorem OutputsFrom.merge {ctx : TaskContext} (h : OutputsFrom before ctx) {rs : List TaskContext}
    (hrs : ∀ r ∈ rs, OutputsFrom ctx.snapshot r) :
    OutputsFrom before (rs.foldl TaskContext.mergeOutputs ctx) := by
  suffices hall : ∀ ctx' : TaskContext, OutputsFrom before ctx' →
      (∀ id, id ∉ ctx'.published → ctx'.actionOutputs.find? id = ctx.actionOutputs.find? id) →
      (∀ id ∈ ctx.published, id ∈ ctx'.published) →
      OutputsFrom before (rs.foldl TaskContext.mergeOutputs ctx') from
    hall ctx h (fun _ _ => rfl) fun _ => id
  induction rs with
  | nil => exact fun ctx' h' _ _ => h'
  | cons r rs ih =>
    intro ctx' h' hsame hsub
    have hr := hrs r List.mem_cons_self
    have hkept : ∀ id, id ∉ (ctx'.mergeOutputs r).published →
        (ctx'.mergeOutputs r).actionOutputs.find? id = ctx'.actionOutputs.find? id := by
      intro id hid
      rw [show (ctx'.mergeOutputs r).published = ctx'.published ++ r.published from rfl,
        List.mem_append, not_or] at hid
      rw [find?_mergeOutputs, hr.kept id hid.2]
      change (ctx.actionOutputs.find? id).or _ = _
      rw [← hsame id hid.1]
      cases ctx'.actionOutputs.find? id <;> rfl
    refine ih (fun r' hr' => hrs r' (List.mem_cons_of_mem _ hr')) _ ⟨fun id hid => ?_,
      fun id hid => ?_⟩
      (fun id hid => ?_) fun id hid => List.mem_append_left _ (hsub id hid)
    · rw [hkept id hid]
      exact h'.kept id fun hmem => hid (List.mem_append_left _ hmem)
    · rw [find?_mergeOutputs]
      rcases List.mem_append.mp hid with hid | hid
      · have := h'.held id hid
        cases r.actionOutputs.find? id with
        | none => exact this
        | some o => rfl
      · have := hr.held id hid
        cases hr' : r.actionOutputs.find? id with
        | none =>
          rw [hr'] at this
          cases this
        | some o => rfl
    · rw [hkept id hid]
      exact hsame id fun hmem => hid (List.mem_append_left _ hmem)

section Runs

variable {ω : Type} {platform : Platform ω} {callTask : RunTaskCall → String → RunM ω Unit}

theorem leads_check {P : Run ω → Prop} {x : Except String α} :
    EStateM.Leads P (RunM.check x : RunM ω α) P := .ofResult

theorem leads_inside {P : Run ω → Prop} (hP : ∀ s s' : Run ω, s'.ctx = s.ctx → P s → P s')
    (ctx : TaskContext) (x : RunM ω Unit) : EStateM.Leads P (RunM.inside ctx x) P := by
  intro s hs
  unfold RunM.inside
  split
  · exact hP s _ rfl hs
  · exact hP s _ rfl hs

theorem leads_calling {P : Run ω → Prop} (hP : ∀ s s' : Run ω, s'.ctx = s.ctx → P s → P s')
    (name : String) (ctx : TaskContext) (x : RunM ω Unit) :
    EStateM.Leads P (RunM.calling name ctx x) P := by
  intro s hs
  have h := leads_inside hP ctx x { s with
    underWay := name :: s.underWay, calls := s.calls ++ [(name, s.underWay)] } (hP s _ rfl hs)
  unfold RunM.calling
  split
  · next r s' heq =>
    rw [heq] at h
    exact hP s' _ rfl h
  · next e s' heq =>
    rw [heq] at h
    exact hP s' _ rfl h

def GrownFrom (before : TaskContext) (s : Run ω) : Prop := OutputsFrom before s.ctx

theorem leads_publish (before : TaskContext) (id : String) (outputs : Outputs) :
    EStateM.Leads (GrownFrom before)
      (RunM.setContext (·.publishOutputs id outputs) : RunM ω Unit) (GrownFrom before) :=
  fun _ hs => hs.publish id outputs

theorem leads_runOneInvocation (before : TaskContext) (inv : ActionInvocation)
    (breadcrumb : String) :
    EStateM.Leads (GrownFrom before) (runOneInvocation platform inv breadcrumb)
      (GrownFrom before) := by
  refine .bind (fun _ => id) (fun _ => id) fun s =>
    .bind leads_check (fun _ => id) fun skip => ?_
  split
  · exact .pure
  split
  · exact fun _ => id
  · refine .bind leads_check (fun _ => id) fun resolved =>
      .bind (fun _ => id) (fun _ => id) fun result => ?_
    split
    · exact fun _ => id
    · exact leads_publish before _ _

theorem leads_runOneRunTask (tasks : Tasks) (fuel : Nat) (before : TaskContext)
    (call : RunTaskCall) (breadcrumb : String) :
    EStateM.Leads (GrownFrom before) (runOneRunTask platform tasks fuel call breadcrumb)
      (GrownFrom before) := by
  cases fuel with
  | zero => exact fun _ => id
  | succ fuel =>
    refine .bind (fun _ => id) (fun _ => id) fun s =>
      .bind leads_check (fun _ => id) fun skip => ?_
    split
    · exact .pure
    split
    · exact fun _ => id
    · refine .bind leads_check (fun _ => id) fun cli => .bind leads_check (fun _ => id) fun ctx =>
        .bind leads_check (fun _ => id) fun _ => .bind (leads_calling (fun s s' heq hs => ?_) _ _ _)
        (fun _ => id) fun r => ?_
      · change OutputsFrom before s'.ctx
        rw [heq]
        exact hs
      · obtain ⟨failure, childCtx⟩ := r
        cases failure with
        | some e => exact fun _ => id
        | none => exact .bind leads_check (fun _ => id) fun outputs => leads_publish before _ _

theorem inside_ok {x : RunM ω Unit} {before ctx : TaskContext} (hctx : OutputsFrom before ctx)
    (hx : EStateM.Leads (GrownFrom before) x (GrownFrom before)) (s : Run ω) :
    ∃ r s', RunM.inside ctx x s = .ok r s' ∧ s'.ctx = s.ctx ∧ OutputsFrom before r.2 := by
  have h := hx { s with ctx } hctx
  unfold RunM.inside
  cases hrun : x { s with ctx } with
  | ok a s' =>
    rw [hrun] at h
    exact ⟨_, _, rfl, rfl, h⟩
  | error e s' =>
    rw [hrun] at h
    exact ⟨_, _, rfl, rfl, h⟩

theorem setContext_eq (f : TaskContext → TaskContext) (s : Run ω) :
    (RunM.setContext f : RunM ω Unit) s = .ok ⟨⟩ { s with ctx := f s.ctx } := rfl

theorem leads_joinChildren (before : TaskContext) (s : Run ω) (hs : GrownFrom before s)
    {results : List (Option Failure × TaskContext)}
    (h : ∀ r ∈ results, OutputsFrom s.ctx.snapshot r.2) :
    GrownFrom before (joinChildren results s).state := by
  have hmerged : GrownFrom before
      { s with ctx := results.foldl (fun ctx r => ctx.mergeOutputs r.2) s.ctx } := by
    rw [GrownFrom, ← List.foldl_map]
    refine OutputsFrom.merge hs fun r hr => ?_
    obtain ⟨r', hr', rfl⟩ := List.mem_map.mp hr
    exact h r' hr'
  unfold joinChildren
  split
  · exact hs
  · rw [EStateM.bind_of_ok (setContext_eq _ s)]
    split
    · exact hmerged
    · exact hmerged

mutual

theorem leads_runEntry (hcall : ∀ before call breadcrumb, EStateM.Leads (GrownFrom before)
      (callTask call breadcrumb) (GrownFrom before)) (before : TaskContext) (breadcrumb : String) :
    ∀ e : ActionEntry, EStateM.Leads (GrownFrom before) (runEntry platform callTask breadcrumb e)
      (GrownFrom before)
  | .invocation inv => leads_runOneInvocation before inv breadcrumb
  | .runTask call => hcall before call breadcrumb
  | .parallel children => by
    unfold runEntry
    split
    · exact .pure
    · intro s hs
      obtain ⟨rs, s', hrun, hctx, -, hrs⟩ := runChildren_ok hcall s.ctx breadcrumb children 0 s
      have hget : (get : RunM ω (Run ω)) s = .ok s s := rfl
      rw [EStateM.bind_of_ok hget, EStateM.bind_of_ok hrun]
      refine leads_joinChildren before s' ?_ fun r hr => hctx ▸ hrs r hr
      rw [GrownFrom, hctx]
      exact hs

theorem runChildren_ok (hcall : ∀ before call breadcrumb, EStateM.Leads (GrownFrom before)
      (callTask call breadcrumb) (GrownFrom before)) (ctx : TaskContext) (breadcrumb : String) :
    ∀ (children : List ActionEntry) (i : Nat) (s : Run ω), ∃ rs s',
      runChildren platform callTask ctx breadcrumb i children s = .ok rs s' ∧ s'.ctx = s.ctx ∧
        rs.length = children.length ∧ ∀ r ∈ rs, OutputsFrom ctx.snapshot r.2
  | [], _, s => ⟨[], s, rfl, rfl, rfl, by simp⟩
  | e :: children, i, s => by
    obtain ⟨r, s₁, hr, hs₁, hgrows⟩ := inside_ok (outputsFrom_snapshot ctx)
      (leads_runEntry hcall ctx.snapshot
        (breadcrumb ++ ".parallel[" ++ toString i ++ "] actions[0]") e) s
    obtain ⟨rs, s₂, hrs, hs₂, hlength, hall⟩ :=
      runChildren_ok hcall ctx breadcrumb children (i + 1) s₁
    refine ⟨r :: rs, s₂, ?_, hs₂.trans hs₁, by simp [hlength], ?_⟩
    · unfold runChildren
      rw [EStateM.bind_of_ok hr, EStateM.bind_of_ok hrs]
      rfl
    · exact List.forall_mem_cons.mpr ⟨hgrows, hall⟩

end

end Runs

/-! ## What the join keeps -/

def lastPublisher (rs : List TaskContext) (id : String) : Option TaskContext :=
  (rs.filter fun r => id ∈ r.published).getLast?

/-- Under each id the parent holds what the last child published there, or what it held before. -/
def NoOutputLost (parent : TaskContext) (rs : List TaskContext) (after : TaskContext) : Prop :=
  ∀ id, after.actionOutputs.find? id =
    (lastPublisher rs id).elim (parent.actionOutputs.find? id) (·.actionOutputs.find? id)

/-- What a child publishes under an id that the parent holds already, the last child publishes as
well, unless it is what the parent holds. -/
def LastPublishes (parent : TaskContext) (rs : List TaskContext) : Prop :=
  ∀ id, (parent.actionOutputs.find? id).isSome = true → ∀ r, lastPublisher rs id = some r →
    (∀ z, rs.getLast? = some z → id ∈ z.published) ∨
      r.actionOutputs.find? id = parent.actionOutputs.find? id

section Join

variable {parent : TaskContext} {rs : List TaskContext}

theorem lastPublisher_concat (rs : List TaskContext) (z : TaskContext) (id : String) :
    lastPublisher (rs ++ [z]) id = if id ∈ z.published then some z else lastPublisher rs id := by
  unfold lastPublisher
  rw [List.filter_append]
  by_cases h : id ∈ z.published
  · rw [if_pos h, List.filter_cons_of_pos (by simpa using h), List.filter_nil,
      List.getLast?_concat]
  · rw [if_neg h, List.filter_cons_of_neg (by simpa using h), List.filter_nil, List.append_nil]

theorem find?_merge_of_none {id : String} (hrs : ∀ r ∈ rs, OutputsFrom parent.snapshot r)
    (hnone : parent.actionOutputs.find? id = none) :
    (rs.foldl TaskContext.mergeOutputs parent).actionOutputs.find? id =
      (lastPublisher rs id).elim (parent.actionOutputs.find? id) (·.actionOutputs.find? id) := by
  induction rs using List.reverseRecOn with
  | nil => rfl
  | append_singleton rs z ih =>
    have hz := hrs z (by simp)
    rw [List.foldl_concat, find?_mergeOutputs, lastPublisher_concat]
    by_cases hid : id ∈ z.published
    · rw [if_pos hid, Option.elim_some]
      obtain ⟨o, ho⟩ := Option.isSome_iff_exists.mp (hz.held id hid)
      rw [ho]
      rfl
    · rw [if_neg hid, hz.kept id hid, ← ih fun r hr => hrs r (List.mem_append_left _ hr)]
      change (parent.actionOutputs.find? id).or _ = _
      rw [hnone]
      rfl

theorem find?_merge_of_some {id : String} (hrs : ∀ r ∈ rs, OutputsFrom parent.snapshot r)
    (hsome : (parent.actionOutputs.find? id).isSome = true) :
    (rs.foldl TaskContext.mergeOutputs parent).actionOutputs.find? id =
      (rs.getLast?).elim (parent.actionOutputs.find? id) (·.actionOutputs.find? id) := by
  rcases List.eq_nil_or_concat rs with rfl | ⟨rs, z, rfl⟩
  · rfl
  · rw [List.concat_eq_append] at hrs ⊢
    have hz := hrs z (by simp)
    rw [List.foldl_concat, find?_mergeOutputs, List.getLast?_concat, Option.elim_some]
    by_cases hid : id ∈ z.published
    · obtain ⟨o, ho⟩ := Option.isSome_iff_exists.mp (hz.held id hid)
      rw [ho]
      rfl
    · rw [hz.kept id hid]
      obtain ⟨o, ho⟩ := Option.isSome_iff_exists.mp hsome
      change (parent.actionOutputs.find? id).or _ = parent.actionOutputs.find? id
      rw [ho]
      rfl

theorem noOutputLost_iff (hrs : ∀ r ∈ rs, OutputsFrom parent.snapshot r) :
    NoOutputLost parent rs (rs.foldl TaskContext.mergeOutputs parent) ↔
      LastPublishes parent rs := by
  unfold NoOutputLost LastPublishes
  refine forall_congr' fun id => ?_
  cases hparent : parent.actionOutputs.find? id with
  | none =>
    have hmerge := find?_merge_of_none hrs hparent
    rw [hparent] at hmerge
    exact iff_of_true hmerge fun h => by cases h
  | some o =>
    rw [find?_merge_of_some hrs (by rw [hparent]; rfl), hparent]
    rcases List.eq_nil_or_concat rs with rfl | ⟨rs, z, rfl⟩
    · exact iff_of_true rfl fun _ r hr => by cases hr
    · rw [List.concat_eq_append] at hrs ⊢
      have hz := hrs z (by simp)
      rw [List.getLast?_concat, lastPublisher_concat, Option.elim_some]
      by_cases hid : id ∈ z.published
      · rw [if_pos hid, Option.elim_some]
        refine iff_of_true rfl fun _ _ _ => .inl fun z' hz' => ?_
        rwa [← Option.some.inj hz']
      · have hkept : z.actionOutputs.find? id = some o := (hz.kept id hid).trans hparent
        rw [if_neg hid, hkept]
        cases hlast : lastPublisher rs id with
        | none => exact iff_of_true rfl fun _ r hr => by cases hr
        | some r =>
          rw [Option.elim_some]
          constructor
          · intro heq _ r' hr'
            rw [← Option.some.inj hr']
            exact .inr heq.symm
          · intro h
            rcases h rfl r rfl with hall | heq
            · exact absurd (hall z rfl) hid
            · exact heq.symm

end Join

theorem joinChildren_returns {ω : Type} {results : List (Option Failure × TaskContext)} {s : Run ω}
    (h : ∀ s', joinChildren results s ≠ .error .outOfFuel s') :
    (joinChildren results s).state.ctx =
      (results.map (·.2)).foldl TaskContext.mergeOutputs s.ctx := by
  unfold joinChildren at h ⊢
  split
  · next hany =>
    rw [if_pos hany] at h
    exact absurd rfl (h s)
  · rw [EStateM.bind_of_ok (setContext_eq _ s), List.foldl_map]
    split <;> rfl

/-- A group that returns loses no output exactly when its last child publishes what any child
publishes under an id that the parent holds. -/
theorem parallel_keeps_outputs_iff {ω : Type} {platform : Platform ω} {tasks : Tasks} {fuel : Nat}
    {children : List ActionEntry} {breadcrumb : String} {s : Run ω}
    (hreturn : ∀ s', runEntry platform (runOneRunTask platform tasks fuel) breadcrumb
      (.parallel children) s ≠ .error .outOfFuel s') :
    ∃ rs s₁, runChildren platform
      (runOneRunTask platform tasks fuel) s.ctx breadcrumb 0 children s =
        .ok rs s₁ ∧
      (NoOutputLost s.ctx (rs.map (·.2)) (runEntry platform (runOneRunTask platform tasks fuel)
          breadcrumb (.parallel children) s).state.ctx ↔
        LastPublishes s.ctx (rs.map (·.2))) := by
  obtain ⟨rs, s₁, hrun, hctx, hlength, hrs⟩ := @runChildren_ok ω platform _
    (fun before call breadcrumb => leads_runOneRunTask tasks fuel before call breadcrumb)
    s.ctx breadcrumb children 0 s
  refine ⟨rs, s₁, hrun, ?_⟩
  have hafter : (runEntry platform (runOneRunTask platform tasks fuel) breadcrumb
      (.parallel children) s).state.ctx = (rs.map (·.2)).foldl TaskContext.mergeOutputs s.ctx := by
    unfold runEntry at hreturn ⊢
    split
    · next hempty =>
      obtain rfl : rs = [] := by
        rw [List.isEmpty_iff.mp hempty] at hlength
        exact List.length_eq_zero_iff.mp hlength
      rfl
    · next hempty =>
      rw [if_neg hempty] at hreturn
      have hget : (get : RunM ω (Run ω)) s = .ok s s := rfl
      rw [EStateM.bind_of_ok hget, EStateM.bind_of_ok hrun] at hreturn ⊢
      rw [joinChildren_returns hreturn, hctx]
  rw [hafter]
  refine noOutputLost_iff fun r hr => ?_
  obtain ⟨r', hr', rfl⟩ := List.mem_map.mp hr
  exact hrs r' hr'

/-- Every action publishes its own name. -/
def naming : Platform Unit where
  process := { getenv := fun _ => none, cajetaVersion := "" }
  getAsDouble _ := none
  registry name := some fun _ _ w => (.ok ⟨[("v", name)], by simp⟩, w)

/-- A context that holds an output under `x`. -/
def holdingX : Run Unit where
  ctx := { props := {}, actionOutputs := ⟨[("x", ⟨[("v", "old")], by simp⟩)], by simp⟩ }
  world := ()

/-- One child publishes under `x`, and so does the last one. -/
theorem republishing_group_keeps :
    ∃ rs s₁, runChildren naming (runOneRunTask naming .empty 1) holdingX.ctx "" 0
        [.invocation { action := "new", id := "x" }, .invocation { action := "newer", id := "x" }]
        holdingX = .ok rs s₁ ∧
      (NoOutputLost holdingX.ctx (rs.map (·.2)) (runEntry naming (runOneRunTask naming .empty 1) ""
          (.parallel [.invocation { action := "new", id := "x" },
            .invocation { action := "newer", id := "x" }]) holdingX).state.ctx ↔
        LastPublishes holdingX.ctx (rs.map (·.2))) :=
  parallel_keeps_outputs_iff fun s' h => by cases h

/-- The first child publishes under `x`. The second one has only inherited what was there, and that
is what remains. -/
theorem inherited_copy_overwrites :
    ∃ rs s₁, runChildren naming (runOneRunTask naming .empty 1) holdingX.ctx "" 0
        [.invocation { action := "new", id := "x" }, .invocation { action := "other", id := "y" }]
        holdingX = .ok rs s₁ ∧
      ¬NoOutputLost holdingX.ctx (rs.map (·.2)) (runEntry naming (runOneRunTask naming .empty 1) ""
        (.parallel [.invocation { action := "new", id := "x" },
          .invocation { action := "other", id := "y" }]) holdingX).state.ctx := by
  refine ⟨_, _, rfl, fun h => ?_⟩
  exact absurd (congrArg (Option.map SortedMap.entries) (h "x")) (by decide)

end Cajeta.Buildtool
