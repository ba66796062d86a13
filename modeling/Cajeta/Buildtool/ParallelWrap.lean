import Cajeta.Buildtool.ParallelGroups
import Mathlib.Data.List.Forall2

/-!
# A group of one entry

What an entry does depends on its place only through the texts of its failures. An entry in a group
of its own does what it would do by itself, but for the command line's values, which a snapshot does
not take over.
-/

namespace Cajeta.Buildtool

open EStateM (failureOf)

/-! ## Failures that differ in their texts -/

/-- Both fail or neither does. The texts of failures are never empty. -/
inductive AlikeFailure : Option Failure → Option Failure → Prop where
  | none : AlikeFailure none none
  | outOfFuel : AlikeFailure (some .outOfFuel) (some .outOfFuel)
  | failed : t ≠ "" → t' ≠ "" → AlikeFailure (some (.failed t)) (some (.failed t'))

/-- Both have the same answer, or both have a text. -/
inductive AlikeText : Except String α → Except String α → Prop where
  | ok (a : α) : AlikeText (.ok a) (.ok a)
  | error : t ≠ "" → t' ≠ "" → AlikeText (.error t) (.error t')

theorem AlikeText.bind {x x' : Except String α} {k k' : α → Except String β}
    (hx : AlikeText x x') (hk : ∀ a, AlikeText (k a) (k' a)) :
    AlikeText (x >>= k) (x' >>= k') := by
  cases hx with
  | ok a => exact hk a
  | error ht ht' => exact .error ht ht'

theorem AlikeText.foldlM {f f' : β → α → Except String β} (xs : List α)
    (h : ∀ b x, AlikeText (f b x) (f' b x)) (b : β) :
    AlikeText (xs.foldlM f b) (xs.foldlM f' b) := by
  induction xs generalizing b with
  | nil => exact .ok b
  | cons x xs ih => exact (h b x).bind ih

theorem append_ne_empty {s t : String} (h : t ≠ "") : s ++ t ≠ "" := fun heq =>
  h (String.append_eq_empty_iff.mp heq).2

theorem append_ne_empty_left {s t : String} (h : s ≠ "") : s ++ t ≠ "" := fun heq =>
  h (String.append_eq_empty_iff.mp heq).1

section Texts

variable {process : Process}

theorem substitute_alike (ctx : ActionContext) (s w w' : String) :
    AlikeText (ctx.substitute process s w) (ctx.substitute process s w') := by
  unfold ActionContext.substitute
  split
  · exact .ok _
  · exact .error (append_ne_empty (by decide)) (append_ne_empty (by decide))

/-- A substitution whose place is seen in its failures only. -/
def Placeless (subst : String → String → Except String String) : Prop :=
  ∀ s w w', AlikeText (subst s w) (subst s w')

theorem placeless_substitute (ctx : ActionContext) : Placeless (ctx.substitute process) :=
  fun s w w' => substitute_alike ctx s w w'

mutual

theorem substituteValue_alike {subst : String → String → Except String String}
    (h : Placeless subst) (w w' : String) : ∀ v : Json,
    AlikeText (substituteValue subst w v) (substituteValue subst w' v)
  | .str s => (h s w w').bind fun _ => .ok _
  | .obj fields => (substituteFields_alike h w w' fields).bind fun _ => .ok _
  | .arr items => (substituteItems_alike h w w' 0 items).bind fun _ => .ok _
  | .null => .ok _
  | .bool _ => .ok _
  | .int _ => .ok _
  | .double _ _ => .ok _

theorem substituteFields_alike {subst : String → String → Except String String}
    (h : Placeless subst) (w w' : String) : ∀ fields : List (String × Json),
    AlikeText (substituteFields subst w fields) (substituteFields subst w' fields)
  | [] => .ok _
  | (key, v) :: fields =>
    (substituteValue_alike h (w ++ "." ++ key) (w' ++ "." ++ key) v).bind fun _ =>
      (substituteFields_alike h w w' fields).bind fun _ => .ok _

theorem substituteItems_alike {subst : String → String → Except String String}
    (h : Placeless subst) (w w' : String) : ∀ (i : Nat) (items : List Json),
    AlikeText (substituteItems subst w i items) (substituteItems subst w' i items)
  | _, [] => .ok _
  | i, v :: items =>
    (substituteValue_alike h (w ++ "[" ++ toString i ++ "]") (w' ++ "[" ++ toString i ++ "]")
      v).bind fun _ => (substituteItems_alike h w w' (i + 1) items).bind fun _ => .ok _

end

variable {ω : Type} {platform : Platform ω}

theorem shouldSkip_alike (whenExpr skipWhenExpr : Option String) (w w' : String)
    {ctx ctx' : TaskContext} (h : ctx'.toActionContext = ctx.toActionContext) :
    AlikeText (shouldSkip platform whenExpr skipWhenExpr w ctx)
      (shouldSkip platform whenExpr skipWhenExpr w' ctx') := by
  unfold shouldSkip
  rw [h]
  refine .bind ?_ fun off => ?_
  · cases whenExpr with
    | none => exact .ok _
    | some e => exact (substitute_alike _ _ _ _).bind fun _ => .ok _
  · cases off with
    | true => exact .ok _
    | false =>
      cases skipWhenExpr with
      | none => exact .ok _
      | some e => exact (substitute_alike _ _ _ _).bind fun _ => .ok _

theorem substituteMap_alike (w w' : String) (m : SortedMap String String) {ctx ctx' : TaskContext}
    (h : ctx'.toActionContext = ctx.toActionContext) :
    AlikeText (substituteMap platform ctx w m) (substituteMap platform ctx' w' m) := by
  unfold substituteMap
  rw [h]
  exact .foldlM _ (fun _ _ => (substitute_alike _ _ _ _).bind fun _ => .ok _) _

theorem bindParams_alike (task : Task) (cli : SortedMap String String) (ctx : TaskContext) :
    AlikeText (bindParams platform task cli ctx) (bindParams platform task cli ctx) := by
  refine .foldlM _ (fun ctx spec => ?_) _
  cases cli.find? spec.name with
  | some v => exact .ok _
  | none =>
    cases spec.defaultValue with
    | some d => exact (substitute_alike _ _ _ _).bind fun _ => .ok _
    | none =>
      dsimp only
      split
      · exact .error (append_ne_empty (by decide)) (append_ne_empty (by decide))
      · exact .ok _

theorem checkIds_alike (task : Task) : AlikeText (checkIds task) (checkIds task) := by
  refine .bind (.foldlM _ (fun seen e => ?_) _) fun _ => .ok _
  split
  · exact .ok _
  split
  · exact .error (append_ne_empty (by decide)) (append_ne_empty (by decide))
  · exact .ok _

end Texts

/-! ## Runs that differ in the texts of failures -/

section Runs

variable {ω α β : Type}

/-- The two runs end alike: in related states, with related answers or with failures alike. -/
inductive AlikeRun (R : Run ω → Run ω → Prop) (Q : α → α → Prop) :
    EStateM.Result Failure (Run ω) α → EStateM.Result Failure (Run ω) α → Prop where
  | ok : Q a a' → R s s' → AlikeRun R Q (.ok a s) (.ok a' s')
  | error : AlikeFailure (some e) (some e') → R s s' → AlikeRun R Q (.error e s) (.error e' s')

variable {R : Run ω → Run ω → Prop} {Q : α → α → Prop} {Q' : β → β → Prop}

theorem AlikeRun.bind {x x' : RunM ω α} {k k' : α → RunM ω β} {s s' : Run ω}
    (hx : AlikeRun R Q (x s) (x' s'))
    (hk : ∀ a a' s s', Q a a' → R s s' → AlikeRun R Q' (k a s) (k' a' s')) :
    AlikeRun R Q' ((x >>= k) s) ((x' >>= k') s') := by
  cases h : x s with
  | ok a u =>
    cases h' : x' s' with
    | ok a' u' =>
      rw [h, h'] at hx
      cases hx with
      | ok hQ hR =>
        rw [EStateM.bind_of_ok h, EStateM.bind_of_ok h']
        exact hk a a' u u' hQ hR
    | error e' u' =>
      rw [h, h'] at hx
      cases hx
  | error e u =>
    cases h' : x' s' with
    | ok a' u' =>
      rw [h, h'] at hx
      cases hx
    | error e' u' =>
      rw [h, h'] at hx
      cases hx with
      | error he hR =>
        rw [EStateM.bind_of_error h, EStateM.bind_of_error h']
        exact .error he hR

theorem check_alike {x x' : Except String α} {s s' : Run ω} (hx : AlikeText x x') (hs : R s s') :
    AlikeRun R (fun a a' => a = a' ∧ x = .ok a) ((RunM.check x : RunM ω α) s)
      ((RunM.check x' : RunM ω α) s') := by
  cases hx with
  | ok a => exact .ok ⟨rfl, rfl⟩ hs
  | error ht ht' => exact .error (.failed ht ht') hs

theorem throw_alike {t t' : String} (ht : t ≠ "") (ht' : t' ≠ "") {s s' : Run ω} (hs : R s s') :
    AlikeRun R Q ((throw (.failed t) : RunM ω α) s) ((throw (.failed t') : RunM ω α) s') :=
  .error (.failed ht ht') hs

/-- The two states show an action the same. With `cli`, they hold the same command line values. -/
structure SameView (cli : Prop) (s s' : Run ω) : Prop where
  view : s'.ctx.toActionContext = s.ctx.toActionContext
  world : s'.world = s.world
  handed : s'.handed = s.handed
  cliParams : cli → s'.ctx.cliParams = s.ctx.cliParams

theorem SameView.publish {cli : Prop} {s s' : Run ω} (h : SameView cli s s') (id : String)
    (outputs : Outputs) :
    SameView cli { s with ctx := s.ctx.publishOutputs id outputs }
      { s' with ctx := s'.ctx.publishOutputs id outputs } := by
  unfold TaskContext.publishOutputs
  split
  · exact h
  · refine ⟨?_, h.world, h.handed, h.cliParams⟩
    change ({ s'.ctx.toActionContext with actionOutputs :=
      s'.ctx.toActionContext.actionOutputs.insert id outputs } : ActionContext) = _
    rw [h.view]

theorem act_alike {cli : Prop} (name : String) (params : JObject)
    (action : JObject → ActionContext → ω → Except String Outputs × ω) {s s' : Run ω}
    (h : SameView cli s s') :
    AlikeRun (SameView cli) Eq (RunM.act name params action s)
      (RunM.act name params action s') := by
  unfold RunM.act
  rw [h.view, h.world, h.handed]
  exact .ok rfl ⟨h.view, rfl, rfl, h.cliParams⟩

variable {platform : Platform ω}

/-- The values of the command line make no difference to the parameters. -/
def SameOverrides (platform : Platform ω) (inv : ActionInvocation) (s s' : Run ω) : Prop :=
  ∀ whereContext resolved, shouldSkip platform inv.whenExpr inv.skipWhenExpr whereContext s.ctx =
      .ok false → (platform.registry inv.action).isSome = true →
    substituteFields (s.ctx.substitute platform.process) whereContext inv.params = .ok resolved →
    applyCliParamOverrides platform resolved s'.ctx =
      applyCliParamOverrides platform resolved s.ctx

theorem runOneInvocation_alike {cli : Prop} (inv : ActionInvocation)
    (breadcrumb breadcrumb' : String)
    {s s' : Run ω} (hs : SameView cli s s') (hover : SameOverrides platform inv s s') :
    AlikeRun (SameView cli) Eq (runOneInvocation platform inv breadcrumb s)
      (runOneInvocation platform inv breadcrumb' s') := by
  refine .bind (Q := fun a a' => a = s ∧ a' = s') (.ok ⟨rfl, rfl⟩ hs) ?_
  rintro _ _ u u' ⟨rfl, rfl⟩ hu
  refine .bind (check_alike (shouldSkip_alike _ _ _ _ hs.view) hu) ?_
  rintro skip _ u u' ⟨rfl, hskip⟩ hu
  cases skip with
  | true => exact .ok rfl hu
  | false =>
    rw [if_neg (by decide), if_neg (by decide)]
    cases hregistry : platform.registry inv.action with
    | none => exact throw_alike (append_ne_empty (by decide)) (append_ne_empty (by decide)) hu
    | some action =>
      dsimp only
      rw [hs.view]
      refine .bind (check_alike (substituteFields_alike (placeless_substitute _) _ _ _) hu) ?_
      rintro resolved _ u u' ⟨rfl, hresolved⟩ hu
      rw [hover _ resolved hskip (by rw [hregistry]; rfl) hresolved]
      refine .bind (Q := Eq) (act_alike _ _ _ hu) ?_
      rintro result _ u u' rfl hu
      cases result with
      | error text =>
        exact throw_alike (append_ne_empty_left (append_ne_empty (by decide)))
          (append_ne_empty_left (append_ne_empty (by decide))) hu
      | ok outputs => exact .ok rfl (hu.publish _ _)

/-! ## Groups -/

/-- Two children's ends: failures alike, and contexts that show an action the same. -/
structure AlikeChild (r r' : Option Failure × TaskContext) : Prop where
  failure : AlikeFailure r.1 r'.1
  view : r'.2.toActionContext = r.2.toActionContext

theorem inside_alike {cli : Prop} {x x' : RunM ω Unit}
    (hx : ∀ s s', SameView True s s' → AlikeRun (SameView True) Eq (x s) (x' s'))
    (ctx : TaskContext) {s s' : Run ω} (hs : SameView cli s s') :
    AlikeRun (SameView cli) AlikeChild (RunM.inside ctx x s) (RunM.inside ctx x' s') := by
  have h := hx { s with ctx } { s' with ctx } ⟨rfl, hs.world, hs.handed, fun _ => rfl⟩
  unfold RunM.inside
  cases hr : x { s with ctx } with
  | ok a u =>
    cases hr' : x' { s' with ctx } with
    | ok a' u' =>
      rw [hr, hr'] at h
      cases h with
      | ok _ hu => exact .ok ⟨.none, hu.view⟩ ⟨hs.view, hu.world, hu.handed, hs.cliParams⟩
    | error e' u' =>
      rw [hr, hr'] at h
      cases h
  | error e u =>
    cases hr' : x' { s' with ctx } with
    | ok a' u' =>
      rw [hr, hr'] at h
      cases h
    | error e' u' =>
      rw [hr, hr'] at h
      cases h with
      | error he hu => exact .ok ⟨he, hu.view⟩ ⟨hs.view, hu.world, hu.handed, hs.cliParams⟩

theorem calling_alike {cli : Prop} {x x' : RunM ω Unit}
    (hx : ∀ s s', SameView True s s' → AlikeRun (SameView True) Eq (x s) (x' s'))
    (name : String) (ctx : TaskContext) {s s' : Run ω} (hs : SameView cli s s') :
    AlikeRun (SameView cli) AlikeChild (RunM.calling name ctx x s)
      (RunM.calling name ctx x' s') := by
  have hentered : SameView cli
      { s with underWay := name :: s.underWay, calls := s.calls ++ [(name, s.underWay)] }
      { s' with underWay := name :: s'.underWay, calls := s'.calls ++ [(name, s'.underWay)] } :=
    ⟨hs.view, hs.world, hs.handed, hs.cliParams⟩
  have h := inside_alike hx ctx hentered
  unfold RunM.calling
  revert h
  generalize RunM.inside ctx x _ = r
  generalize RunM.inside ctx x' _ = r'
  intro h
  cases h with
  | ok ha hu => exact .ok ha ⟨hu.view, hu.world, hu.handed, hu.cliParams⟩
  | error he hu => exact .error he ⟨hu.view, hu.world, hu.handed, hu.cliParams⟩

theorem combined_eq_empty (failures : List (Option Failure)) :
    combined failures = "" ↔ ∀ t, some (.failed t) ∈ failures → t = "" := by
  suffices h : ∀ text, failures.foldl alsoFailed text = "" ↔
      text = "" ∧ ∀ t, some (.failed t) ∈ failures → t = "" by
    rw [combined, h]
    simp
  induction failures with
  | nil => simp
  | cons f failures ih =>
    intro text
    rw [List.foldl_cons, ih]
    rcases f with _ | ⟨t⟩ | _
    · simp [alsoFailed]
    · by_cases ht : t = ""
      · simp [alsoFailed, ht]
      · by_cases htext : text = ""
        · simp [alsoFailed, ht, htext]
        · simp [alsoFailed, ht, htext]
    · simp [alsoFailed]

theorem AlikeFailure.eq_outOfFuel (h : AlikeFailure f f') :
    f = some .outOfFuel ↔ f' = some .outOfFuel := by
  cases h <;> simp

theorem combined_alike {rs rs' : List (Option Failure × TaskContext)}
    (h : List.Forall₂ AlikeChild rs rs') :
    combined (rs.map (·.1)) = "" ↔ combined (rs'.map (·.1)) = "" := by
  rw [combined_eq_empty, combined_eq_empty]
  induction h with
  | nil => simp
  | @cons r r' rs rs' hr _ ih =>
    obtain ⟨f, c⟩ := r
    obtain ⟨f', c'⟩ := r'
    have hf := hr.failure
    simp only [List.map_cons, List.mem_cons] at ih ⊢
    cases hf with
    | none => simpa using ih
    | outOfFuel => simpa using ih
    | failed ht ht' =>
      constructor
      · intro hall
        exact absurd (hall _ (.inl rfl)) ht
      · intro hall
        exact absurd (hall _ (.inl rfl)) ht'

theorem foldl_merge_view {rs rs' : List (Option Failure × TaskContext)}
    (h : List.Forall₂ AlikeChild rs rs') {ctx ctx' : TaskContext}
    (hctx : ctx'.toActionContext = ctx.toActionContext) :
    (rs'.foldl (fun ctx r => ctx.mergeOutputs r.2) ctx').toActionContext =
      (rs.foldl (fun ctx r => ctx.mergeOutputs r.2) ctx).toActionContext := by
  induction h generalizing ctx ctx' with
  | nil => exact hctx
  | cons hr _ ih =>
    refine ih ?_
    unfold TaskContext.mergeOutputs
    dsimp only
    rw [hctx, hr.view]

theorem foldl_merge_cliParams (rs : List (Option Failure × TaskContext)) (ctx : TaskContext) :
    (rs.foldl (fun ctx r => ctx.mergeOutputs r.2) ctx).cliParams = ctx.cliParams := by
  induction rs generalizing ctx with
  | nil => rfl
  | cons r rs ih => exact ih _

theorem joinChildren_alike {cli : Prop} {rs rs' : List (Option Failure × TaskContext)}
    (h : List.Forall₂ AlikeChild rs rs') {s s' : Run ω} (hs : SameView cli s s') :
    AlikeRun (SameView cli) Eq (joinChildren rs s) (joinChildren rs' s') := by
  have hfuel : (rs.any (·.1 = some .outOfFuel) = true) ↔
    (rs'.any (·.1 = some .outOfFuel) = true) := by
    induction h with
    | nil => simp
    | cons hr _ ih =>
      simp only [List.any_cons, Bool.or_eq_true, ih, decide_eq_true_eq, hr.failure.eq_outOfFuel]
  have hcombined := combined_alike h
  unfold joinChildren
  by_cases hany : rs.any (·.1 = some .outOfFuel) = true
  · rw [if_pos hany, if_pos (hfuel.mp hany)]
    exact .error .outOfFuel hs
  · rw [if_neg hany, if_neg fun h' => hany (hfuel.mpr h'), EStateM.bind_of_ok (setContext_eq _ s),
      EStateM.bind_of_ok (setContext_eq _ s')]
    have hmerged : SameView cli { s with ctx := rs.foldl (fun ctx r => ctx.mergeOutputs r.2) s.ctx }
        { s' with ctx := rs'.foldl (fun ctx r => ctx.mergeOutputs r.2) s'.ctx } := by
      refine ⟨foldl_merge_view h hs.view, hs.world, hs.handed, fun hcli => ?_⟩
      rw [foldl_merge_cliParams, foldl_merge_cliParams]
      exact hs.cliParams hcli
    by_cases hempty : combined (rs.map (·.1)) = ""
    · rw [if_pos hempty, if_pos (hcombined.mp hempty)]
      exact .ok rfl hmerged
    · rw [if_neg hempty, if_neg fun h' => hempty (hcombined.mpr h')]
      exact throw_alike hempty (fun h' => hempty (hcombined.mpr h')) hmerged

/-! ## Entries -/

section Entries

variable {callTask : RunTaskCall → String → RunM ω Unit}

/-- A call whose place is seen in the texts of its failures only. -/
def PlacelessCalls (callTask : RunTaskCall → String → RunM ω Unit) : Prop :=
  ∀ cli call breadcrumb breadcrumb' s s', SameView cli s s' →
    AlikeRun (SameView cli) Eq (callTask call breadcrumb s) (callTask call breadcrumb' s')

/-- A plain action, with the same command line values or none that make a difference. -/
def Unaffected (platform : Platform ω) (s s' : Run ω) : ActionEntry → Prop
  | .invocation inv => SameOverrides platform inv s s'
  | _ => True

theorem unaffected_of_cliParams {s s' : Run ω} (h : s'.ctx.cliParams = s.ctx.cliParams)
    (e : ActionEntry) : Unaffected platform s s' e := by
  cases e with
  | invocation inv =>
    intro whereContext resolved _ _ _
    unfold applyCliParamOverrides
    rw [h]
  | parallel | runTask => trivial

mutual

theorem runEntry_alike (hcall : PlacelessCalls callTask) (cli : Prop)
    (breadcrumb breadcrumb' : String) (s s' : Run ω) (hs : SameView cli s s') :
    ∀ e : ActionEntry, Unaffected platform s s' e →
      AlikeRun (SameView cli) Eq (runEntry platform callTask breadcrumb e s)
        (runEntry platform callTask breadcrumb' e s')
  | .invocation inv, he => runOneInvocation_alike inv breadcrumb breadcrumb' hs he
  | .runTask call, _ => hcall cli call breadcrumb breadcrumb' s s' hs
  | .parallel children, _ => by
    unfold runEntry
    split
    · exact .ok rfl hs
    · refine .bind (Q := fun a a' => a = s ∧ a' = s') (.ok ⟨rfl, rfl⟩ hs) ?_
      rintro _ _ u u' ⟨rfl, rfl⟩ hu
      refine .bind (runChildren_alike hcall cli breadcrumb breadcrumb' ?_ children 0 u u' hu)
        fun rs rs' v v' hrs hv => joinChildren_alike hrs hv
      have hview := hs.view
      unfold TaskContext.snapshot
      rw [hview]

theorem runChildren_alike (hcall : PlacelessCalls callTask) (cli : Prop)
    (breadcrumb breadcrumb' : String) {ctx ctx' : TaskContext}
    (hctx : ctx'.snapshot = ctx.snapshot) : ∀ (children : List ActionEntry) (i : Nat)
      (s s' : Run ω), SameView cli s s' →
      AlikeRun (SameView cli) (List.Forall₂ AlikeChild)
        (runChildren platform callTask ctx breadcrumb i children s)
        (runChildren platform callTask ctx' breadcrumb' i children s')
  | [], _, _, _, hs => .ok .nil hs
  | e :: children, i, s, s', hs => by
    unfold runChildren
    rw [hctx]
    refine .bind (inside_alike (fun u u' hu => runEntry_alike hcall True _ _ u u' hu e
      (unaffected_of_cliParams (hu.cliParams trivial) e)) ctx.snapshot hs) fun r r' u u' hr hu => ?_
    exact .bind (runChildren_alike hcall cli breadcrumb breadcrumb' hctx children (i + 1) u u' hu)
      fun rs rs' v v' hrs hv => .ok (.cons hr hrs) hv

end

theorem runEntries_alike (hcall : PlacelessCalls callTask) (breadcrumb : String)
    (entries : List ActionEntry) (i : Nat) (s s' : Run ω) (hs : SameView True s s') :
    AlikeRun (SameView True) Eq (runEntries platform callTask breadcrumb i entries s)
      (runEntries platform callTask breadcrumb i entries s') := by
  induction entries generalizing i s s' with
  | nil => exact .ok rfl hs
  | cons e entries ih =>
    refine .bind (runEntry_alike hcall True _ _ s s' hs e
      (unaffected_of_cliParams (hs.cliParams trivial) e)) ?_
    rintro _ _ u u' rfl hu
    exact ih (i + 1) u u' hu

end Entries

theorem placelessCalls_runOneRunTask (tasks : Tasks) (fuel : Nat) :
    PlacelessCalls (runOneRunTask platform tasks fuel) := by
  induction fuel with
  | zero => exact fun cli call _ _ s s' hs => .error .outOfFuel hs
  | succ fuel ih =>
    intro cli call breadcrumb breadcrumb' s s' hs
    refine .bind (Q := fun a a' => a = s ∧ a' = s') (.ok ⟨rfl, rfl⟩ hs) ?_
    rintro _ _ u u' ⟨rfl, rfl⟩ hu
    refine .bind (check_alike (shouldSkip_alike _ _ _ _ hs.view) hu) ?_
    rintro skip _ u u' ⟨rfl, -⟩ hu
    cases skip with
    | true => exact .ok rfl hu
    | false =>
      rw [if_neg (by decide), if_neg (by decide)]
      cases tasks.find? call.taskName with
      | none =>
        exact throw_alike (append_ne_empty (by decide)) (append_ne_empty (by decide)) hu
      | some called =>
        dsimp only
        refine .bind (check_alike (substituteMap_alike _ _ _ hs.view) hu) ?_
        rintro cliValues _ u u' ⟨rfl, -⟩ hu
        rw [hs.view]
        refine .bind (check_alike (bindParams_alike called cliValues _) hu) ?_
        rintro childCtx _ u u' ⟨rfl, -⟩ hu
        refine .bind (check_alike (checkIds_alike called) hu) ?_
        rintro _ _ u u' - hu
        refine .bind (calling_alike (runEntries_alike ih _ _ 0) _ childCtx hu) ?_
        rintro ⟨failure, c⟩ ⟨failure', c'⟩ u u' hr hu
        have hf := hr.failure
        cases hf with
        | none =>
          refine .bind (check_alike (substituteMap_alike _ _ _ hr.view) hu) ?_
          rintro outputs _ u u' ⟨rfl, -⟩ hu
          exact .ok rfl (hu.publish _ _)
        | outOfFuel => exact .error .outOfFuel hu
        | failed ht ht' => exact throw_alike ht ht' hu

/-! ## One entry in a group of its own -/

structure SameEffect (r r' : EStateM.Result Failure (Run ω) Unit) : Prop where
  ending : AlikeFailure (failureOf r) (failureOf r')
  handed : r'.state.handed = r.state.handed
  world : r'.state.world = r.state.world
  outputs : failureOf r ≠ some .outOfFuel → ∀ id,
    r'.state.ctx.actionOutputs.find? id = r.state.ctx.actionOutputs.find? id

theorem inside_eq (ctx : TaskContext) (x : RunM ω Unit) (s : Run ω) :
    RunM.inside ctx x s =
      .ok (failureOf (x { s with ctx }), (x { s with ctx }).state.ctx)
        { (x { s with ctx }).state with ctx := s.ctx } := by
  unfold RunM.inside
  cases x { s with ctx } <;> rfl

theorem runEntry_wrapped (callTask : RunTaskCall → String → RunM ω Unit) (breadcrumb : String)
    (e : ActionEntry) {s : Run ω} {r : EStateM.Result Failure (Run ω) Unit}
    (hr : runEntry platform callTask (breadcrumb ++ ".parallel[" ++ toString 0 ++ "] actions[0]") e
      { s with ctx := s.ctx.snapshot } = r) :
    runEntry platform callTask breadcrumb (.parallel [e]) s =
      joinChildren [(failureOf r, r.state.ctx)] { r.state with ctx := s.ctx } := by
  have hget : (get : RunM ω (Run ω)) s = .ok s s := rfl
  have hchild := inside_eq s.ctx.snapshot (runEntry platform callTask
    (breadcrumb ++ ".parallel[" ++ toString 0 ++ "] actions[0]") e) s
  rw [hr] at hchild
  have hchildren : runChildren platform callTask s.ctx breadcrumb 0 [e] s =
      .ok [(failureOf r, r.state.ctx)] { r.state with ctx := s.ctx } := by
    rw [runChildren, EStateM.bind_of_ok hchild, runChildren]
    rfl
  rw [runEntry, if_neg (by simp), EStateM.bind_of_ok hget, EStateM.bind_of_ok hchildren]

theorem find?_merge_single {ctx child : TaskContext} (h : OutputsFrom ctx.snapshot child)
    (id : String) :
    (ctx.mergeOutputs child).actionOutputs.find? id = child.actionOutputs.find? id := by
  rw [find?_mergeOutputs]
  by_cases hid : id ∈ child.published
  · obtain ⟨o, ho⟩ := Option.isSome_iff_exists.mp (h.held id hid)
    rw [ho]
    rfl
  · rw [h.kept id hid]
    change (ctx.actionOutputs.find? id).or (ctx.actionOutputs.find? id) = ctx.actionOutputs.find? id
    exact Option.or_self

theorem joinChildren_single {f : Option Failure} {ctx : TaskContext} {s : Run ω}
    (hf : AlikeFailure f' f) (hgrows : OutputsFrom s.ctx.snapshot ctx) :
    AlikeFailure f' (failureOf (joinChildren [(f, ctx)] s)) ∧
      (joinChildren [(f, ctx)] s).state.handed = s.handed ∧
      (joinChildren [(f, ctx)] s).state.world = s.world ∧
      (f' ≠ some .outOfFuel → ∀ id, (joinChildren [(f, ctx)] s).state.ctx.actionOutputs.find? id =
        ctx.actionOutputs.find? id) := by
  unfold joinChildren
  cases hf with
  | none =>
    have hcombined : combined [none] = "" := rfl
    rw [if_neg (by simp), EStateM.bind_of_ok (setContext_eq _ s), List.map_singleton, hcombined,
      if_pos rfl]
    exact ⟨.none, rfl, rfl, fun _ => find?_merge_single hgrows⟩
  | outOfFuel => exact ⟨.outOfFuel, rfl, rfl, fun h => absurd rfl h⟩
  | @failed t t' ht ht' =>
    have hcombined : combined [some (.failed t')] = t' := by
      rw [combined, List.foldl_cons, List.foldl_nil, alsoFailed, if_neg ht', if_pos rfl]
    rw [if_neg (by simp), EStateM.bind_of_ok (setContext_eq _ s), List.map_singleton, hcombined,
      if_neg ht']
    exact ⟨.failed ht ht', rfl, rfl, fun _ => find?_merge_single hgrows⟩

theorem joinChildren_handed (rs : List (Option Failure × TaskContext)) (s : Run ω) :
    (joinChildren rs s).state.handed = s.handed := by
  unfold joinChildren
  split
  · rfl
  · rw [EStateM.bind_of_ok (setContext_eq _ s)]
    split <;> rfl

theorem SameEffect.of_alike {r r' : EStateM.Result Failure (Run ω) Unit} {ctx : TaskContext}
    (h : AlikeRun (SameView False) Eq r r') (hgrows : OutputsFrom ctx.snapshot r'.state.ctx) :
    SameEffect r (joinChildren [(failureOf r', r'.state.ctx)] { r'.state with ctx }) := by
  have hfailure : AlikeFailure (failureOf r) (failureOf r') := by
    cases h with
    | ok _ _ => exact .none
    | error he _ => exact he
  have hview : SameView False r.state r'.state := by
    cases h with
    | ok _ hs => exact hs
    | error _ hs => exact hs
  obtain ⟨hending, hhanded, hworld, houtputs⟩ :=
    joinChildren_single (s := { r'.state with ctx }) hfailure hgrows
  refine ⟨hending, hhanded.trans hview.handed, hworld.trans hview.world, fun hfuel id => ?_⟩
  rw [houtputs hfuel id, hview.view]

/-- The command line's values change no parameter that the entry hands to an action. Only a plain
action that its guards let run is handed them. -/
def OverridesNothing (platform : Platform ω) (ctx : TaskContext) : ActionEntry → Prop
  | .invocation inv => ∀ whereContext resolved,
      shouldSkip platform inv.whenExpr inv.skipWhenExpr whereContext ctx = .ok false →
      (platform.registry inv.action).isSome = true →
      substituteFields (ctx.substitute platform.process) whereContext inv.params = .ok resolved →
      applyCliParamOverrides platform resolved ctx = resolved
  | .parallel _ => True
  | .runTask _ => True

theorem unaffected_snapshot (s : Run ω) (e : ActionEntry) :
    Unaffected platform s { s with ctx := s.ctx.snapshot } e ↔
      OverridesNothing platform s.ctx e := by
  cases e with
  | invocation inv =>
    constructor
    · intro h whereContext resolved hskip hregistry hresolved
      exact (h whereContext resolved hskip hregistry hresolved).symm
    · intro h whereContext resolved hskip hregistry hresolved
      exact (h whereContext resolved hskip hregistry hresolved).symm
  | parallel | runTask => exact Iff.rfl

/-- What a plain action is handed, when its guards let it run and its parameters resolve. -/
theorem handed_runOneInvocation {inv : ActionInvocation} {breadcrumb : String} {s : Run ω}
    {resolved : JObject}
    (hskip : shouldSkip platform inv.whenExpr inv.skipWhenExpr breadcrumb s.ctx = .ok false)
    (hregistry : (platform.registry inv.action).isSome = true)
    (hresolved : substituteFields (s.ctx.substitute platform.process) breadcrumb inv.params =
      .ok resolved) :
    (runOneInvocation platform inv breadcrumb s).state.handed =
      s.handed ++ [(inv.action, applyCliParamOverrides platform resolved s.ctx)] := by
  obtain ⟨action, haction⟩ := Option.isSome_iff_exists.mp hregistry
  have hget : (get : RunM ω (Run ω)) s = .ok s s := rfl
  have hguard : (RunM.check (shouldSkip platform inv.whenExpr inv.skipWhenExpr breadcrumb s.ctx) :
      RunM ω Bool) s = .ok false s := by
    rw [hskip]
    rfl
  have hparams : (RunM.check (substituteFields (s.ctx.substitute platform.process) breadcrumb
      inv.params) : RunM ω JObject) s = .ok resolved s := by
    rw [hresolved]
    rfl
  unfold runOneInvocation
  rw [EStateM.bind_of_ok hget, EStateM.bind_of_ok hguard, if_neg (by decide), haction]
  dsimp only
  rw [EStateM.bind_of_ok hparams]
  have hact : RunM.act inv.action (applyCliParamOverrides platform resolved s.ctx) action s =
      .ok (action (applyCliParamOverrides platform resolved s.ctx) s.ctx.toActionContext s.world).1
        { s with
          world := (action (applyCliParamOverrides platform resolved s.ctx) s.ctx.toActionContext
            s.world).2
          handed := s.handed ++ [(inv.action, applyCliParamOverrides platform resolved s.ctx)] } :=
    rfl
  rw [EStateM.bind_of_ok hact]
  cases (action (applyCliParamOverrides platform resolved s.ctx)
    s.ctx.toActionContext s.world).1 with
  | error text => rfl
  | ok outputs => rfl

theorem AlikeText.eq_ok {x x' : Except String α} (h : AlikeText x x') (hx : x = .ok a) :
    x' = .ok a := by
  cases h with
  | ok _ => exact hx
  | error _ _ => cases hx

variable (platform) in
/-- An entry in a group of its own has the effect that it has by itself exactly when the command
line changes nothing about it. -/
theorem wrapped_sameEffect_iff (tasks : Tasks) (fuel : Nat) (breadcrumb : String) (s : Run ω)
    (e : ActionEntry) :
    SameEffect (runEntry platform (runOneRunTask platform tasks fuel) breadcrumb e s)
        (runEntry platform (runOneRunTask platform tasks fuel) breadcrumb (.parallel [e]) s) ↔
      OverridesNothing platform s.ctx e := by
  rw [runEntry_wrapped _ _ e rfl]
  constructor
  · intro h
    cases e with
    | parallel | runTask => trivial
    | invocation inv =>
      intro whereContext resolved hskip hregistry hresolved
      have hskip' : ∀ w, shouldSkip platform inv.whenExpr inv.skipWhenExpr w s.ctx = .ok false :=
        fun w => (shouldSkip_alike _ _ _ w rfl).eq_ok hskip
      have hresolved' : ∀ w, substituteFields (s.ctx.substitute platform.process) w inv.params =
          .ok resolved := fun w =>
        (substituteFields_alike (placeless_substitute _) _ w _).eq_ok hresolved
      have hdirect := handed_runOneInvocation (hskip' breadcrumb) hregistry (hresolved' breadcrumb)
      have hchild := handed_runOneInvocation (s := { s with ctx := s.ctx.snapshot })
        (hskip' (breadcrumb ++ ".parallel[" ++ toString 0 ++ "] actions[0]")) hregistry
        (hresolved' _)
      have hhanded := h.handed
      rw [runEntry, runEntry, joinChildren_handed, hchild, hdirect] at hhanded
      have hlast := List.append_cancel_left hhanded
      exact (Prod.mk.inj (List.cons.inj hlast).1).2.symm
  · intro h
    refine .of_alike (runEntry_alike (placelessCalls_runOneRunTask tasks fuel) False _ _ s
      { s with ctx := s.ctx.snapshot } ⟨rfl, rfl, rfl, by simp⟩ e
      ((unaffected_snapshot s e).mpr h)) ?_
    exact leads_runEntry (fun before call breadcrumb =>
      leads_runOneRunTask tasks fuel before call breadcrumb) s.ctx.snapshot _ e _
      (outputsFrom_snapshot s.ctx)

end Runs

/-- The command line sets `p`. -/
def commandingP : Run Unit where
  ctx := { props := {}, cliParams := .insert .empty "p" "1" }
  world := ()

/-- An action is handed `p` by itself, and nothing in a group of its own. -/
theorem wrapped_action_misses_cli :
    ¬SameEffect
      (runEntry naming (runOneRunTask naming .empty 1) "" (.invocation { action := "a" })
        commandingP)
      (runEntry naming (runOneRunTask naming .empty 1) ""
        (.parallel [.invocation { action := "a" }])
        commandingP) := fun h =>
  absurd (congrArg (List.map fun a => a.2.length) h.handed) (by decide)

end Cajeta.Buildtool
