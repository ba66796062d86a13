import Cajeta.Buildtool.Task
import Cajeta.Buildtool.TaskRunner

/-!
# The order in which tasks run

A run starts the tasks that its target depends on, each one once and after its own dependencies,
until one fails. The order comes from a second search that relies on the graph having been checked.
-/

namespace Cajeta.Buildtool

open DepthFirst (Walks)

structure ClosureOrder (tasks : Tasks) (target : String) (order : List String) : Prop where
  nodup : order.Nodup
  mem : ∀ name, name ∈ order ↔ Relation.ReflTransGen (DependsOn tasks) target name
  after : ∀ a name b, order = a ++ name :: b → ∀ dep, DependsOn tasks name dep → dep ∈ a

/-- What a walk is inside of and what it has listed has been visited. -/
structure Ordering.Holds (o : Ordering) (stack done : List String) : Prop where
  visited : ∀ x, x ∈ o.visited ↔ x ∈ stack ∨ x ∈ done
  order : o.order = done

section Order

variable {tasks : Tasks} {fuel : Nat} {o : Ordering}

theorem topoOrder_visited (h : x ∈ o.visited) : topoOrder tasks (fuel + 1) o x = .ok o := by
  rw [topoOrder, if_pos h]
  rfl

theorem topoOrder_enter (hx : x ∈ tasks.keys) (hnew : x ∉ o.visited) :
    topoOrder tasks (fuel + 1) o x =
      ((dependencies tasks x).foldlM (topoOrder tasks fuel)
        { o with visited := insert x o.visited } >>= fun o =>
      .ok { o with order := o.order ++ [x] }) := by
  obtain ⟨task, htask⟩ := Option.isSome_iff_exists.mp (SortedMap.isSome_find?.mpr hx)
  rw [topoOrder, if_neg hnew]
  simp only [htask, dependencies, Option.elim_some]
  rfl

theorem foldlM_topoOrder_of_walks
    (hclosed : ∀ x ∈ tasks.keys, ∀ y ∈ dependencies tasks x, y ∈ tasks.keys)
    (h : Walks (taskGraph tasks) stack done xs done') (hxs : xs ⊆ tasks.keys)
    (hin : Inside tasks stack done) (ho : o.Holds stack done)
    (hfuel : tasks.size < fuel + stack.length) :
    ∃ o', xs.foldlM (topoOrder tasks fuel) o = .ok o' ∧ o'.Holds stack done' := by
  induction h generalizing fuel o with
  | nil => exact ⟨o, rfl, ho⟩
  | skip hlabel hdone h ih =>
    obtain ⟨n, rfl⟩ := hin.exists_fuel hfuel
    obtain ⟨o', hrun, ho'⟩ := ih (List.cons_subset.mp hxs).2 hin ho hfuel
    refine ⟨o', ?_, ho'⟩
    rw [List.foldlM_cons, topoOrder_visited ((ho.visited _).mpr (.inr hdone)), Except.ok_bind, hrun]
  | visit hlabel hnew hgood hmid h ihmid ih =>
    rename_i stack x done mid xs done'
    have hx := hxs List.mem_cons_self
    obtain ⟨n, rfl⟩ := hin.exists_fuel hfuel
    have hin' := hin.enter hx hlabel hnew
    have henter : ({ o with visited := insert x o.visited } : Ordering).Holds (x :: stack) done :=
      ⟨fun y => by rw [Finset.mem_insert, ho.visited, List.mem_cons, or_assoc], ho.order⟩
    obtain ⟨o₁, hrun₁, ho₁⟩ := ihmid (hclosed x hx) hin' henter
      (show tasks.size < n + (x :: stack).length by rw [List.length_cons]; omega)
    change o₁.Holds (x :: stack) mid at ho₁
    change (dependencies tasks x).foldlM (topoOrder tasks n) _ = _ at hrun₁
    have hleave : ({ o₁ with order := o₁.order ++ [x] } : Ordering).Holds stack (mid ++ [x]) := by
      refine ⟨fun y => ?_, by rw [ho₁.order]⟩
      rw [ho₁.visited, List.mem_cons, List.mem_append, List.mem_singleton]
      tauto
    obtain ⟨o', hrun, ho'⟩ := ih (List.cons_subset.mp hxs).2 (hin'.leave hmid) hleave hfuel
    refine ⟨o', ?_, ho'⟩
    have hunvisited : x ∉ o.visited := fun hv => ((ho.visited x).mp hv).elim hlabel hnew
    rw [List.foldlM_cons, topoOrder_enter hx hunvisited, hrun₁, Except.ok_bind, Except.ok_bind,
      hrun]

/-- In a graph that has been checked, the order of a target is that of its closure. -/
theorem exists_topoOrder (hdefined : Defined tasks) (hacyclic : Acyclic tasks)
    (htarget : target ∈ tasks.keys) :
    ∃ o, topoOrder tasks (searchFuel tasks) {} target = .ok o ∧
      ClosureOrder tasks target o.order := by
  have hsub : [target] ⊆ tasks.keys := List.cons_subset.mpr ⟨htarget, List.nil_subset _⟩
  obtain ⟨done, h⟩ := (DepthFirst.walks_iff (G := taskGraph tasks) rfl hdefined.closed hsub).mpr
    fun x _ y _ => ⟨id, by
      change ¬Relation.TransGen (taskGraph tasks).Edge y y
      rw [edge_eq]
      exact hacyclic y⟩
  obtain ⟨o, hrun, ho⟩ := foldlM_topoOrder_of_walks (o := {}) hdefined.closed h hsub
    ⟨List.nodup_nil, List.nil_subset _, by simp⟩ ⟨by simp, rfl⟩
    (show tasks.size < searchFuel tasks + _ by simp [searchFuel])
  have hsingle : topoOrder tasks (searchFuel tasks) {} target = .ok o := by
    rw [List.foldlM_cons] at hrun
    obtain ⟨o', ho', heq⟩ := Except.bind_eq_ok.mp hrun
    rw [ho', Except.pure_eq_ok.mp heq]
  obtain ⟨hlisted, hmem⟩ := h.start
  refine ⟨o, hsingle, ?_, fun name => ?_, fun a name b hsplit dep hdep => ?_⟩
  · rw [ho.order]
    exact hlisted.nodup
  · rw [ho.order, hmem, DepthFirst.WalkGraph.Reach, edge_eq]
    simp
  · refine hlisted.after a name b (ho.order ▸ hsplit) dep ?_
    rw [← edge_eq] at hdep
    exact hdep

end Order

/-! ## Starting the tasks -/

section Run

variable {ω : Type} {platform : Platform ω} {tasks : Tasks} {props : ResolvedProperties}
  {fuel : Nat}

theorem runOneTask_started (task : Task) (cli : SortedMap String String) (s : Session ω) :
    (runOneTask platform tasks props fuel task cli s).state.started = s.started := by
  have hleads : EStateM.Leads (fun s' : Session ω => s'.started = s.started)
      (runOneTask platform tasks props fuel task cli) (fun s' => s'.started = s.started) := by
    refine .bind .ofResult (fun _ => id) fun ctx => .bind .ofResult (fun _ => id) fun _ =>
      .bind (fun s' hs' => ?_) (fun _ => id) fun ctx => .ofResult
    unfold SessionM.runIn
    split
    · exact hs'
    · exact hs'
  exact hleads s rfl

def EndsOrder (platform : Platform ω) (tasks : Tasks) (props : ResolvedProperties) (fuel : Nat)
    (order : List String) (s : Session ω) : EStateM.Result Failure (Session ω) Outputs → Prop
  | .ok _ s' => s'.started = s.started ++ order
  | .error e s' => ∃ ran name rest, order = ran ++ name :: rest ∧
      s'.started = s.started ++ ran ++ [name] ∧
      ∃ task cli s₁, tasks.find? name = some task ∧
        runOneTask platform tasks props fuel task cli s₁ = .error e s'

theorem runInOrder_ends (htask : tasks.find? name = some task) (target : String)
    (cli : SortedMap String String) (last : Outputs) (s : Session ω) :
    EndsOrder platform tasks props fuel [name] s
      (runInOrder platform tasks target cli props fuel last name s) := by
  have hstarted : (runOneTask platform tasks props fuel task (if name = target then cli else .empty)
      { s with started := s.started ++ [name] }).state.started = s.started ++ [name] :=
    runOneTask_started task _ _
  have hrun : runInOrder platform tasks target cli props fuel last name s =
      (runOneTask platform tasks props fuel task (if name = target then cli else .empty) >>=
        fun outs => pure (if name = target then outs else last))
        { s with started := s.started ++ [name] } := by
    unfold runInOrder
    rw [htask]
    rfl
  rw [hrun]
  cases h : runOneTask platform tasks props fuel task (if name = target then cli else .empty)
      { s with started := s.started ++ [name] } with
  | ok outs s' =>
    rw [h] at hstarted
    rw [EStateM.bind_of_ok h]
    exact hstarted
  | error e s' =>
    rw [h] at hstarted
    rw [EStateM.bind_of_error h]
    exact ⟨[], name, [], rfl, by rw [List.append_nil]; exact hstarted, task, _, _, htask, h⟩

theorem foldlM_runInOrder_ends (target : String) (cli : SortedMap String String)
    (order : List String) (hdefined : ∀ name ∈ order, name ∈ tasks.keys) (last : Outputs)
    (s : Session ω) :
    EndsOrder platform tasks props fuel order s
      (order.foldlM (runInOrder platform tasks target cli props fuel) last s) := by
  induction order generalizing last s with
  | nil => exact (List.append_nil _).symm
  | cons name order ih =>
    obtain ⟨task, htask⟩ := Option.isSome_iff_exists.mp
      (SortedMap.isSome_find?.mpr (hdefined name List.mem_cons_self))
    have hfirst : EndsOrder platform tasks props fuel [name] s
        (runInOrder platform tasks target cli props fuel last name s) :=
      runInOrder_ends htask target cli last s
    rw [List.foldlM_cons]
    cases h : runInOrder platform tasks target cli props fuel last name s with
    | error e s' =>
      rw [h] at hfirst
      obtain ⟨ran, name', rest, hsplit, hstarted, hfailed⟩ := hfirst
      rw [EStateM.bind_of_error h]
      refine ⟨ran, name', rest ++ order, ?_, hstarted, hfailed⟩
      have := congrArg (· ++ order) hsplit
      simpa using this
    | ok outs s' =>
      rw [h] at hfirst
      have hrest := ih (fun n hn => hdefined n (List.mem_cons_of_mem _ hn)) outs s'
      rw [EStateM.bind_of_ok h]
      change s'.started = s.started ++ [name] at hfirst
      cases hr : order.foldlM (runInOrder platform tasks target cli props fuel) outs s' with
      | ok outs' s'' =>
        rw [hr] at hrest
        change s''.started = s'.started ++ order at hrest
        change s''.started = s.started ++ name :: order
        rw [hrest, hfirst, List.append_assoc, List.singleton_append]
      | error e s'' =>
        rw [hr] at hrest
        obtain ⟨ran, name', rest, hsplit, hstarted, hfailed⟩ := hrest
        refine ⟨name :: ran, name', rest, by rw [hsplit]; rfl, ?_, hfailed⟩
        rw [hstarted, hfirst]
        simp

end Run

/-- The check of a graph decides what it is for, and a run of a checked graph starts the tasks of
the target's closure in order, until one fails. -/
theorem checked_and_scheduled (tasks : Tasks) :
    (validateTaskGraph tasks = .ok () ↔ Defined tasks ∧ Acyclic tasks) ∧
    (validateTaskGraph tasks = .ok () → ∀ target ∈ tasks.keys, ∃ order,
      ClosureOrder tasks target order ∧ ∀ (ω : Type) (platform : Platform ω)
        (cli : SortedMap String String) (props : ResolvedProperties) (fuel : Nat) (s : Session ω),
        EndsOrder platform tasks props fuel order s
          (runTask platform tasks target cli props fuel s)) := by
  obtain ⟨hiff, -⟩ := validateTaskGraph_iff tasks
  refine ⟨hiff, fun hvalid target htarget => ?_⟩
  obtain ⟨hdefined, hacyclic⟩ := hiff.mp hvalid
  obtain ⟨o, ho, hclosure⟩ := exists_topoOrder hdefined hacyclic htarget
  refine ⟨o.order, hclosure, fun ω platform cli props fuel s => ?_⟩
  obtain ⟨task, htask⟩ := Option.isSome_iff_exists.mp (SortedMap.isSome_find?.mpr htarget)
  have hkeys : ∀ name ∈ o.order, name ∈ tasks.keys := by
    intro name hname
    rcases Relation.ReflTransGen.cases_tail ((hclosure.mem name).mp hname) with rfl | ⟨b, -, hb⟩
    · exact htarget
    · exact hdefined b name hb
  have hrun : runTask platform tasks target cli props fuel s =
      o.order.foldlM (runInOrder platform tasks target cli props fuel) .empty s := by
    unfold runTask
    rw [hvalid, htask, ho]
    rfl
  rw [hrun]
  exact foldlM_runInOrder_ends target cli o.order hkeys .empty s

/-- `app` depends on `lib`, which has a parameter without a default. -/
def unboundTasks : Tasks where
  entries := [("app", { name := "app", dependsOn := ["lib"] }),
    ("lib", { name := "lib", params := [{ name := "p", required := true }] })]
  sorted := by decide

/-- Every action is there and succeeds. -/
def succeeding : Platform Unit where
  process := { getenv := fun _ => none, cajetaVersion := "" }
  getAsDouble _ := none
  registry _ := some fun _ _ w => (.ok .empty, w)

/-- Running `app` stops at `lib`, though every action would succeed. -/
theorem unbound_param_stops_run :
    validateTaskGraph unboundTasks = .ok () ∧
    (∀ name action params ctx w, succeeding.registry name = some action →
      (action params ctx w).1 = .ok .empty) ∧
    ∀ fuel, ¬ClosureOrder unboundTasks "app"
      (runTask succeeding unboundTasks "app" .empty {} fuel ⟨(), [], [], []⟩).state.started := by
  refine ⟨by decide, ?_, fun fuel h => ?_⟩
  · rintro name action params ctx w h
    cases h
    rfl
  · have hstarted : (runTask succeeding unboundTasks "app" .empty {} fuel
        ⟨(), [], [], []⟩).state.started = ["lib"] := by rfl
    rw [hstarted] at h
    exact absurd ((h.mem "app").mpr .refl) (by decide)

end Cajeta.Buildtool
