import Cajeta.Buildtool.Version
import Cajeta.Lib.SortedMap
import Mathlib.Data.Finset.Basic
import Mathlib.Data.String.Basic
import Cajeta.Lib.DepthFirst
import Mathlib.Data.Finset.Dedup

/-!
# Tasks

The `tasks` block of a manifest as it is run, and the check of its graph: every dependency is
defined, and no task depends on itself.
-/

namespace Cajeta.Buildtool

/-- What the task accepts from the command line. -/
structure TaskParamSpec where
  name : String
  defaultValue : Option String := none
  required : Bool := false

/-- A plain action. Its outputs are exposed under the id, if it has one. -/
structure ActionInvocation where
  action : String
  id : String := ""
  params : JObject := []
  whenExpr : Option String := none
  skipWhenExpr : Option String := none

/-- A call of another task, whose outputs become those of the entry. -/
structure RunTaskCall where
  taskName : String
  id : String := ""
  params : SortedMap String String := .empty
  whenExpr : Option String := none
  skipWhenExpr : Option String := none

inductive ActionEntry where
  | invocation (inv : ActionInvocation)
  | parallel (children : List ActionEntry)
  | runTask (call : RunTaskCall)

structure Task where
  name : String
  dependsOn : List String := []
  params : List TaskParamSpec := []
  actions : List ActionEntry := []
  outputs : SortedMap String String := .empty

abbrev Tasks := SortedMap String Task

/-! ## The graph of a task map -/

/-- Why a search of the graph ends early: it has closed a cycle, or it has used up its fuel. -/
inductive Halt where
  | cycle (names : List String)
  | outOfFuel

/-- Tasks being visited, tasks done, and the chain of those being visited. -/
structure Colors where
  gray : Finset String := ∅
  black : Finset String := ∅
  path : List String := []

def detectCycle (tasks : Tasks) : Nat → Colors → String → Except Halt Colors
  | 0, _, _ => .error .outOfFuel
  | fuel + 1, c, name =>
    if name ∈ c.black then return c
    else if name ∈ c.gray then .error (.cycle (c.path.dropWhile (· ≠ name) ++ [name]))
    else match tasks.find? name with
      | none => return c
      | some task => do
        let c ← task.dependsOn.foldlM (detectCycle tasks fuel)
          { c with gray := insert name c.gray, path := c.path ++ [name] }
        return { gray := c.gray.erase name, black := insert name c.black, path := c.path.dropLast }

/-- One more than the number of tasks is fuel for every search. -/
def searchFuel (tasks : Tasks) : Nat := tasks.size + 1

def undefinedError (task dep : String) : String :=
  "task '" ++ task ++ "' depends on undefined task '" ++ dep ++ "'"

def checkDefined (tasks : Tasks) : Except String Unit :=
  tasks.entries.forM fun kv => kv.2.dependsOn.forM fun dep =>
    Except.require (tasks.contains dep = true) (undefinedError kv.1 dep)

def checkAcyclic (tasks : Tasks) : Except Halt Colors :=
  tasks.entries.foldlM (fun c kv =>
    if kv.1 ∈ c.black then return c else detectCycle tasks (searchFuel tasks) c kv.1) {}

/-- The refusal of a call, or that it has used up its fuel. -/
inductive Failure where
  | failed (text : String)
  | outOfFuel
  deriving DecidableEq

def Halt.failure : Halt → Failure
  | .cycle names => .failed ("cyclic depends-on: " ++ " → ".intercalate names)
  | .outOfFuel => .outOfFuel

/-- The task map has no undefined dependency and no cycle. -/
def validateTaskGraph (tasks : Tasks) : Except Failure Unit := do
  (checkDefined tasks).mapError .failed
  let _ ← (checkAcyclic tasks).mapError Halt.failure
  return ()

/-!
## The check of the task graph

The search that colors tasks is a depth-first walk, so that the check succeeds exactly when every
dependency is defined and no task depends on itself.
-/

open DepthFirst (Walks Stops)

/-- A task names another among its dependencies. -/
def DependsOn (tasks : Tasks) (a b : String) : Prop :=
  ∃ task, tasks.find? a = some task ∧ b ∈ task.dependsOn

/-- Every dependency is defined. -/
def Defined (tasks : Tasks) : Prop := ∀ a b, DependsOn tasks a b → b ∈ tasks.keys

def Acyclic (tasks : Tasks) : Prop := ∀ a, ¬Relation.TransGen (DependsOn tasks) a a

def dependencies (tasks : Tasks) (name : String) : List String :=
  (tasks.find? name).elim [] Task.dependsOn

def taskGraph (tasks : Tasks) : DepthFirst.WalkGraph String String where
  next := dependencies tasks
  label := id
  Bad _ := False

theorem edge_eq (tasks : Tasks) : (taskGraph tasks).Edge = DependsOn tasks := by
  funext a b
  apply propext
  change b ∈ dependencies tasks a ↔ _
  unfold dependencies DependsOn
  cases tasks.find? a <;> simp

theorem Defined.closed {tasks : Tasks} (h : Defined tasks) :
    ∀ x ∈ tasks.keys, ∀ y ∈ (taskGraph tasks).next x, y ∈ tasks.keys := by
  intro x _ y hy
  refine h x y ?_
  rw [← edge_eq]
  exact hy

theorem checkDefined_eq_ok (tasks : Tasks) : checkDefined tasks = .ok () ↔ Defined tasks := by
  simp only [checkDefined, Except.forM_eq_ok, Except.require_eq_ok, SortedMap.contains,
    SortedMap.isSome_find?]
  constructor
  · rintro h a b ⟨task, hfind, hb⟩
    exact h (a, task) (SortedMap.find?_eq_some.mp hfind) b hb
  · intro h kv hkv dep hdep
    exact h kv.1 dep ⟨kv.2, SortedMap.find?_eq_some.mpr hkv, hdep⟩

/-! ## The search -/

structure Colors.Holds (c : Colors) (stack done : List String) : Prop where
  gray : c.gray = stack.toFinset
  black : c.black = done.toFinset
  path : c.path = stack.reverse

structure Inside (tasks : Tasks) (stack done : List String) : Prop where
  nodup : stack.Nodup
  sub : stack ⊆ tasks.keys
  unlisted : ∀ x ∈ stack, x ∉ done

theorem Inside.enter {tasks : Tasks} (h : Inside tasks stack done) (hx : x ∈ tasks.keys)
    (hstack : x ∉ stack) (hnew : x ∉ done) : Inside tasks (x :: stack) done where
  nodup := List.nodup_cons.mpr ⟨hstack, h.nodup⟩
  sub := List.cons_subset.mpr ⟨hx, h.sub⟩
  unlisted := List.forall_mem_cons.mpr ⟨hnew, h.unlisted⟩

theorem Inside.leave {tasks : Tasks} (h : Inside tasks (x :: stack) done)
    (hmid : Walks (taskGraph tasks) (x :: stack) done xs mid) :
    Inside tasks stack (mid ++ [x]) where
  nodup := (List.nodup_cons.mp h.nodup).2
  sub := (List.cons_subset.mp h.sub).2
  unlisted y hy hmem := by
    rcases List.mem_append.mp hmem with hmem | hmem
    · exact hmid.notMem (List.mem_cons_of_mem _ hy) (h.unlisted y (List.mem_cons_of_mem _ hy)) hmem
    · rw [List.mem_singleton.mp hmem] at hy
      exact (List.nodup_cons.mp h.nodup).1 hy

theorem Inside.exists_fuel {tasks : Tasks} (h : Inside tasks stack done)
    (hfuel : tasks.size < fuel + stack.length) : ∃ n, fuel = n + 1 := by
  have hlength := (h.nodup.subperm h.sub).length_le
  rw [SortedMap.keys, List.length_map] at hlength
  have hsize : tasks.size = tasks.entries.length := rfl
  exact ⟨fuel - 1, by omega⟩

theorem Colors.Holds.enter {c : Colors} (h : c.Holds stack done) (x : String) :
    ({ c with gray := insert x c.gray, path := c.path ++
      [x] } : Colors).Holds (x :: stack) done where
  gray := by rw [h.gray, List.toFinset_cons]
  black := h.black
  path := by rw [h.path, List.reverse_cons]

theorem Colors.Holds.leave {c : Colors} (h : c.Holds (x :: stack) mid) (hx : x ∉ stack) :
    ({ gray := c.gray.erase x, black := insert x c.black, path := c.path.dropLast } : Colors).Holds
      stack (mid ++ [x]) where
  gray := by
    rw [h.gray, List.toFinset_cons]
    exact Finset.erase_insert (by rwa [List.mem_toFinset])
  black := by
    rw [h.black]
    ext y
    simp only [Finset.mem_insert, List.mem_toFinset, List.mem_append, List.mem_singleton]
    exact or_comm
  path := by rw [h.path, List.reverse_cons, List.dropLast_concat]

section Search

variable {tasks : Tasks} {fuel : Nat} {c : Colors}

theorem detectCycle_listed (h : c.Holds stack done) (hx : x ∈ done) :
    detectCycle tasks (fuel + 1) c x = .ok c := by
  rw [detectCycle, if_pos (by rwa [h.black, List.mem_toFinset])]
  rfl

theorem detectCycle_inside (h : c.Holds stack done) (hx : x ∈ stack) (hnew : x ∉ done) :
    ∃ names, detectCycle tasks (fuel + 1) c x = .error (.cycle names) := by
  rw [detectCycle, if_neg (by rwa [h.black, List.mem_toFinset]),
    if_pos (by rwa [h.gray, List.mem_toFinset])]
  exact ⟨_, rfl⟩

theorem detectCycle_enter (h : c.Holds stack done) (hx : x ∈ tasks.keys) (hstack : x ∉ stack)
    (hnew : x ∉ done) :
    detectCycle tasks (fuel + 1) c x =
      ((dependencies tasks x).foldlM (detectCycle tasks fuel)
        { c with gray := insert x c.gray, path := c.path ++ [x] } >>= fun c =>
      .ok { gray := c.gray.erase x, black := insert x c.black, path := c.path.dropLast }) := by
  obtain ⟨task, htask⟩ := Option.isSome_iff_exists.mp (SortedMap.isSome_find?.mpr hx)
  rw [detectCycle, if_neg (by rwa [h.black, List.mem_toFinset]),
    if_neg (by rwa [h.gray, List.mem_toFinset])]
  simp only [htask, dependencies, Option.elim_some]
  rfl

theorem foldlM_detectCycle_of_walks (hclosed : ∀ x ∈ tasks.keys, ∀ y ∈ dependencies tasks x,
    y ∈ tasks.keys)
    (h : Walks (taskGraph tasks) stack done xs done') (hxs : xs ⊆ tasks.keys)
    (hin : Inside tasks stack done) (hc : c.Holds stack done)
    (hfuel : tasks.size < fuel + stack.length) :
    ∃ c', xs.foldlM (detectCycle tasks fuel) c = .ok c' ∧ c'.Holds stack done' := by
  induction h generalizing fuel c with
  | nil => exact ⟨c, rfl, hc⟩
  | @skip x stack done xs done' hlabel hdone h ih =>
    obtain ⟨n, rfl⟩ := hin.exists_fuel hfuel
    obtain ⟨c', hrun, hc'⟩ := ih (List.cons_subset.mp hxs).2 hin hc hfuel
    refine ⟨c', ?_, hc'⟩
    rw [List.foldlM_cons, detectCycle_listed hc hdone, Except.ok_bind, hrun]
  | visit hlabel hnew hgood hmid h ihmid ih =>
    rename_i stack x done mid xs done'
    have hx := hxs List.mem_cons_self
    obtain ⟨n, rfl⟩ := hin.exists_fuel hfuel
    have hin' := hin.enter hx hlabel hnew
    obtain ⟨c₁, hrun₁, hc₁⟩ := ihmid (hclosed x hx) hin' (hc.enter x)
      (show tasks.size < n + (x :: stack).length by rw [List.length_cons]; omega)
    change c₁.Holds (x :: stack) mid at hc₁
    change (dependencies tasks x).foldlM (detectCycle tasks n) _ = _ at hrun₁
    obtain ⟨c', hrun, hc'⟩ := ih (List.cons_subset.mp hxs).2 (hin'.leave hmid)
      (hc₁.leave hlabel) hfuel
    refine ⟨c', ?_, hc'⟩
    rw [List.foldlM_cons, detectCycle_enter hc hx hlabel hnew, hrun₁, Except.ok_bind,
      Except.ok_bind, hrun]

theorem foldlM_detectCycle_of_stops
    (hclosed : ∀ x ∈ tasks.keys, ∀ y ∈ dependencies tasks x, y ∈ tasks.keys)
    (h : Stops (taskGraph tasks) stack done xs) (hxs : xs ⊆ tasks.keys)
    (hin : Inside tasks stack done) (hc : c.Holds stack done)
    (hfuel : tasks.size < fuel + stack.length) :
    ∃ names, xs.foldlM (detectCycle tasks fuel) c = .error (.cycle names) := by
  induction h generalizing fuel c with
  | bad _ _ hbad => exact absurd hbad id
  | again hlabel =>
    rename_i stack x done xs
    obtain ⟨n, rfl⟩ := hin.exists_fuel hfuel
    obtain ⟨names, hcycle⟩ := detectCycle_inside (x := x) hc hlabel (hin.unlisted x hlabel)
    exact ⟨names, by rw [List.foldlM_cons, hcycle]; rfl⟩
  | skip hlabel hdone h ih =>
    obtain ⟨n, rfl⟩ := hin.exists_fuel hfuel
    obtain ⟨names, hcycle⟩ := ih (List.cons_subset.mp hxs).2 hin hc hfuel
    exact ⟨names, by rw [List.foldlM_cons, detectCycle_listed hc hdone, Except.ok_bind, hcycle]⟩
  | inside hlabel hnew hgood h ih =>
    rename_i stack x done xs
    have hx := hxs List.mem_cons_self
    obtain ⟨n, rfl⟩ := hin.exists_fuel hfuel
    obtain ⟨names, hcycle⟩ := ih (hclosed x hx) (hin.enter hx hlabel hnew) (hc.enter x)
      (show tasks.size < n + (x :: stack).length by rw [List.length_cons]; omega)
    change (dependencies tasks x).foldlM (detectCycle tasks n) _ = _ at hcycle
    refine ⟨names, ?_⟩
    rw [List.foldlM_cons, detectCycle_enter hc hx hlabel hnew, hcycle]
    rfl
  | visit hlabel hnew hgood hmid h ih =>
    rename_i stack x done mid xs
    have hx := hxs List.mem_cons_self
    obtain ⟨n, rfl⟩ := hin.exists_fuel hfuel
    have hin' := hin.enter hx hlabel hnew
    obtain ⟨c₁, hrun₁, hc₁⟩ := foldlM_detectCycle_of_walks hclosed hmid (hclosed x hx) hin'
      (hc.enter x) (show tasks.size < n + (x :: stack).length by rw [List.length_cons]; omega)
    change c₁.Holds (x :: stack) mid at hc₁
    change (dependencies tasks x).foldlM (detectCycle tasks n) _ = _ at hrun₁
    obtain ⟨names, hcycle⟩ := ih (List.cons_subset.mp hxs).2 (hin'.leave hmid)
      (hc₁.leave hlabel) hfuel
    refine ⟨names, ?_⟩
    rw [List.foldlM_cons, detectCycle_enter hc hx hlabel hnew, hrun₁, Except.ok_bind,
      Except.ok_bind, hcycle]

theorem checkAcyclic_eq_foldlM : checkAcyclic tasks =
    tasks.keys.foldlM (detectCycle tasks (searchFuel tasks)) {} := by
  have hstep : ∀ (c : Colors) (kv : String × Task),
      (if kv.1 ∈ c.black then return c else detectCycle tasks (searchFuel tasks) c kv.1) =
        detectCycle tasks (searchFuel tasks) c kv.1 := by
    intro c kv
    split
    · next h => rw [searchFuel, detectCycle, if_pos h]
    · rfl
  rw [checkAcyclic, SortedMap.keys, List.foldlM_map]
  simp only [hstep]

theorem checkAcyclic_iff (hdefined : Defined tasks) :
    (Acyclic tasks → ∃ c, checkAcyclic tasks = .ok c) ∧
    (¬Acyclic tasks → ∃ names, checkAcyclic tasks = .error (.cycle names)) := by
  have hclosed := hdefined.closed
  have hin : Inside tasks [] [] := ⟨List.nodup_nil, List.nil_subset _, by simp⟩
  have hc : ({} : Colors).Holds [] [] := ⟨rfl, rfl, rfl⟩
  have hfuel : tasks.size < searchFuel tasks + ([] : List String).length := by
    simp [searchFuel]
  rw [checkAcyclic_eq_foldlM]
  have hiff := DepthFirst.walks_iff (G := taskGraph tasks) rfl hclosed (List.Subset.refl tasks.keys)
  rcases DepthFirst.walks_or_stops hclosed List.nodup_nil (List.nil_subset _)
    (List.Subset.refl tasks.keys) [] with ⟨done, h⟩ | h
  · obtain ⟨c, hrun, -⟩ := foldlM_detectCycle_of_walks hclosed h (List.Subset.refl _) hin hc hfuel
    refine ⟨fun _ => ⟨c, hrun⟩, fun hcyclic => absurd (fun a ha => ?_) hcyclic⟩
    rw [← edge_eq] at ha
    have hkey : a ∈ tasks.keys := by
      obtain ⟨b, hab, -⟩ := Relation.TransGen.head'_iff.mp ha
      rw [edge_eq] at hab
      obtain ⟨task, htask, -⟩ := hab
      exact SortedMap.isSome_find?.mp (by rw [htask]; rfl)
    exact (hiff.mp ⟨done, h⟩ a hkey a .refl).2 ha
  · obtain ⟨names, hcycle⟩ :=
      foldlM_detectCycle_of_stops hclosed h (List.Subset.refl _) hin hc hfuel
    refine ⟨fun hacyclic => ?_, fun _ => ⟨names, hcycle⟩⟩
    obtain ⟨done, hwalks⟩ := hiff.mpr fun x _ y _ => ⟨id, by
      change ¬Relation.TransGen (taskGraph tasks).Edge y y
      rw [edge_eq]
      exact hacyclic y⟩
    exact absurd hwalks h.not_walks

theorem validateTaskGraph_iff (tasks : Tasks) :
    (validateTaskGraph tasks = .ok () ↔ Defined tasks ∧ Acyclic tasks) ∧
    validateTaskGraph tasks ≠ .error .outOfFuel := by
  unfold validateTaskGraph
  cases hchecked : checkDefined tasks with
  | error text =>
    refine ⟨⟨fun h => ?_, fun h => ?_⟩, fun h => ?_⟩
    · cases h
    · rw [(checkDefined_eq_ok tasks).mpr h.1] at hchecked
      cases hchecked
    · cases h
  | ok u =>
    have hdefined := (checkDefined_eq_ok tasks).mp hchecked
    obtain ⟨hok, herror⟩ := checkAcyclic_iff hdefined
    by_cases hacyclic : Acyclic tasks
    · obtain ⟨c, hc⟩ := hok hacyclic
      rw [hc]
      exact ⟨iff_of_true rfl ⟨hdefined, hacyclic⟩, fun h => by cases h⟩
    · obtain ⟨names, hcycle⟩ := herror hacyclic
      rw [hcycle]
      exact ⟨iff_of_false (fun h => by cases h) fun h => hacyclic h.2, fun h => by cases h⟩

end Search

end Cajeta.Buildtool
