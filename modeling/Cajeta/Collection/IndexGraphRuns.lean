import Cajeta.Collection.IndexGraphScc
import Cajeta.Collection.IndexGraphTopo

/-!
# Runs of calls

The index is out of date or it holds the rows of the edges so far. Every query brings it up to date
and leaves the nodes and the edges alone, so it answers for all edges added before it.
-/

namespace Cajeta.Collection.Graph
open Except Relation Traversal While

section

variable {n : Nat} {edges : List (Nat × Nat)} {g : IndexGraph}

/-- The edges by their target. -/
def sourcesOf (edges : List (Nat × Nat)) : Nat → List Nat := rowOf (edges.map Prod.swap)

theorem mem_sourcesOf : u ∈ sourcesOf edges v ↔ v ∈ rowOf edges u := by
  rw [sourcesOf, mem_rowOf, mem_rowOf, List.mem_map]
  constructor
  · rintro ⟨⟨a, b⟩, hmem, heq⟩
    cases heq
    exact hmem
  · intro hmem
    exact ⟨(u, v), hmem, rfl⟩

theorem count_rowOf (edges : List (Nat × Nat)) (u v : Nat) :
    (rowOf edges u).count v = edges.count (u, v) := by
  induction edges with
  | nil => rfl
  | cons p rest ih =>
    rw [List.count_cons, ← ih]
    by_cases hu : p.1 = u
    · subst hu
      rw [rowOf_cons_self, List.count_cons]
      congr 1
      simp only [beq_iff_eq, Prod.ext_iff, true_and]
    · rw [rowOf_cons_of_ne rest hu, if_neg, Nat.add_zero]
      simp only [beq_iff_eq, Prod.ext_iff, hu, false_and, not_false_eq_true]

theorem count_sourcesOf (edges : List (Nat × Nat)) (u v : Nat) :
    (rowOf edges u).count v = (sourcesOf edges v).count u := by
  rw [sourcesOf, count_rowOf, count_rowOf]
  exact (List.count_map_of_injective edges Prod.swap Prod.swap_injective (u, v)).symm

theorem steps_le (edges : List (Nat × Nat)) (n : Nat) : steps (rowOf edges) n ≤ edges.length := by
  have hsum : steps (rowOf edges) n = startOf edges n := by
    induction n with
    | zero => exact (startOf_zero edges).symm
    | succ n ih =>
      rw [startOf_succ, ← ih, steps, steps, List.range_succ, List.map_append, List.sum_append]
      rfl
  exact hsum ▸ startOf_le edges n

/-- The graph of `n` nodes and some edges, which have room in arrays that an `int32` can measure; an
index that is up to date holds their rows. -/
structure Agrees (g : IndexGraph) (n : Nat) (edges : List (Nat × Nat)) : Prop where
  nodes : g.nodeN = n
  nodes_lt : n < 2 ^ 31
  staged : g.edges = edges
  room : edges.length ≤ g.eCap
  doubled : ∃ k ≤ 30, g.eCap = 2 ^ k
  inside : ∀ p ∈ edges, p.1 < n ∧ p.2 < n
  index : g.fresh = true →
    n + 1 < 2 ^ 31 ∧ Indexes g.out n (rowOf edges) ∧ Indexes g.inc n (sourcesOf edges)

theorem Agrees.length_le (h : Agrees g n edges) : edges.length ≤ 2 ^ 30 := by
  obtain ⟨k, hk, hcap⟩ := h.doubled
  exact Nat.le_trans (hcap ▸ h.room) (Nat.pow_le_pow_right (by decide) hk)

theorem Agrees.rows_inside (h : Agrees g n edges) : Inside (rowOf edges) n := fun _ _ _ hv =>
  (h.inside _ (mem_rowOf.mp hv)).2

theorem Agrees.sources_inside (h : Agrees g n edges) : Inside (sourcesOf edges) n := fun _ _ _ hu =>
  (h.inside _ (mem_rowOf.mp (mem_sourcesOf.mp hu))).1

theorem ensureCsr_spec (h : Agrees g n edges) (hn : n + 1 < 2 ^ 31) :
    ∃ g', g.ensureCsr = .ok g' ∧ Agrees g' n edges ∧ Indexes g'.out n (rowOf edges) ∧
      Indexes g'.inc n (sourcesOf edges) := by
  rw [IndexGraph.ensureCsr]
  cases hfresh : g.fresh with
  | true => exact ⟨g, rfl, h, (h.index hfresh).2⟩
  | false =>
    have hlength : edges.length < 2 ^ 31 := Nat.lt_of_le_of_lt h.length_le (by decide)
    obtain ⟨hnodes, hlt, hedges, hroom, hdoubled, hinside, -⟩ := h
    obtain ⟨out, hout, houtRows⟩ := buildCsr_spec (fun p hp => (hinside p hp).1) hn hlength
    have hswapped : ∀ p ∈ edges.map Prod.swap, p.1 < n := by
      intro p hp
      obtain ⟨q, hq, rfl⟩ := List.mem_map.mp hp
      exact (hinside q hq).2
    obtain ⟨inc, hinc, hincRows⟩ := buildCsr_spec hswapped hn (by rwa [List.length_map])
    rw [hnodes, hedges, hout, hinc]
    exact ⟨_, rfl, ⟨rfl, hlt, rfl, hroom, hdoubled, hinside, fun _ => ⟨hn, houtRows, hincRows⟩⟩,
      houtRows, hincRows⟩

/-- The index has a slot more than there are nodes, which an `int32` has to count. -/
theorem ensureCsr_ok (h : Agrees g n edges) (hok : g.ensureCsr = .ok g') :
    n + 1 < 2 ^ 31 ∧ Agrees g' n edges := by
  have hn : n + 1 < 2 ^ 31 := by
    rw [IndexGraph.ensureCsr] at hok
    cases hfresh : g.fresh with
    | true => exact (h.index hfresh).1
    | false =>
      by_contra hge
      have hlt := h.nodes_lt
      have hheap : heap (n + 1) = .error .negativeSize := heap_negative (by omega) (by omega)
      rw [hfresh, h.nodes, buildCsr, hheap] at hok
      cases hok
  obtain ⟨g'', hok', hg', -⟩ := ensureCsr_spec h hn
  cases hok'.symm.trans hok
  exact ⟨hn, hg'⟩

/-- Rounds that are enough for every query. -/
def enoughFor (n : Nat) (edges : List (Nat × Nat)) : Nat := 2 * n + edges.length + 2

theorem Agrees.row_fuel (hfuel : enoughFor n edges ≤ fuel) (u : Nat) :
    (rowOf edges u).length + 1 < fuel := by
  have hle := length_rowOf_le edges u
  rw [enoughFor] at hfuel
  omega

theorem Agrees.source_fuel (hfuel : enoughFor n edges ≤ fuel) (u : Nat) :
    (sourcesOf edges u).length < fuel := by
  have hle := length_rowOf_le (edges.map Prod.swap) u
  rw [List.length_map] at hle
  rw [enoughFor] at hfuel
  rw [sourcesOf]
  omega

theorem Agrees.size_fuel (hfuel : enoughFor n edges ≤ fuel) : 2 * n < fuel := by
  rw [enoughFor] at hfuel
  omega

/-! ## The queries -/

/-- The mask of the nodes that can be reached from the roots. -/
def Reachable (row : Nat → List Nat) (n : Nat) (roots : List Int) (seen : List Int) : Prop :=
  seen.length = n ∧ ∀ w < n,
    seen[w]? = some 1 ∧ (∃ r, Rooted roots n r ∧ ReflTransGen (Leads row) r w) ∨
      seen[w]? = some 0 ∧ ¬ ∃ r, Rooted roots n r ∧ ReflTransGen (Leads row) r w

/-- The nodes that can be reached, each once, the nearer ones first. -/
def BreadthFirst (row : Nat → List Nat) (root : Nat) (order : List Nat) : Prop :=
  order.Nodup ∧ (∀ w, w ∈ order ↔ ReflTransGen (Leads row) root w) ∧
    ∃ level : Nat → Nat, (∀ w ∈ order, Dist (Leads row) root w (level w)) ∧
      order.Pairwise fun x y => level x ≤ level y

theorem reachableFrom_spec (h : Agrees g n edges) (hn : n + 1 < 2 ^ 31)
    (hfuel : enoughFor n edges ≤ fuel) (roots : List Int) :
    ∃ seen g', g.reachableFrom fuel roots = .ok (seen, g') ∧ Agrees g' n edges ∧
      (roots.length < 2 ^ 31 → Reachable (rowOf edges) n roots seen) := by
  obtain ⟨g', hcsr, hg', hout, -⟩ := ensureCsr_spec h hn
  let counted := roots.take (Cells.i32 roots.length).toNat
  obtain ⟨⟨marks, work⟩, hfold, hmarks⟩ := markRoots_spec n counted
  obtain ⟨seen, hwalk, hlen, hseen⟩ := reachable_spec fuel hout h.rows_inside
    (fun u _ => Nat.lt_of_succ_lt (Agrees.row_fuel hfuel u))
      (Agrees.size_fuel hfuel) counted hmarks
  refine ⟨seen, g', ?_, hg', fun hcount => ?_⟩
  · rw [IndexGraph.reachableFrom, hcsr, ok_bind, hg'.nodes]
    dsimp only
    rw [hfold, ok_bind]
    dsimp only
    rw [hwalk]
    rfl
  · have hall : counted = roots := by
      have hwrap : Cells.i32 roots.length = roots.length := Cells.i32_eq (by omega) (by omega)
      refine List.take_of_length_le ?_
      rw [hwrap, Int.toNat_natCast]
    rw [← hall]
    exact ⟨hlen, hseen⟩

theorem bfsOrder_spec (h : Agrees g n edges) (hn : n + 1 < 2 ^ 31)
    (hfuel : enoughFor n edges ≤ fuel) (root : Int) :
    ∃ order g', g.bfsOrder fuel root = .ok (order, g') ∧ Agrees g' n edges ∧
      (root < 0 ∨ root ≥ n → order = []) ∧
      ∀ r : Nat, root = r → r < n → BreadthFirst (rowOf edges) r order := by
  obtain ⟨g', hcsr, hg', hout, -⟩ := ensureCsr_spec h hn
  have hsize : 2 * n < fuel := Agrees.size_fuel hfuel
  rw [IndexGraph.bfsOrder, hcsr, ok_bind, hg'.nodes]
  dsimp only
  by_cases hroot : root < 0 ∨ root ≥ n
  · rw [if_pos hroot]
    exact ⟨[], g', rfl, hg', fun _ => rfl, fun r hr hlt => absurd hroot (by omega)⟩
  · obtain ⟨r, rfl⟩ := Int.eq_ofNat_of_zero_le (show 0 ≤ root by omega)
    have hr : r < n := by omega
    obtain ⟨order, level, hloop, hlevels⟩ := bfs_spec fuel hout h.rows_inside
      (fun u _ => Nat.lt_of_succ_lt (Agrees.row_fuel hfuel u)) (by omega) hr
    rw [if_neg hroot, Int.toNat_natCast, put_eq (by rw [List.length_replicate]; exact hr), ok_bind,
      append, if_pos (by rw [List.length_nil]; omega), ok_bind, List.nil_append, hloop]
    refine ⟨order, g', rfl, hg', fun hout => absurd hout hroot, fun r' hr' _ => ?_⟩
    obtain rfl := Int.ofNat_inj.mp hr'
    have hnodup := hlevels.nodup
    have hsorted := hlevels.sorted
    rw [List.append_nil] at hnodup hsorted
    exact ⟨hnodup, fun w => hlevels.mem_iff, level, fun w hw => hlevels.dist hw, hsorted⟩

theorem dfsOrder_spec (h : Agrees g n edges) (hn : n + 1 < 2 ^ 31)
    (hfuel : enoughFor n edges ≤ fuel) (root : Int) :
    ∃ order g', g.dfsOrder fuel root = .ok (order, g') ∧ Agrees g' n edges ∧
      (root < 0 ∨ root ≥ n → order = []) ∧
      ∀ r : Nat, root = r → r < n → Preorder (rowOf edges) [r] [] order := by
  obtain ⟨g', hcsr, hg', hout, -⟩ := ensureCsr_spec h hn
  have hsize : 2 * n < fuel := Agrees.size_fuel hfuel
  rw [IndexGraph.dfsOrder, hcsr, ok_bind, hg'.nodes]
  dsimp only
  by_cases hroot : root < 0 ∨ root ≥ n
  · rw [if_pos hroot]
    exact ⟨[], g', rfl, hg', fun _ => rfl, fun r hr hlt => absurd hroot (by omega)⟩
  · obtain ⟨r, rfl⟩ := Int.eq_ofNat_of_zero_le (show 0 ≤ root by omega)
    have hr : r < n := by omega
    obtain ⟨order, hloop, horder⟩ := dfs_spec fuel hout h.rows_inside
      (fun u _ => Agrees.row_fuel hfuel u) hsize hr
    rw [if_neg hroot, Int.toNat_natCast, put_eq (by rw [List.length_replicate]; exact hr), ok_bind,
      append, if_pos (by rw [List.length_nil]; omega), ok_bind, push,
      if_pos (by rw [List.length_nil]; omega), ok_bind, List.nil_append, hloop]
    refine ⟨order, g', rfl, hg', fun hout => absurd hout hroot, fun r' hr' _ => ?_⟩
    obtain rfl := Int.ofNat_inj.mp hr'
    exact horder

theorem topoOrder_spec (h : Agrees g n edges) (hn : n + 1 < 2 ^ 31)
    (hfuel : enoughFor n edges ≤ fuel) :
    ∃ order g', g.topoOrder fuel = .ok (order, g') ∧ Agrees g' n edges ∧
      Topological (rowOf edges) n order := by
  obtain ⟨g', hcsr, hg', hout, hinc⟩ := ensureCsr_spec h hn
  have hsize : 2 * n < fuel := Agrees.size_fuel hfuel
  have hdegrees := inDegrees_spec hinc
  have hlen : ((List.range n).map fun v => ((sourcesOf edges v).length : Int)).length = n := by
    rw [List.length_map, List.length_range]
  have hindeg : ∀ v < n, ((List.range n).map fun v => ((sourcesOf edges v).length : Int))[v]? =
      some ((sourcesOf edges v).length : Int) := by
    intro v hv
    rw [List.getElem?_map, List.getElem?_range hv]
    rfl
  obtain ⟨queue, hroots, hnodup, hmem⟩ := enqueueRoots_spec hindeg
  have hopen : ∀ v, open_ (sourcesOf edges) [] v = (sourcesOf edges v).length := fun v =>
    List.countP_eq_length.mpr fun u _ => decide_eq_true List.not_mem_nil
  have hinside : ∀ v ∈ queue, v < n := fun v hv => List.mem_range.mp ((hmem v).mp hv).1
  have hinit : Ordering (rowOf edges) (sourcesOf edges) n [] queue
      ((List.range n).map fun v => ((sourcesOf edges v).length : Int)) := by
    refine ⟨hlen, hnodup, hinside, fun v hv => ?_, fun front v back hparts u hu => ?_⟩
    · rw [hopen, List.nil_append, hmem]
      exact ⟨hindeg v hv, fun hin => hin.2, fun hzero => ⟨List.mem_range.mpr hv, hzero⟩⟩
    · have hv : v ∈ queue := by
        rw [List.nil_append] at hparts
        exact hparts ▸ List.mem_append_right _ List.mem_cons_self
      have hnone := List.eq_nil_of_length_eq_zero ((hmem v).mp hv).2
      have hsource := mem_sourcesOf.mpr (show v ∈ rowOf edges u from hu)
      rw [hnone] at hsource
      exact absurd hsource List.not_mem_nil
  obtain ⟨order, hloop, indeg, horder⟩ :=
    topoLoop_spec fuel hout h.rows_inside (count_sourcesOf edges)
    (fun u _ => Nat.lt_of_succ_lt (Agrees.row_fuel hfuel u)) (by omega) hinit
  refine ⟨order, g', ?_, hg', horder.topological (count_sourcesOf edges)⟩
  rw [IndexGraph.topoOrder, hcsr, ok_bind, hg'.nodes]
  dsimp only
  rw [hdegrees, ok_bind, hroots, ok_bind, hloop]
  rfl

theorem isCyclic_spec (h : Agrees g n edges) (hn : n + 1 < 2 ^ 31)
    (hfuel : enoughFor n edges ≤ fuel) :
    ∃ cyclic g', g.isCyclic fuel = .ok (cyclic, g') ∧ Agrees g' n edges ∧
      (cyclic = true ↔ ∃ v, TransGen (Leads (rowOf edges)) v v) := by
  obtain ⟨order, g', htopo, hg', horder⟩ := topoOrder_spec h hn hfuel
  refine ⟨_, g', by rw [IndexGraph.isCyclic, htopo]; rfl, hg', ?_⟩
  have hback : ∀ u v, Leads (rowOf edges) u v → u < n := fun u v huv =>
    (h.inside (u, v) (mem_rowOf.mp huv)).1
  have hfull := horder.length_eq_iff hback
  have hle := length_le_of_nodup horder.nodup horder.inside
  rw [hg'.nodes, decide_eq_true_eq]
  constructor
  · intro hlt
    by_contra hnone
    exact Nat.ne_of_lt hlt (hfull.mpr fun v _ hcycle => hnone ⟨v, hcycle⟩)
  · intro hcycle
    obtain ⟨v, hcycle⟩ := hcycle
    have hv : v < n := by
      obtain ⟨w, hedge, -⟩ := TransGen.head'_iff.mp hcycle
      exact hback v w hedge
    exact Nat.lt_of_le_of_ne hle fun heq => hfull.mp heq v hv hcycle

theorem sccLabels_spec (h : Agrees g n edges) (hn : n + 1 < 2 ^ 31)
    (hfuel : enoughFor n edges ≤ fuel) :
    ∃ labels count g', g.sccLabels fuel = .ok (labels, g') ∧ Agrees g' n edges ∧ 0 ≤ count ∧
      Components (rowOf edges) n labels count := by
  obtain ⟨g', hcsr, hg', hout, hinc⟩ := ensureCsr_spec h hn
  have hsize : 2 * n < fuel := Agrees.size_fuel hfuel
  have hsteps := steps_le edges n
  obtain ⟨s, hfinish, horder, hnodup, hall⟩ := finish_spec fuel hout h.rows_inside (by
    rw [enoughFor] at hfuel
    omega)
  obtain ⟨⟨comp, count⟩, hlabel, hcount, hcomponents⟩ := label_spec fuel hinc h.sources_inside
    (fun u v => mem_sourcesOf) (fun u _ => Agrees.source_fuel hfuel u) hsize horder hnodup hall
    h.rows_inside
  refine ⟨comp, count, g', ?_, hg', hcount, hcomponents⟩
  rw [IndexGraph.sccLabels, hcsr, ok_bind, hg'.nodes]
  dsimp only
  rw [hfinish, ok_bind, hlabel]
  rfl

theorem sccCount_spec (h : Agrees g n edges) (hn : n + 1 < 2 ^ 31)
    (hfuel : enoughFor n edges ≤ fuel) :
    ∃ labels count g', g.sccLabels fuel = .ok (labels, g') ∧ g.sccCount fuel = .ok (count, g') ∧
      Agrees g' n edges ∧ Components (rowOf edges) n labels count := by
  obtain ⟨labels, count, g', hlabels, hg', hcount, hcomponents⟩ := sccLabels_spec h hn hfuel
  refine ⟨labels, count, g', hlabels, ?_, hg', hcomponents⟩
  rw [IndexGraph.sccCount, hlabels, ok_bind]
  dsimp only
  rw [hcomponents.maxLabel_eq hcount]
  rfl

/-! ## Runs -/

/-- What a client can call. -/
inductive GraphCall where
  | ensureNodes (count : Int32)
  | addEdge (src dst : Int32)
  | reachableFrom (roots : List Int32)
  | bfsOrder (root : Int32)
  | dfsOrder (root : Int32)
  | topoOrder
  | isCyclic
  | sccLabels
  | sccCount

def runCall (fuel : Nat) (g : IndexGraph) : GraphCall → GraphM IndexGraph
  | .ensureNodes count => return g.ensureNodes count.toInt
  | .addEdge src dst => g.addEdge src.toInt dst.toInt
  | .reachableFrom roots => do return (← g.reachableFrom fuel (roots.map Int32.toInt)).2
  | .bfsOrder root => do return (← g.bfsOrder fuel root.toInt).2
  | .dfsOrder root => do return (← g.dfsOrder fuel root.toInt).2
  | .topoOrder => do return (← g.topoOrder fuel).2
  | .isCyclic => do return (← g.isCyclic fuel).2
  | .sccLabels => do return (← g.sccLabels fuel).2
  | .sccCount => do return (← g.sccCount fuel).2

def runCalls (fuel : Nat) (calls : List GraphCall) : GraphM IndexGraph :=
  calls.foldlM (runCall fuel) .new

/-- The number of nodes and the edges, without an index. -/
def stage : Nat × List (Nat × Nat) → GraphCall → Nat × List (Nat × Nat)
  | (n, edges), .ensureNodes count => (max n count.toInt.toNat, edges)
  | (n, edges), .addEdge src dst =>
    if (0 ≤ src.toInt ∧ src.toInt < n) ∧ 0 ≤ dst.toInt ∧ dst.toInt < n then
      (n, edges ++ [(src.toInt.toNat, dst.toInt.toNat)])
    else (n, edges)
  | staged, _ => staged

def nodesOf (calls : List GraphCall) : Nat := (calls.foldl stage (0, [])).1

def edgesOf (calls : List GraphCall) : List (Nat × Nat) := (calls.foldl stage (0, [])).2

/-- An `int32` counts the nodes and one more, and the arrays of the edges can double as often as it
takes. -/
def Fits (st : Nat × List (Nat × Nat)) : Prop := st.1 + 1 < 2 ^ 31 ∧ st.2.length ≤ 2 ^ 30

theorem stage_mono (st : Nat × List (Nat × Nat)) (call : GraphCall) :
    st.1 ≤ (stage st call).1 ∧ st.2.length ≤ (stage st call).2.length := by
  obtain ⟨n, edges⟩ := st
  cases call with
  | ensureNodes count => exact ⟨Nat.le_max_left _ _, Nat.le_refl _⟩
  | addEdge src dst =>
    rw [stage]
    split
    · refine ⟨Nat.le_refl _, ?_⟩
      rw [List.length_append]
      exact Nat.le_add_right _ _
    · exact ⟨Nat.le_refl _, Nat.le_refl _⟩
  | _ => exact ⟨Nat.le_refl _, Nat.le_refl _⟩

theorem stages_mono (st : Nat × List (Nat × Nat)) (calls : List GraphCall) :
    st.1 ≤ (calls.foldl stage st).1 ∧ st.2.length ≤ (calls.foldl stage st).2.length := by
  induction calls generalizing st with
  | nil => exact ⟨Nat.le_refl _, Nat.le_refl _⟩
  | cons call rest ih =>
    obtain ⟨hnodes, hedges⟩ := stage_mono st call
    obtain ⟨hnodes', hedges'⟩ := ih (stage st call)
    exact ⟨Nat.le_trans hnodes hnodes', Nat.le_trans hedges hedges'⟩

theorem Agrees.ensureNodes (h : Agrees g n edges) (count : Int32) :
    Agrees (g.ensureNodes count.toInt) (max n count.toInt.toNat) edges := by
  have hcount := count.toInt_lt
  have hlt := h.nodes_lt
  obtain ⟨rfl, -, hedges, hroom, hdoubled, hinside, hindex⟩ := h
  rw [IndexGraph.ensureNodes]
  by_cases hgrow : count.toInt > g.nodeN
  · rw [if_pos hgrow]
    refine ⟨by dsimp only; omega, by omega, hedges, hroom, hdoubled, fun p hp => ?_,
      fun hfresh => absurd hfresh Bool.false_ne_true⟩
    obtain ⟨hsrc, hdst⟩ := hinside p hp
    omega
  · rw [if_neg hgrow, Nat.max_eq_left (by omega)]
    exact ⟨rfl, hlt, hedges, hroom, hdoubled, hinside, hindex⟩

/-- One more edge: it is added where the arrays have room or can be doubled. -/
theorem Agrees.append (h : Agrees g n edges) (hp : p.1 < n ∧ p.2 < n) :
    (edges.length < 2 ^ 30 → ∃ g₁, g.makeRoom = .ok g₁ ∧
      append g₁.eCap g₁.edges p = .ok (edges ++ [p]) ∧
      Agrees { g₁ with edges := edges ++ [p], fresh := false } n (edges ++ [p])) ∧
    (edges.length = 2 ^ 30 → g.makeRoom = .error .negativeSize) := by
  obtain ⟨hnodes, hlt, rfl, hroom, ⟨k, hk, hcap⟩, hinside, -⟩ := h
  have hinside' : ∀ q ∈ g.edges ++ [p], q.1 < n ∧ q.2 < n := by
    intro q hq
    rcases List.mem_append.mp hq with hq | hq
    · exact hinside q hq
    · rwa [List.mem_singleton.mp hq]
  have hlength : (g.edges ++ [p]).length = g.edges.length + 1 := by simp
  refine ⟨fun hcount => ?_, fun hcount => ?_⟩
  · by_cases hfull : g.edges.length ≥ g.eCap
    · -- the arrays are full, so that they have fewer than `2 ^ 30` slots
      have hk' : k < 30 := (Nat.pow_lt_pow_iff_right (by decide : 1 < 2)).mp (by omega)
      have hdouble : g.eCap * 2 = 2 ^ (k + 1) := by rw [hcap, Nat.pow_succ]
      have hle : 2 ^ (k + 1) ≤ 2 ^ 30 := Nat.pow_le_pow_right (by decide) hk'
      have hheap : heap (g.eCap * 2) = .ok (g.eCap * 2) := by
        rw [show ((g.eCap : Int) * 2) = ((g.eCap * 2 : Nat) : Int) by omega]
        exact heap_eq (by omega)
      have hpos : 0 < 2 ^ k := Nat.two_pow_pos k
      refine ⟨{ g with eCap := g.eCap * 2 }, ?_, if_pos (by dsimp only; omega),
        ⟨hnodes, hlt, rfl, by dsimp only; omega, ⟨k + 1, hk', hdouble⟩, hinside',
          fun hfresh => absurd hfresh Bool.false_ne_true⟩⟩
      rw [IndexGraph.makeRoom, if_pos hfull, IndexGraph.growEdges, hheap]
      rfl
    · exact ⟨g, if_neg hfull, if_pos (by omega), ⟨hnodes, hlt, rfl, by dsimp only; omega,
        ⟨k, hk, hcap⟩, hinside', fun hfresh => absurd hfresh Bool.false_ne_true⟩⟩
  · have hle : 2 ^ k ≤ 2 ^ 30 := Nat.pow_le_pow_right (by decide) hk
    rw [IndexGraph.makeRoom, if_pos (by omega), IndexGraph.growEdges,
      heap_negative (by omega) (by omega)]
    rfl

theorem Agrees.addEdge (h : Agrees g n edges) (src dst : Int32) :
    (Fits (stage (n, edges) (.addEdge src dst)) → ∃ g', g.addEdge src.toInt dst.toInt = .ok g' ∧
      Agrees g' (stage (n, edges) (.addEdge src dst)).1 (stage (n, edges) (.addEdge src dst)).2) ∧
    ∀ g', g.addEdge src.toInt dst.toInt = .ok g' →
      Agrees g' (stage (n, edges) (.addEdge src dst)).1
        (stage (n, edges) (.addEdge src dst)).2 := by
  have hnodes := h.nodes
  rw [IndexGraph.addEdge, stage, hnodes]
  by_cases hsrc : src.toInt < 0 ∨ src.toInt ≥ n
  · rw [if_pos hsrc, if_neg (by omega)]
    refine ⟨fun _ => ⟨g, rfl, h⟩, fun g' hok => ?_⟩
    cases hok
    exact h
  rw [if_neg hsrc]
  by_cases hdst : dst.toInt < 0 ∨ dst.toInt ≥ n
  · rw [if_pos hdst, if_neg (by omega)]
    refine ⟨fun _ => ⟨g, rfl, h⟩, fun g' hok => ?_⟩
    cases hok
    exact h
  rw [if_neg hdst, if_pos (by omega)]
  dsimp only
  have hp : src.toInt.toNat < n ∧ dst.toInt.toNat < n := by omega
  obtain ⟨hadd, hfail⟩ := h.append (p := (src.toInt.toNat, dst.toInt.toNat)) hp
  refine ⟨fun hfits => ?_, fun g' hok => ?_⟩
  · have hcount : edges.length < 2 ^ 30 := by
      have := hfits.2
      rw [List.length_append, List.length_singleton] at this
      omega
    obtain ⟨g₁, hgrow, happend, hg'⟩ := hadd hcount
    rw [hgrow, ok_bind, happend]
    exact ⟨_, rfl, hg'⟩
  · rcases Nat.lt_or_eq_of_le h.length_le with hcount | hcount
    · obtain ⟨g₁, hgrow, happend, hg'⟩ := hadd hcount
      rw [hgrow, ok_bind, happend] at hok
      cases hok
      exact hg'
    · rw [hfail hcount] at hok
      cases hok

theorem runCall_spec (h : Agrees g n edges) (hfuel : enoughFor n edges ≤ fuel) (call : GraphCall)
    (hfits : Fits (stage (n, edges) call)) :
    ∃ g', runCall fuel g call = .ok g' ∧
      Agrees g' (stage (n, edges) call).1 (stage (n, edges) call).2 := by
  have hn : n + 1 < 2 ^ 31 :=
    Nat.lt_of_le_of_lt (Nat.succ_le_succ (stage_mono (n, edges) call).1) hfits.1
  cases call with
  | ensureNodes count => exact ⟨_, rfl, h.ensureNodes count⟩
  | addEdge src dst => exact (h.addEdge src dst).1 hfits
  | reachableFrom roots =>
    obtain ⟨_, g', hrun, hg', -⟩ := reachableFrom_spec h hn hfuel (roots.map Int32.toInt)
    exact ⟨g', by rw [runCall, hrun]; rfl, hg'⟩
  | bfsOrder root =>
    obtain ⟨_, g', hrun, hg', -⟩ := bfsOrder_spec h hn hfuel root.toInt
    exact ⟨g', by rw [runCall, hrun]; rfl, hg'⟩
  | dfsOrder root =>
    obtain ⟨_, g', hrun, hg', -⟩ := dfsOrder_spec h hn hfuel root.toInt
    exact ⟨g', by rw [runCall, hrun]; rfl, hg'⟩
  | topoOrder =>
    obtain ⟨_, g', hrun, hg', -⟩ := topoOrder_spec h hn hfuel
    exact ⟨g', by rw [runCall, hrun]; rfl, hg'⟩
  | isCyclic =>
    obtain ⟨_, g', hrun, hg', -⟩ := isCyclic_spec h hn hfuel
    exact ⟨g', by rw [runCall, hrun]; rfl, hg'⟩
  | sccLabels =>
    obtain ⟨_, _, g', hrun, hg', -⟩ := sccLabels_spec h hn hfuel
    exact ⟨g', by rw [runCall, hrun]; rfl, hg'⟩
  | sccCount =>
    obtain ⟨_, _, g', -, hrun, hg', -⟩ := sccCount_spec h hn hfuel
    exact ⟨g', by rw [runCall, hrun]; rfl, hg'⟩

/-! ## Runs that return -/

theorem index_of_topoOrder (hok : g.topoOrder fuel = .ok (order, g')) : g.ensureCsr = .ok g' := by
  simp only [IndexGraph.topoOrder, bind_eq_ok, pure_eq_ok] at hok
  obtain ⟨g₁, hcsr, _, -, _, -, _, -, heq⟩ := hok
  cases heq
  exact hcsr

theorem index_of_sccLabels (hok : g.sccLabels fuel = .ok (labels, g')) :
    g.ensureCsr = .ok g' := by
  simp only [IndexGraph.sccLabels, bind_eq_ok, pure_eq_ok] at hok
  obtain ⟨g₁, hcsr, _, -, _, -, heq⟩ := hok
  cases heq
  exact hcsr

theorem index_of_call (hok : runCall fuel g call = .ok g')
    (hcall : ∀ count, call ≠ .ensureNodes count) (hcall' : ∀ src dst, call ≠ .addEdge src dst) :
    g.ensureCsr = .ok g' := by
  cases call with
  | ensureNodes count => exact absurd rfl (hcall count)
  | addEdge src dst => exact absurd rfl (hcall' src dst)
  | reachableFrom roots =>
    simp only [runCall, IndexGraph.reachableFrom, bind_eq_ok, pure_eq_ok] at hok
    obtain ⟨_, ⟨g₁, hcsr, _, -, _, -, rfl⟩, rfl⟩ := hok
    exact hcsr
  | bfsOrder root =>
    obtain ⟨⟨order, g₁⟩, hrun, hok⟩ := bind_eq_ok.mp hok
    cases hok
    obtain ⟨g₂, hcsr, hrun⟩ := bind_eq_ok.mp hrun
    dsimp only at hrun
    split at hrun
    · cases hrun
      exact hcsr
    · simp only [bind_eq_ok, pure_eq_ok] at hrun
      obtain ⟨_, -, _, -, _, -, heq⟩ := hrun
      cases heq
      exact hcsr
  | dfsOrder root =>
    obtain ⟨⟨order, g₁⟩, hrun, hok⟩ := bind_eq_ok.mp hok
    cases hok
    obtain ⟨g₂, hcsr, hrun⟩ := bind_eq_ok.mp hrun
    dsimp only at hrun
    split at hrun
    · cases hrun
      exact hcsr
    · simp only [bind_eq_ok, pure_eq_ok] at hrun
      obtain ⟨_, -, _, -, _, -, _, -, heq⟩ := hrun
      cases heq
      exact hcsr
  | topoOrder =>
    obtain ⟨⟨order, g₁⟩, hrun, hok⟩ := bind_eq_ok.mp hok
    cases hok
    exact index_of_topoOrder hrun
  | isCyclic =>
    obtain ⟨⟨cyclic, g₁⟩, hrun, hok⟩ := bind_eq_ok.mp hok
    cases hok
    obtain ⟨⟨order, g₂⟩, htopo, heq⟩ := bind_eq_ok.mp hrun
    cases heq
    exact index_of_topoOrder htopo
  | sccLabels =>
    obtain ⟨⟨labels, g₁⟩, hrun, hok⟩ := bind_eq_ok.mp hok
    cases hok
    exact index_of_sccLabels hrun
  | sccCount =>
    obtain ⟨⟨count, g₁⟩, hrun, hok⟩ := bind_eq_ok.mp hok
    cases hok
    obtain ⟨⟨labels, g₂⟩, hlabels, heq⟩ := bind_eq_ok.mp hrun
    cases heq
    exact index_of_sccLabels hlabels

theorem runCall_ok (h : Agrees g n edges) (hok : runCall fuel g call = .ok g') :
    Agrees g' (stage (n, edges) call).1 (stage (n, edges) call).2 := by
  cases call with
  | ensureNodes count =>
    cases hok
    exact h.ensureNodes count
  | addEdge src dst => exact (h.addEdge src dst).2 g' hok
  | _ => exact (ensureCsr_ok h (index_of_call hok (by simp) (by simp))).2

theorem Agrees.new : Agrees .new 0 [] :=
  ⟨rfl, by decide, rfl, Nat.zero_le _, ⟨4, by decide, rfl⟩, fun p hp => absurd hp List.not_mem_nil,
    fun hfresh => absurd hfresh Bool.false_ne_true⟩

theorem runCalls_ok (hok : runCalls fuel calls = .ok g) :
    Agrees g (nodesOf calls) (edgesOf calls) := by
  suffices h : ∀ (calls : List GraphCall) (g : IndexGraph) (st : Nat × List (Nat × Nat)),
      Agrees g st.1 st.2 → ∀ g', calls.foldlM (runCall fuel) g = .ok g' →
        Agrees g' (calls.foldl stage st).1 (calls.foldl stage st).2 from
    h calls .new (0, []) .new g hok
  intro calls
  induction calls with
  | nil =>
    intro g st hg g' hrun
    cases hrun
    exact hg
  | cons call rest ih =>
    intro g st hg g'' hrun
    rw [List.foldlM_cons, bind_eq_ok] at hrun
    obtain ⟨g', hcall, hrest⟩ := hrun
    exact ih g' (stage st call) (runCall_ok hg hcall) g'' hrest

theorem runCalls_spec (calls : List GraphCall) (hfits : Fits (calls.foldl stage (0, [])))
    (hfuel : enoughFor (nodesOf calls) (edgesOf calls) ≤ fuel) :
    ∃ g, runCalls fuel calls = .ok g ∧ Agrees g (nodesOf calls) (edgesOf calls) := by
  suffices h : ∀ (calls : List GraphCall) (g : IndexGraph) (st : Nat × List (Nat × Nat)),
      Agrees g st.1 st.2 → Fits (calls.foldl stage st) →
      enoughFor (calls.foldl stage st).1 (calls.foldl stage st).2 ≤ fuel →
      ∃ g', calls.foldlM (runCall fuel) g = .ok g' ∧
        Agrees g' (calls.foldl stage st).1 (calls.foldl stage st).2 from
    h calls .new (0, []) .new hfits hfuel
  intro calls
  induction calls with
  | nil =>
    intro g st hg _ _
    exact ⟨g, rfl, hg⟩
  | cons call rest ih =>
    intro g st hg hfits hfuel
    obtain ⟨hnodes, hedges⟩ := stages_mono st (call :: rest)
    obtain ⟨hnodes', hedges'⟩ := stages_mono (stage st call) rest
    have hnow : enoughFor st.1 st.2 ≤ fuel := by
      rw [enoughFor] at hfuel ⊢
      omega
    have hcall : Fits (stage st call) :=
      ⟨Nat.lt_of_le_of_lt (Nat.succ_le_succ hnodes') hfits.1, Nat.le_trans hedges' hfits.2⟩
    obtain ⟨g', hrun, hg'⟩ := runCall_spec hg hnow call hcall
    obtain ⟨g'', hrest, hg''⟩ := ih g' (stage st call) hg' hfits hfuel
    exact ⟨g'', by rw [List.foldlM_cons, hrun, ok_bind, hrest], hg''⟩

/-- The strongly connected components after any calls whose nodes and edges an `int32` can count,
and only after these. A run that needed more room than an array has would fail with `full`. -/
theorem sccLabels_components (calls : List GraphCall) :
    (∃ enough, ∀ fuel ≥ enough, ∃ g labels count g', runCalls fuel calls = .ok g ∧
      g.sccLabels fuel = .ok (labels, g') ∧ g.sccCount fuel = .ok (count, g') ∧
      Components (rowOf (edgesOf calls)) (nodesOf calls) labels count) ↔
    nodesOf calls + 1 < 2 ^ 31 ∧ (edgesOf calls).length ≤ 2 ^ 30 := by
  constructor
  · rintro ⟨enough, hall⟩
    obtain ⟨g, labels, count, g', hrun, hlabels, -⟩ := hall enough (Nat.le_refl _)
    have hg := runCalls_ok hrun
    exact ⟨(ensureCsr_ok hg (index_of_sccLabels hlabels)).1, hg.length_le⟩
  · intro hfits
    refine ⟨enoughFor (nodesOf calls) (edgesOf calls), fun fuel hfuel => ?_⟩
    obtain ⟨g, hrun, hg⟩ := runCalls_spec calls hfits hfuel
    obtain ⟨labels, count, g', hlabels, hcount, -, hcomponents⟩ := sccCount_spec hg hfits.1 hfuel
    exact ⟨g, labels, count, g', hrun, hlabels, hcount, hcomponents⟩

/-- With as many nodes as an `int32` can count, the index has no size. -/
theorem sccLabels_maxNodes : ¬∃ enough, ∀ fuel ≥ enough, ∃ g labels count g',
    runCalls fuel [.ensureNodes Int32.maxValue] = .ok g ∧ g.sccLabels fuel = .ok (labels, g') ∧
      g.sccCount fuel = .ok (count, g') ∧
      Components (rowOf (edgesOf [.ensureNodes Int32.maxValue]))
        (nodesOf [.ensureNodes Int32.maxValue]) labels count := by
  rintro ⟨enough, hall⟩
  obtain ⟨g, labels, count, g', hrun, hlabels, -⟩ := hall enough (Nat.le_refl _)
  have hfails : ∃ g, runCalls enough [.ensureNodes Int32.maxValue] = .ok g ∧
      g.sccLabels enough = .error .negativeSize := ⟨_, rfl, rfl⟩
  obtain ⟨g₁, hrun₁, hfails⟩ := hfails
  rw [hrun₁] at hrun
  cases hrun
  rw [hfails] at hlabels
  cases hlabels

/-- The answers of the traversals of a graph. -/
structure Traverses (fuel : Nat) (g : IndexGraph) (row : Nat → List Nat) (n : Nat) : Prop where
  reachableFrom : ∀ roots, roots.length < 2 ^ 31 →
    ∃ seen g', g.reachableFrom fuel roots = .ok (seen, g') ∧ Reachable row n roots seen
  bfsOrder : ∀ root : Nat, root < n → ∃ order g', g.bfsOrder fuel root = .ok (order, g') ∧
    BreadthFirst row root order
  dfsOrder : ∀ root : Nat, root < n → ∃ order g', g.dfsOrder fuel root = .ok (order, g') ∧
    ∀ order', Preorder row [root] [] order' ↔ order' = order
  noRoot : ∀ root : Int, root < 0 ∨ root ≥ n →
    (∃ g', g.bfsOrder fuel root = .ok ([], g')) ∧ ∃ g', g.dfsOrder fuel root = .ok ([], g')
  topoOrder : ∃ order g', g.topoOrder fuel = .ok (order, g') ∧ order.Nodup ∧ (∀ v ∈ order, v < n) ∧
    order.length ≤ n ∧ (order.length = n ↔ ∀ v, ¬ TransGen (Leads row) v v) ∧
    (order.length = n → ∀ u v, v ∈ row u → ∃ a b c, order = a ++ u :: b ++ v :: c)
  isCyclic : ∃ cyclic g', g.isCyclic fuel = .ok (cyclic, g') ∧
    (cyclic = true ↔ ∃ v, TransGen (Leads row) v v)

theorem Agrees.traverses (h : Agrees g n edges) (hn : n + 1 < 2 ^ 31)
    (hfuel : enoughFor n edges ≤ fuel) :
    Traverses fuel g (rowOf edges) n := by
  have hback : ∀ u v, Leads (rowOf edges) u v → u < n := fun u v huv =>
    (h.inside (u, v) (mem_rowOf.mp huv)).1
  refine ⟨fun roots hroots => ?_, fun root hroot => ?_, fun root hroot => ?_,
    fun root hroot => ?_, ?_, ?_⟩
  · obtain ⟨seen, g', hrun, -, hseen⟩ := reachableFrom_spec h hn hfuel roots
    exact ⟨seen, g', hrun, hseen hroots⟩
  · obtain ⟨order, g', hrun, -, -, horder⟩ := bfsOrder_spec h hn hfuel root
    exact ⟨order, g', hrun, horder root rfl hroot⟩
  · obtain ⟨order, g', hrun, -, -, horder⟩ := dfsOrder_spec h hn hfuel root
    have hpreorder := horder root rfl hroot
    refine ⟨order, g', hrun, fun order' => ⟨fun h' => h'.unique hpreorder, ?_⟩⟩
    rintro rfl
    exact hpreorder
  · obtain ⟨bfs, g₁, hbfs, -, hnone, -⟩ := bfsOrder_spec h hn hfuel root
    obtain ⟨dfs, g₂, hdfs, -, hnone', -⟩ := dfsOrder_spec h hn hfuel root
    obtain rfl := hnone hroot
    obtain rfl := hnone' hroot
    exact ⟨⟨g₁, hbfs⟩, g₂, hdfs⟩
  · obtain ⟨order, g', hrun, -, horder⟩ := topoOrder_spec h hn hfuel
    have hfull := horder.length_eq_iff hback
    refine ⟨order, g', hrun, horder.nodup, horder.inside,
      length_le_of_nodup horder.nodup horder.inside, ?_, fun hlen u v hv => ?_⟩
    · rw [hfull]
      constructor
      · intro hnone v hcycle
        obtain ⟨w, hedge, -⟩ := TransGen.head'_iff.mp hcycle
        exact hnone v (hback v w hedge) hcycle
      · intro hnone v _
        exact hnone v
    · have hvin : v ∈ order := by
        by_contra hnot
        have hvn := h.rows_inside u (hback u v hv) v hv
        exact Nat.ne_of_lt (length_lt_of_not_mem horder.nodup horder.inside hvn hnot) hlen
      obtain ⟨front, c, rfl⟩ := List.append_of_mem hvin
      obtain ⟨a, b, rfl⟩ := List.append_of_mem (horder.forward front v c rfl u hv)
      exact ⟨a, b, c, rfl⟩
  · obtain ⟨cyclic, g', hrun, -, hcyclic⟩ := isCyclic_spec h hn hfuel
    exact ⟨cyclic, g', hrun, hcyclic⟩

/-- The traversals after any calls whose nodes and edges an `int32` can count answer for all edges
that the calls have added; after other calls there is no answer. -/
theorem traversals_exact (calls : List GraphCall) :
    (∃ enough, ∀ fuel ≥ enough, ∃ g, runCalls fuel calls = .ok g ∧
      Traverses fuel g (rowOf (edgesOf calls)) (nodesOf calls)) ↔
    nodesOf calls + 1 < 2 ^ 31 ∧ (edgesOf calls).length ≤ 2 ^ 30 := by
  constructor
  · rintro ⟨enough, hall⟩
    obtain ⟨g, hrun, htraverses⟩ := hall enough (Nat.le_refl _)
    have hg := runCalls_ok hrun
    obtain ⟨order, g', htopo, -⟩ := htraverses.topoOrder
    exact ⟨(ensureCsr_ok hg (index_of_topoOrder htopo)).1, hg.length_le⟩
  · intro hfits
    refine ⟨enoughFor (nodesOf calls) (edgesOf calls), fun fuel hfuel => ?_⟩
    obtain ⟨g, hrun, hg⟩ := runCalls_spec calls hfits hfuel
    exact ⟨g, hrun, hg.traverses hfits.1 hfuel⟩

/-- With as many nodes as an `int32` can count, no traversal starts. -/
theorem traversals_maxNodes : ¬∃ enough, ∀ fuel ≥ enough, ∃ g,
    runCalls fuel [.ensureNodes Int32.maxValue] = .ok g ∧
      Traverses fuel g (rowOf (edgesOf [.ensureNodes Int32.maxValue]))
        (nodesOf [.ensureNodes Int32.maxValue]) := by
  rintro ⟨enough, hall⟩
  obtain ⟨g, hrun, htraverses⟩ := hall enough (Nat.le_refl _)
  obtain ⟨order, g', htopo, -⟩ := htraverses.topoOrder
  have hfails : ∃ g, runCalls enough [.ensureNodes Int32.maxValue] = .ok g ∧
      g.topoOrder enough = .error .negativeSize := ⟨_, rfl, rfl⟩
  obtain ⟨g₁, hrun₁, hfails⟩ := hfails
  rw [hrun₁] at hrun
  cases hrun
  rw [hfails] at htopo
  cases htopo

end

end Cajeta.Collection.Graph
