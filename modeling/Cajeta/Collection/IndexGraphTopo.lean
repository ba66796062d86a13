import Cajeta.Collection.IndexGraphOrders
import Cajeta.Lib.Traversal

/-!
# The topological order

A node is queued when the edges into it that have not been passed yet are none. The order is full
exactly when there is no cycle.
-/

namespace Cajeta.Collection.Graph
open Except Relation Traversal While

section

variable {row pred : Nat → List Nat} {n cur nxt : Nat} {csr : Csr} {indeg : List Int}
  {queue done rest passed : List Nat}

/-- The edges into `v` from nodes that have not been processed. -/
def open_ (pred : Nat → List Nat) (done : List Nat) (v : Nat) : Nat :=
  (pred v).countP fun u => decide (u ∉ done)

theorem count_le_open (hcur : cur ∉ done) : (pred v).count cur ≤ open_ pred done v := by
  refine List.countP_mono_left fun u _ hu => ?_
  rw [beq_iff_eq.mp hu]
  exact decide_eq_true hcur

theorem open_snoc (hcur : cur ∉ done) :
    open_ pred (done ++ [cur]) v + (pred v).count cur = open_ pred done v := by
  rw [open_, open_, List.count]
  induction pred v with
  | nil => rfl
  | cons u us ih =>
    simp only [List.countP_cons, List.mem_append, List.mem_singleton, not_or, Bool.decide_and,
      beq_iff_eq, Bool.and_eq_true, decide_eq_true_eq] at ih ⊢
    by_cases hu : u = cur
    · subst hu
      simp only [hcur, not_true_eq_false, and_false, if_false, not_false_eq_true, if_true]
      omega
    · by_cases hdone : u ∈ done
      · simp only [hu, hdone, not_true_eq_false, false_and, if_false]
        omega
      · simp only [hu, hdone, not_false_eq_true, and_self, if_true, if_false]
        omega

/-- The state while the edges of `cur` are passed. -/
structure Releasing (row pred : Nat → List Nat) (n : Nat) (done : List Nat) (cur : Nat)
    (passed : List Nat) (st : List Int × List Nat) : Prop where
  length : st.1.length = n
  nodup : st.2.Nodup
  inside : ∀ v ∈ st.2, v < n
  parts : ∃ rest, st.2 = done ++ cur :: rest
  indeg : ∀ v < n, ∃ d : Nat, st.1[v]? = some (d : Int) ∧ d + passed.count v = open_ pred done v ∧
    (v ∈ st.2 ↔ d = 0)
  forward : Forward (Leads row) st.2

theorem release_spec (hpred : ∀ u v, (row u).count v = (pred v).count u)
    (hrow : row cur = passed ++ nxt :: later) (hn : nxt < n)
    (h : Releasing row pred n done cur passed st) :
    ∃ st', release n nxt st = .ok st' ∧ Releasing row pred n done cur (passed ++ [nxt]) st' := by
  obtain ⟨indeg, queue⟩ := st
  obtain ⟨hlen, hnodup, hinside, ⟨rest, hparts⟩, hindeg, hforward⟩ := h
  dsimp only at hlen hnodup hinside hparts hindeg hforward
  have hcur : cur ∉ done := by
    intro hin
    rw [hparts] at hnodup
    exact (List.nodup_middle.mp hnodup).notMem (List.mem_append_left _ hin)
  obtain ⟨d, hd, hsum, hqueued⟩ := hindeg nxt hn
  -- the edge that is passed counts still
  have hpos : 0 < d := by
    have hle : (pred nxt).count cur ≤ open_ pred done nxt := count_le_open hcur
    rw [← hpred, hrow, List.count_append, List.count_cons_self] at hle
    omega
  have hself : (indeg.set nxt (d - 1))[nxt]? = some ((d : Int) - 1) :=
    List.getElem?_set_self (by omega)
  have hnot : nxt ∉ queue := fun hin => Nat.ne_of_gt hpos (hqueued.mp hin)
  have hcount : ∀ v, (passed ++ [nxt]).count v = passed.count v + if nxt = v then 1 else 0 := by
    intro v
    rw [List.count_append, List.count_singleton]
    simp only [beq_iff_eq]
  rw [release, get_eq hd, ok_bind, put_eq (by omega), ok_bind, get_eq hself, ok_bind]
  by_cases hlast : (d : Int) - 1 = 0
  · have hroom := length_lt_of_not_mem hnodup hinside hn hnot
    rw [if_pos hlast, append, if_pos hroom, ok_bind]
    refine ⟨_, rfl, by rw [List.length_set, hlen], ?_, fun v hv => ?_, ⟨rest ++ [nxt], ?_⟩,
      fun v hv => ?_, hforward.snoc fun u hu => ?_⟩
    · refine List.nodup_append.mpr ⟨hnodup, List.nodup_singleton nxt, fun x hx y hy heq => hnot ?_⟩
      rw [← List.mem_singleton.mp hy, ← heq]
      exact hx
    · rcases List.mem_append.mp hv with hv | hv
      · exact hinside v hv
      · exact List.mem_singleton.mp hv ▸ hn
    · dsimp only
      rw [hparts, List.append_assoc]
      rfl
    · dsimp only
      rw [hcount, List.mem_append, List.mem_singleton]
      by_cases hv' : nxt = v
      · subst hv'
        refine ⟨0, by rw [hself, hlast]; rfl, ?_, ?_⟩
        · rw [if_pos rfl]
          omega
        · simp only [or_true]
      · obtain ⟨d', hd', hsum', hqueued'⟩ := hindeg v hv
        refine ⟨d', by rw [List.getElem?_set_ne hv', hd'],
          by rw [if_neg hv', Nat.add_zero, hsum'], ?_⟩
        simp only [Ne.symm hv', or_false]
        exact hqueued'
    · -- the edges that count still are from `cur`
      have hpassed : passed.count nxt + 1 ≤ (pred nxt).count cur := by
        rw [← hpred, hrow, List.count_append, List.count_cons_self]
        omega
      have hsnoc : open_ pred (done ++ [cur]) nxt + (pred nxt).count cur = open_ pred done nxt :=
        open_snoc hcur
      have hzero : open_ pred (done ++ [cur]) nxt = 0 := by omega
      have huin : u ∈ pred nxt := by
        rw [← List.count_pos_iff, ← hpred]
        exact List.count_pos_iff.mpr hu
      have hdone := List.countP_eq_zero.mp hzero u huin
      rw [decide_eq_true_eq, not_not] at hdone
      rw [hparts, List.append_cons]
      exact List.mem_append_left _ hdone
  · rw [if_neg hlast]
    refine ⟨_, rfl, by rw [List.length_set, hlen], hnodup, hinside, ⟨rest, hparts⟩, fun v hv => ?_,
      hforward⟩
    dsimp only
    rw [hcount]
    by_cases hv' : nxt = v
    · subst hv'
      refine ⟨d - 1, by rw [hself]; congr 1; omega, ?_, ?_⟩
      · rw [if_pos rfl]
        omega
      · exact ⟨fun hin => absurd hin hnot, fun hzero => absurd hzero (by omega)⟩
    · obtain ⟨d', hd', hsum', hqueued'⟩ := hindeg v hv
      exact ⟨d', by rw [List.getElem?_set_ne hv', hd'], by rw [if_neg hv', Nat.add_zero, hsum'],
        hqueued'⟩

/-- The state between two rounds. -/
structure Ordering (row pred : Nat → List Nat) (n : Nat) (done rest : List Nat) (indeg : List Int) :
    Prop where
  length : indeg.length = n
  nodup : (done ++ rest).Nodup
  inside : ∀ v ∈ done ++ rest, v < n
  indeg : ∀ v < n, indeg[v]? = some (open_ pred done v : Int) ∧
    (v ∈ done ++ rest ↔ open_ pred done v = 0)
  forward : Forward (Leads row) (done ++ rest)

theorem topoRound_spec (fuel : Nat) (hcsr : Indexes csr n row) (hrow : Inside row n)
    (hpred : ∀ u v, (row u).count v = (pred v).count u) (hfuel : ∀ u < n, (row u).length < fuel)
    (h : Ordering row pred n done (cur :: rest) indeg) :
    ∃ indeg' rest', topoRound fuel csr n (indeg, done ++ cur :: rest, done.length) =
        .ok (.again (indeg', done ++ [cur] ++ rest', (done ++ [cur]).length)) ∧
      Ordering row pred n (done ++ [cur]) rest' indeg' := by
  have hcur : cur < n := h.inside cur (List.mem_append_right _ List.mem_cons_self)
  have hdone : cur ∉ done := fun hin =>
    (List.nodup_middle.mp h.nodup).notMem (List.mem_append_left _ hin)
  have hget : (done ++ cur :: rest)[done.length]? = some cur := by
    rw [List.getElem?_append_right (Nat.le_refl _), Nat.sub_self]
    rfl
  have hlt : done.length < (done ++ cur :: rest).length := (List.getElem?_eq_some_iff.mp hget).1
  obtain ⟨⟨indeg', queue'⟩, hfold, hlen, hnodup, hinside, ⟨rest', hparts⟩, hindeg, hforward⟩ :
      ∃ st, (row cur).foldlM (fun s nxt => release n nxt s) (indeg, done ++ cur :: rest) = .ok st ∧
        Releasing row pred n done cur (row cur) st := by
    refine fold_ok (I := fun passed st => Releasing row pred n done cur passed st) (row cur)
      (fun passed nxt later st hparts hst => ?_)
      ⟨h.length, h.nodup, h.inside, ⟨rest, rfl⟩, fun v hv => ?_, h.forward⟩
    · have hedge : nxt ∈ row cur := hparts ▸ List.mem_append_right _ List.mem_cons_self
      exact release_spec hpred hparts.symm (hrow cur hcur nxt hedge) hst
    · obtain ⟨hd, hqueued⟩ := h.indeg v hv
      exact ⟨_, hd, rfl, hqueued⟩
  dsimp only at hlen hnodup hinside hparts hindeg hforward
  subst hparts
  refine ⟨indeg', rest', ?_, hlen, ?_, ?_, fun v hv => ?_, ?_⟩
  · rw [topoRound, if_pos hlt, get_eq hget, ok_bind,
      scanRow_eq hcsr hcur _ _ (hfuel cur hcur), hfold,
      ← List.append_cons, List.length_append]
    rfl
  · rw [← List.append_cons]
    exact hnodup
  · rw [← List.append_cons]
    exact hinside
  · obtain ⟨d, hd, hsum, hqueued⟩ := hindeg v hv
    have hsnoc : open_ pred (done ++ [cur]) v + (pred v).count cur = open_ pred done v :=
      open_snoc hdone
    rw [← hpred] at hsnoc
    obtain rfl : open_ pred (done ++ [cur]) v = d := by omega
    rw [← List.append_cons]
    exact ⟨hd, hqueued⟩
  · rw [← List.append_cons]
    exact hforward

theorem topoLoop_spec (fuel : Nat) (hcsr : Indexes csr n row) (hrow : Inside row n)
    (hpred : ∀ u v, (row u).count v = (pred v).count u) (hfuel : ∀ u < n, (row u).length < fuel)
    (hsize : n < fuel) (h : Ordering row pred n [] rest indeg) :
    ∃ order, loop .outOfFuel (topoRound fuel csr n) fuel (indeg, rest, 0) = .ok order ∧
      ∃ indeg', Ordering row pred n order [] indeg' := by
  refine loop_ok (I := fun st => ∃ done rest, st.2.1 = done ++ rest ∧ done.length = st.2.2 ∧
    Ordering row pred n done rest st.1) (fun st => n - st.2.2) (fun st hst => ?_)
    ⟨[], rest, rfl, rfl, h⟩ (by dsimp only; omega)
  obtain ⟨indeg, queue, head⟩ := st
  obtain ⟨done, rest, hqueue, hhead, hst⟩ := hst
  dsimp only at hqueue hhead hst
  subst hqueue hhead
  cases rest with
  | nil =>
    right
    rw [List.append_nil, topoRound, if_neg (Nat.lt_irrefl _)]
    exact ⟨done, rfl, indeg, hst⟩
  | cons cur rest =>
    left
    obtain ⟨indeg', rest', hbody, hst'⟩ := topoRound_spec fuel hcsr hrow hpred hfuel hst
    have hroom := length_le_of_nodup hst.nodup hst.inside
    rw [List.length_append, List.length_cons] at hroom
    refine ⟨_, hbody, ⟨done ++ [cur], rest', rfl, rfl, hst'⟩, ?_⟩
    dsimp only
    rw [List.length_append, List.length_singleton]
    omega

theorem enqueueRoots_spec (hindeg : ∀ v < n, indeg[v]? = some ((pred v).length : Int)) :
    ∃ queue : List Nat, (List.range n).foldlM (enqueueRoot n indeg) [] = .ok queue ∧
      (queue.Nodup ∧ ∀ v, v ∈ queue ↔ v ∈ List.range n ∧ (pred v).length = 0) := by
  refine fold_ok (I := fun (passed queue : List Nat) => queue.Nodup ∧
    ∀ v, v ∈ queue ↔ v ∈ passed ∧ (pred v).length = 0) (List.range n)
    (fun passed i later queue hparts hqueue => ?_)
    ⟨List.nodup_nil, fun v => by simp only [List.not_mem_nil, false_and]⟩
  obtain ⟨hnodup, hmem⟩ := hqueue
  obtain ⟨hi, hin⟩ := range_split hparts
  have hnotPassed : i ∉ passed := by
    have hrange := List.nodup_range (n := n)
    rw [← hparts] at hrange
    exact fun h => (List.nodup_middle.mp hrange).notMem (List.mem_append_left _ h)
  rw [enqueueRoot, get_eq (hindeg i hin), ok_bind]
  by_cases hzero : (pred i).length = 0
  · have hnot : i ∉ queue := fun h => hnotPassed ((hmem i).mp h).1
    have hinside : ∀ x ∈ queue, x < n := fun x hx => by
      have hrange : x ∈ List.range n := hparts ▸ List.mem_append_left _ ((hmem x).mp hx).1
      exact List.mem_range.mp hrange
    rw [if_pos (by omega), append, if_pos (length_lt_of_not_mem hnodup hinside hin hnot)]
    refine ⟨_, rfl, ?_, fun v => ?_⟩
    · refine List.nodup_append.mpr ⟨hnodup, List.nodup_singleton i, fun x hx y hy heq => hnot ?_⟩
      rw [← List.mem_singleton.mp hy, ← heq]
      exact hx
    · rw [List.mem_append, List.mem_append, hmem, List.mem_singleton]
      constructor
      · rintro (⟨hv, hnone⟩ | rfl)
        · exact ⟨.inl hv, hnone⟩
        · exact ⟨.inr rfl, hzero⟩
      · rintro ⟨hv | hv, hnone⟩
        · exact .inl ⟨hv, hnone⟩
        · exact .inr hv
  · rw [if_neg (by omega)]
    refine ⟨queue, rfl, hnodup, fun v => ?_⟩
    rw [hmem, List.mem_append, List.mem_singleton]
    constructor
    · rintro ⟨hv, hnone⟩
      exact ⟨.inl hv, hnone⟩
    · rintro ⟨hv | rfl, hnone⟩
      · exact ⟨hv, hnone⟩
      · exact absurd hnone hzero

theorem inDegrees_spec (hcsr : Indexes csr n pred) :
    (List.range n).mapM (inDegreeAt csr) =
      .ok ((List.range n).map fun v => ((pred v).length : Int)) := by
  have hlen : ((List.range n).map fun v => ((pred v).length : Int)).length = n := by
    rw [List.length_map, List.length_range]
  refine Eq.trans ?_ (mapM_range (f := inDegreeAt csr) fun i hi => ?_)
  · rw [hlen]
  rw [hlen] at hi
  obtain ⟨start, hstart, hstop, -⟩ := hcsr i hi
  rw [inDegreeAt, get_eq hstop, ok_bind, get_eq hstart, ok_bind, List.getElem_map,
    List.getElem_range]
  congr 1
  omega

/-- What a topological order says about its graph. -/
structure Topological (row : Nat → List Nat) (n : Nat) (order : List Nat) : Prop where
  nodup : order.Nodup
  inside : ∀ v ∈ order, v < n
  forward : Forward (Leads row) order
  complete : ∀ v < n, (∀ u, Leads row u v → u ∈ order) → v ∈ order

theorem Ordering.topological (hpred : ∀ u v, (row u).count v = (pred v).count u)
    (h : Ordering row pred n order [] indeg) : Topological row n order := by
  obtain ⟨-, hnodup, hinside, hindeg, hforward⟩ := h
  rw [List.append_nil] at hnodup hinside hindeg hforward
  refine ⟨hnodup, hinside, hforward, fun v hv hall => (hindeg v hv).2.mpr ?_⟩
  refine List.countP_eq_zero.mpr fun u hu => ?_
  have hedge : Leads row u v := by
    rw [Leads, ← List.count_pos_iff, hpred]
    exact List.count_pos_iff.mpr hu
  rw [decide_eq_true_eq, not_not]
  exact hall u hedge

theorem Topological.length_eq_iff (h : Topological row n order)
    (hback : ∀ u v, Leads row u v → u < n) :
    order.length = n ↔ ∀ v < n, ¬ TransGen (Leads row) v v := by
  constructor
  · intro hlen v hv
    -- a node that is not listed would make the list longer than there are nodes
    have hin : v ∈ order := by
      by_contra hnot
      exact Nat.ne_of_lt (length_lt_of_not_mem h.nodup h.inside hv hnot) hlen
    exact h.forward.not_cycle h.nodup hin
  · intro hacyclic
    have hwf : WellFounded fun u v : Fin n => Leads row u v :=
      wellFounded_of_acyclic fun v hcycle =>
      hacyclic v v.isLt (hcycle.lift Fin.val fun u v huv => huv)
    have hall : ∀ v : Fin n, (v : Nat) ∈ order := by
      intro v
      induction v using hwf.induction with
      | h v ih =>
        exact h.complete v v.isLt fun u huv => ih ⟨u, hback u v huv⟩ huv
    refine Nat.le_antisymm (length_le_of_nodup h.nodup h.inside) ?_
    have hle := (List.subperm_of_subset List.nodup_range fun v (hv : v ∈ List.range n) =>
      hall ⟨v, List.mem_range.mp hv⟩).length_le
    rwa [List.length_range] at hle

end

end Cajeta.Collection.Graph
