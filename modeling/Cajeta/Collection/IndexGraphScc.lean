import Cajeta.Collection.IndexGraphFinish

/-!
# The strongly connected components

The second pass takes the nodes from the one finished last on. A node without a label is the last of
its component, so the blank nodes that lead to it are exactly the component.
-/

namespace Cajeta.Collection.Graph
open Except Relation Traversal While

section

variable {row pred : Nat → List Nat} {n : Nat} {csr : Csr} {fin : List Nat} {comp : List Int}
  {nextLabel : Int}

/-- The labels when the nodes of `done` have been swept: a node has one exactly when it is in the
component of a swept node. -/
structure Labelled (row : Nat → List Nat) (n : Nat) (done : List Nat) (comp : List Int)
    (nextLabel : Int) : Prop where
  length : comp.length = n
  nonneg : 0 ≤ nextLabel
  label : ∀ w < n, (comp[w]? = some (-1) ∧ ∀ x ∈ done, ¬ Mutual (Leads row) x w) ∨
    ∃ l, comp[w]? = some l ∧ (0 ≤ l ∧ l < nextLabel) ∧ ∃ x ∈ done, Mutual (Leads row) x w
  dense : ∀ k, 0 ≤ k → k < nextLabel → ∃ w < n, comp[w]? = some k
  same : ∀ u v l m, comp[u]? = some l → comp[v]? = some m → 0 ≤ l → 0 ≤ m →
    (l = m ↔ Mutual (Leads row) u v)
  forward : ∀ u v l m, comp[u]? = some l → comp[v]? = some m → 0 ≤ l → 0 ≤ m →
    Leads row u v → l ≤ m

/-- `seed` is the node of its component that is finished last: it is not in the component of a node
that has been swept. -/
structure Seed (row : Nat → List Nat) (n : Nat) (fin front : List Nat) (seed : Nat)
    (done : List Nat) : Prop where
  order : FinishOrder (Leads row) fin
  nodup : fin.Nodup
  all : ∀ v, v ∈ fin ↔ v < n
  inside : Inside row n
  parts : fin = front ++ seed :: done.reverse
  last : ∀ g ∈ done.reverse, ¬ Mutual (Leads row) seed g

theorem Seed.lt (h : Seed row n fin front seed done) : seed < n :=
  (h.all seed).mp (h.parts ▸ List.mem_append_right _ List.mem_cons_self)

theorem Seed.reached_iff (h : Seed row n fin front seed done)
    (hpred : ∀ u v, v ∈ pred u ↔ u ∈ row v) (hmarks : ∀ w < n, w ≠ seed →
      (marks[w]? = some (-1) ↔ ∀ g ∈ done, ¬ Mutual (Leads row) g w)) (hw : w < n)
    (hne : w ≠ seed) :
    (marks[w]? = some (-1) ∧ Reached pred marks (-1) [seed] w) ↔ Mutual (Leads row) w seed := by
  have hreachFin : ∀ x y, x ∈ fin → Mutual (Leads row) x y → y ∈ fin := fun x y hx hxy =>
    (h.all y).mpr (h.inside.reach ((h.all x).mp hx) hxy.1)
  constructor
  · rintro ⟨hblank, s, hs, hway⟩
    rw [List.mem_singleton.mp hs] at hway
    have hleads : ReflTransGen (Leads row) w seed := by
      clear hblank hne hw
      induction hway with
      | refl => exact .refl
      | tail _ hedge ih => exact ih.head ((hpred _ _).mp hedge.1)
    refine h.order.mutual_of_reach h.nodup h.parts hreachFin ((h.all w).mpr hw) hleads ?_
    exact fun g hg hwg => (hmarks w hw hne).mp hblank g (List.mem_reverse.mp hg) hwg.symm
  · intro hmutual
    -- all nodes on the way to `seed` are in the component, and none of it has a label yet
    have hblank : ∀ y, Mutual (Leads row) y seed → y ≠ seed → marks[y]? = some (-1) := by
      intro y hy hyne
      have hyn : y < n := (h.all y).mp (hreachFin seed y ((h.all seed).mpr h.lt) hy.symm)
      exact (hmarks y hyn hyne).mpr fun g hg hgy =>
        h.last g (List.mem_reverse.mpr hg) (hgy.trans hy).symm
    refine ⟨hblank w hmutual hne, seed, List.mem_singleton_self seed, ?_⟩
    obtain ⟨hto, hfrom⟩ := hmutual
    clear hw hne
    induction hto using ReflTransGen.head_induction_on with
    | refl => exact .refl
    | @head x y hxy hyseed ih =>
      by_cases hx : x = seed
      · exact hx ▸ .refl
      · exact (ih (hfrom.tail hxy)).tail ⟨(hpred y x).mpr hxy, hblank x ⟨hyseed.head hxy, hfrom⟩ hx⟩

theorem Labelled.component (h : Labelled row n done comp nextLabel)
    (hseed : Seed row n fin front seed done) (hlen : comp'.length = n)
    (hnew : ∀ w < n, Mutual (Leads row) w seed → comp'[w]? = some nextLabel)
    (hold : ∀ w < n, ¬ Mutual (Leads row) w seed → comp'[w]? = comp[w]?) :
    Labelled row n (done ++ [seed]) comp' (nextLabel + 1) := by
  have hnonneg := h.nonneg
  have hlt : ∀ {w l}, comp'[w]? = some l → w < n := fun hget =>
    hlen ▸ (List.getElem?_eq_some_iff.mp hget).1
  have hbound : ∀ {w l}, w < n → comp[w]? = some l → l < nextLabel := by
    intro w l hw hget
    rcases h.label w hw with ⟨hblank, -⟩ | ⟨l', hget', hl, -⟩
    · obtain rfl := Option.some.inj (hget.symm.trans hblank)
      omega
    · obtain rfl := Option.some.inj (hget.symm.trans hget')
      exact hl.2
  have hswept : ∀ {w l}, w < n → comp[w]? = some l → 0 ≤ l → ∃ x ∈ done,
    Mutual (Leads row) x w := by
    intro w l hw hget hl
    rcases h.label w hw with ⟨hblank, -⟩ | ⟨l', hget', -, hex⟩
    · obtain rfl := Option.some.inj (hget.symm.trans hblank)
      exact absurd hl (by decide)
    · exact hex
  refine ⟨hlen, by omega, fun w hw => ?_, fun k hk0 hk => ?_, fun u v l m hu hv hl hm => ?_,
    fun u v l m hu hv hl hm huv => ?_⟩
  · by_cases hmutual : Mutual (Leads row) w seed
    · exact .inr ⟨nextLabel, hnew w hw hmutual, ⟨by omega, by omega⟩, seed,
        List.mem_append_right _ (List.mem_singleton_self seed), hmutual.symm⟩
    · rw [hold w hw hmutual]
      rcases h.label w hw with ⟨hblank, hnot⟩ | ⟨l, hget, hl, x, hx, hxw⟩
      · refine .inl ⟨hblank, fun x hx hxw => ?_⟩
        rcases List.mem_append.mp hx with hx | hx
        · exact hnot x hx hxw
        · rw [List.mem_singleton.mp hx] at hxw
          exact hmutual hxw.symm
      · exact .inr ⟨l, hget, ⟨hl.1, by omega⟩, x, List.mem_append_left _ hx, hxw⟩
  · rcases Int.lt_or_eq_of_le (Int.lt_add_one_iff.mp hk) with hk | rfl
    · obtain ⟨w, hw, hget⟩ := h.dense k hk0 hk
      refine ⟨w, hw, ?_⟩
      rw [hold w hw fun hmutual => ?_]
      · exact hget
      · obtain ⟨x, hx, hxw⟩ := hswept hw hget hk0
        exact hseed.last x (List.mem_reverse.mpr hx) (hxw.trans hmutual).symm
    · exact ⟨seed, hseed.lt, hnew seed hseed.lt (.refl seed)⟩
  · have hun := hlt hu
    have hvn := hlt hv
    by_cases hus : Mutual (Leads row) u seed
    · obtain rfl := Option.some.inj ((hnew u hun hus).symm.trans hu)
      by_cases hvs : Mutual (Leads row) v seed
      · obtain rfl := Option.some.inj ((hnew v hvn hvs).symm.trans hv)
        exact ⟨fun _ => hus.trans hvs.symm, fun _ => rfl⟩
      · rw [hold v hvn hvs] at hv
        have hb := hbound hvn hv
        exact ⟨fun heq => absurd heq (by omega), fun huv => absurd (huv.symm.trans hus) hvs⟩
    · rw [hold u hun hus] at hu
      have hb := hbound hun hu
      by_cases hvs : Mutual (Leads row) v seed
      · obtain rfl := Option.some.inj ((hnew v hvn hvs).symm.trans hv)
        exact ⟨fun heq => absurd heq (by omega), fun huv => absurd (huv.trans hvs) hus⟩
      · rw [hold v hvn hvs] at hv
        exact h.same u v l m hu hv hl hm
  · have hun := hlt hu
    have hvn := hlt hv
    by_cases hus : Mutual (Leads row) u seed
    · obtain rfl := Option.some.inj ((hnew u hun hus).symm.trans hu)
      by_cases hvs : Mutual (Leads row) v seed
      · obtain rfl := Option.some.inj ((hnew v hvn hvs).symm.trans hv)
        exact Int.le_refl _
      · -- `v` cannot have got its label from a node behind `seed`
        rw [hold v hvn hvs] at hv
        obtain ⟨x, hx, hxv⟩ := hswept hvn hv hm
        exact absurd hxv.symm (hseed.order.not_mutual_of_edge hseed.nodup hseed.parts
          (fun w hw => (hseed.all w).mpr (hseed.inside.reach hseed.lt hw.1)) hseed.last hus.symm huv
          x (List.mem_reverse.mpr hx))
    · rw [hold u hun hus] at hu
      have hb := hbound hun hu
      by_cases hvs : Mutual (Leads row) v seed
      · obtain rfl := Option.some.inj ((hnew v hvn hvs).symm.trans hv)
        omega
      · rw [hold v hvn hvs] at hv
        exact h.forward u v l m hu hv hl hm huv

theorem Labelled.again (h : Labelled row n done comp nextLabel)
    (hseed : ∃ x ∈ done, Mutual (Leads row) x seed) :
    Labelled row n (done ++ [seed]) comp nextLabel := by
  refine ⟨h.length, h.nonneg, fun w hw => ?_, h.dense, h.same, h.forward⟩
  rcases h.label w hw with ⟨hblank, hnot⟩ | ⟨l, hget, hl, x, hx, hxw⟩
  · refine .inl ⟨hblank, fun x hx hxw => ?_⟩
    rcases List.mem_append.mp hx with hx | hx
    · exact hnot x hx hxw
    · obtain ⟨y, hy, hyseed⟩ := hseed
      rw [List.mem_singleton.mp hx] at hxw
      exact hnot y hy (hyseed.trans hxw)
  · exact .inr ⟨l, hget, hl, x, List.mem_append_left _ hx, hxw⟩

theorem labelFrom_spec (fuel : Nat) (hcsr : Indexes csr n pred) (hpredIn : Inside pred n)
    (hpred : ∀ u v, v ∈ pred u ↔ u ∈ row v) (hfuel : ∀ u < n, (pred u).length < fuel)
    (hsize : 2 * n < fuel) (horder : FinishOrder (Leads row) fin) (hnodup : fin.Nodup)
    (hall : ∀ v, v ∈ fin ↔ v < n) (hrow : Inside row n)
    (hparts : fin = front ++ seed :: done.reverse) (h : Labelled row n done comp nextLabel) :
    ∃ st, labelFrom fuel csr n (comp, nextLabel) seed = .ok st ∧
      Labelled row n (done ++ [seed]) st.1 st.2 := by
  have hseed : seed < n := (hall seed).mp (hparts ▸ List.mem_append_right _ List.mem_cons_self)
  have hlen := h.length
  have hnonneg := h.nonneg
  rcases h.label seed hseed with ⟨hblank, hnot⟩ | ⟨l, hget, hl, hex⟩
  · have hS : Seed row n fin front seed done := ⟨horder, hnodup, hall, hrow, hparts,
      fun g hg hmutual => hnot g (List.mem_reverse.mp hg) hmutual.symm⟩
    have hself : (comp.set seed nextLabel)[seed]? = some nextLabel :=
      List.getElem?_set_self (by omega)
    have hother : ∀ w, w ≠ seed → (comp.set seed nextLabel)[w]? = comp[w]? := fun w hw =>
      List.getElem?_set_ne (Ne.symm hw)
    have hcount := count_set_of_blank hblank (show nextLabel ≠ -1 by omega)
    have hle : comp.count (-1) ≤ comp.length := List.count_le_length
    have hmarks : ∀ w < n, w ≠ seed → ((comp.set seed nextLabel)[w]? = some (-1) ↔
        ∀ g ∈ done, ¬ Mutual (Leads row) g w) := by
      intro w hw hne
      rw [hother w hne]
      rcases h.label w hw with ⟨hw', hnot'⟩ | ⟨l, hget, hl, x, hx, hxw⟩
      · exact ⟨fun _ => hnot', fun _ => hw'⟩
      · refine ⟨fun heq => ?_, fun hnone => absurd hxw (hnone x hx)⟩
        obtain rfl := Option.some.inj (hget.symm.trans heq)
        omega
    have hin : ∀ x ∈ [seed], x < n := fun x hx => List.mem_singleton.mp hx ▸ hseed
    have hmarked : ∀ x ∈ [seed], (comp.set seed nextLabel)[x]? ≠ some (-1) := by
      intro x hx heq
      rw [List.mem_singleton.mp hx, hself] at heq
      obtain rfl := Option.some.inj heq
      omega
    obtain ⟨comp', hwalk, hlen', hcomp'⟩ := walk_spec fuel hcsr hpredIn
      (show nextLabel ≠ -1 by omega) hfuel (by rw [List.length_set, hlen]) hin hmarked
      (by rw [List.length_singleton]; omega) hsize
    rw [labelFrom, get_eq hblank, ok_bind, if_pos rfl, put_eq (by omega), ok_bind, push,
      if_pos (by rw [List.length_nil]; omega), ok_bind, hwalk]
    refine ⟨_, rfl, h.component hS hlen' (fun w hw hmutual => ?_) fun w hw hnotMutual => ?_⟩
    · by_cases hne : w = seed
      · subst hne
        rw [(hcomp' w hw).2 (.inl fun heq => ?_), hself]
        obtain rfl := Option.some.inj (hself.symm.trans heq)
        omega
      · obtain ⟨hblankw, hreach⟩ := (hS.reached_iff hpred hmarks hw hne).mpr hmutual
        exact (hcomp' w hw).1 hblankw hreach
    · have hne : w ≠ seed := by
        rintro rfl
        exact hnotMutual (.refl w)
      rw [← hother w hne]
      refine (hcomp' w hw).2 ?_
      by_cases hblankw : (comp.set seed nextLabel)[w]? = some (-1)
      · exact .inr fun hreach =>
          hnotMutual ((hS.reached_iff hpred hmarks hw hne).mp ⟨hblankw, hreach⟩)
      · exact .inl hblankw
  · rw [labelFrom, get_eq hget, ok_bind, if_neg (by omega)]
    exact ⟨_, rfl, h.again hex⟩

/-- What the labels of a graph say about it. -/
structure Components (row : Nat → List Nat) (n : Nat) (comp : List Int) (count : Int) : Prop where
  length : comp.length = n
  same : ∀ u < n, ∀ v < n, comp[u]? = comp[v]? ↔ Mutual (Leads row) u v
  range : ∀ u < n, ∃ l, comp[u]? = some l ∧ 0 ≤ l ∧ l < count
  dense : ∀ k, 0 ≤ k → k < count → ∃ u < n, comp[u]? = some k
  forward : ∀ u < n, ∀ v ∈ row u, ¬ Mutual (Leads row) u v →
    ∃ l m, comp[u]? = some l ∧ comp[v]? = some m ∧ l < m

theorem Labelled.components (h : Labelled row n done comp nextLabel) (hrow : Inside row n)
    (hall : ∀ v < n, v ∈ done) : Components row n comp nextLabel := by
  have hrange : ∀ u < n, ∃ l, comp[u]? = some l ∧ 0 ≤ l ∧ l < nextLabel := by
    intro u hu
    rcases h.label u hu with ⟨-, hnot⟩ | ⟨l, hget, hl, -⟩
    · exact absurd (.refl u) (hnot u (hall u hu))
    · exact ⟨l, hget, hl⟩
  refine ⟨h.length, fun u hu v hv => ?_, hrange, h.dense, fun u hu v hv hnot => ?_⟩
  · obtain ⟨l, hl, hl0, -⟩ := hrange u hu
    obtain ⟨m, hm, hm0, -⟩ := hrange v hv
    rw [hl, hm, Option.some_inj]
    exact h.same u v l m hl hm hl0 hm0
  · obtain ⟨l, hl, hl0, -⟩ := hrange u hu
    obtain ⟨m, hm, hm0, -⟩ := hrange v (hrow u hu v hv)
    refine ⟨l, m, hl, hm, lt_of_le_of_ne (h.forward u v l m hl hm hl0 hm0 hv) ?_⟩
    exact fun heq => hnot ((h.same u v l m hl hm hl0 hm0).mp heq)

theorem label_spec (fuel : Nat) (hcsr : Indexes csr n pred) (hpredIn : Inside pred n)
    (hpred : ∀ u v, v ∈ pred u ↔ u ∈ row v) (hfuel : ∀ u < n, (pred u).length < fuel)
    (hsize : 2 * n < fuel) (horder : FinishOrder (Leads row) fin) (hnodup : fin.Nodup)
    (hall : ∀ v, v ∈ fin ↔ v < n) (hrow : Inside row n) :
    ∃ st, fin.reverse.foldlM (labelFrom fuel csr n) (List.replicate n (-1), 0) = .ok st ∧
      (0 ≤ st.2 ∧ Components row n st.1 st.2) := by
  have hfold : ∃ st, fin.reverse.foldlM (labelFrom fuel csr n) (List.replicate n (-1), 0) = .ok st ∧
      Labelled row n fin.reverse st.1 st.2 := by
    refine fold_ok (I :=
      fun done (st : List Int × Int) => Labelled row n done st.1 st.2) fin.reverse
      (fun done seed rest st hdone hst => ?_) ?_
    · have hparts : fin = rest.reverse ++ seed :: done.reverse := by
        rw [← List.reverse_reverse fin, ← hdone, List.reverse_append, List.reverse_cons,
          List.append_assoc]
        rfl
      exact labelFrom_spec fuel hcsr hpredIn hpred hfuel hsize horder hnodup hall hrow hparts hst
    · have hblank : ∀ w < n, (List.replicate n (-1 : Int))[w]? = some (-1) := fun w hw => by
        rw [List.getElem?_replicate, if_pos hw]
      have hneg : ∀ (w : Nat) (l : Int), (List.replicate n (-1 : Int))[w]? = some l → ¬ 0 ≤ l := by
        intro w l hget hl
        have hw : w < n := by
          simpa using (List.getElem?_eq_some_iff.mp hget).1
        obtain rfl := Option.some.inj ((hblank w hw).symm.trans hget)
        exact absurd hl (by decide)
      exact ⟨List.length_replicate, Int.le_refl 0,
        fun w hw => .inl ⟨hblank w hw, fun x hx => absurd hx List.not_mem_nil⟩,
        fun k hk0 hk => absurd hk (Int.not_lt.mpr hk0),
        fun u v l m hu _ hl => absurd hl (hneg u l hu),
        fun u v l m hu _ hl => absurd hl (hneg u l hu)⟩
  obtain ⟨st, hfold, hst⟩ := hfold
  exact ⟨st, hfold, hst.nonneg,
    hst.components hrow fun v hv => List.mem_reverse.mpr ((hall v).mpr hv)⟩

theorem maxLabel_spec (labels : List Int) (start : Int) :
    ∃ top, labels.foldl (fun maxLabel label => if label > maxLabel then label else maxLabel) start =
      top ∧ start ≤ top ∧ (∀ l ∈ labels, l ≤ top) ∧ (top = start ∨ top ∈ labels) := by
  induction labels generalizing start with
  | nil => exact ⟨start, rfl, Int.le_refl _, fun l hl => absurd hl List.not_mem_nil, .inl rfl⟩
  | cons label rest ih =>
    obtain ⟨top, hfold, hstart, hle, htop⟩ := ih (if label > start then label else start)
    refine ⟨top, hfold, ?_, fun l hl => ?_, ?_⟩
    · split at hstart <;> omega
    · rcases List.mem_cons.mp hl with rfl | hl
      · split at hstart <;> omega
      · exact hle l hl
    · rcases htop with htop | htop
      · split at htop
        · exact .inr (htop ▸ List.mem_cons_self)
        · exact .inl htop
      · exact .inr (List.mem_cons_of_mem _ htop)

theorem Components.maxLabel_eq (h : Components row n comp count) (hcount : 0 ≤ count) :
    comp.foldl (fun maxLabel label => if label > maxLabel then label else maxLabel) (-1) + 1 =
      count := by
  obtain ⟨top, hfold, hstart, hle, htop⟩ := maxLabel_spec comp (-1)
  rw [hfold]
  have hupper : top < count := by
    rcases htop with rfl | htop
    · omega
    · obtain ⟨u, hu, hget⟩ := List.mem_iff_getElem.mp htop
      obtain ⟨l, hl, hlt⟩ := h.range u (h.length ▸ hu)
      obtain rfl : top = l := by
        rw [← Option.some_inj, ← hl, ← hget, List.getElem?_eq_getElem hu]
      exact hlt.2
  have hlower : count - 1 ≤ top := by
    by_cases hzero : count = 0
    · omega
    · obtain ⟨u, -, hget⟩ := h.dense (count - 1) (by omega) (by omega)
      exact hle _ (List.mem_of_getElem? hget)
  omega

end

end Cajeta.Collection.Graph
