import Mathlib.Data.List.Nodup
import Mathlib.Logic.Relation
import Mathlib.Logic.Function.Basic
import Mathlib.Data.Fintype.Card
import Mathlib.Data.Fintype.EquivFin

/-!
# Orders in which a graph is traversed

The preorder of the recursive depth-first walk, and the order in which it finishes the nodes. From
the finish order alone the strongly connected components can be read off.
-/

namespace Traversal
open Relation

/-- The recursive walk over a list of nodes: a node that is not in the order yet is put there, then
the nodes it leads to are walked, then the rest of the list. -/
inductive Preorder (next : α → List α) : List α → List α → List α → Prop where
  | nil : Preorder next [] order order
  | seen : x ∈ order → Preorder next xs order order' → Preorder next (x :: xs) order order'
  | fresh : x ∉ order → Preorder next (next x) (order ++ [x]) mid →
      Preorder next xs mid order' → Preorder next (x :: xs) order order'

theorem Preorder.unique {next : α → List α} (h : Preorder next xs order order₁)
    (h' : Preorder next xs order order₂) : order₁ = order₂ := by
  induction h generalizing order₂ with
  | nil =>
    cases h'
    rfl
  | seen hx _ ih =>
    cases h' with
    | seen _ hrest => exact ih hrest
    | fresh hnot _ _ => exact absurd hx hnot
  | fresh hx _ _ ihNext ihRest =>
    cases h' with
    | seen hin _ => exact absurd hin hx
    | fresh _ hnext hrest =>
      obtain rfl := ihNext hnext
      exact ihRest hrest

/-- The walks that are still to be done, the innermost first. -/
inductive Rest (next : α → List α) : List (List α) → List α → List α → Prop where
  | nil : Rest next [] order order
  | cons : Preorder next row order mid → Rest next rows mid order' →
      Rest next (row :: rows) order order'

theorem Rest.pop {next : α → List α} (h : Rest next rows order order') :
    Rest next ([] :: rows) order order' := .cons .nil h

theorem Rest.skip {next : α → List α} (hx : x ∈ order)
    (h : Rest next (row :: rows) order order') : Rest next ((x :: row) :: rows) order order' := by
  cases h with
  | cons hrow hrest => exact .cons (.seen hx hrow) hrest

theorem Rest.descend {next : α → List α} (hx : x ∉ order)
    (h : Rest next (next x :: row :: rows) (order ++ [x]) order') :
    Rest next ((x :: row) :: rows) order order' := by
  cases h with
  | cons hnext h =>
    cases h with
    | cons hrow hrest => exact .cons (.fresh hx hnext hrow) hrest

/-! ## Components -/

variable {E : α → α → Prop}

/-- Each of the two can be reached from the other. -/
def Mutual (E : α → α → Prop) (u v : α) : Prop := ReflTransGen E u v ∧ ReflTransGen E v u

theorem Mutual.refl (u : α) : Mutual E u u := ⟨.refl, .refl⟩

theorem Mutual.symm (h : Mutual E u v) : Mutual E v u := ⟨h.2, h.1⟩

theorem Mutual.trans (h : Mutual E u v) (h' : Mutual E v w) : Mutual E u w :=
  ⟨h.1.trans h'.1, h'.2.trans h.2⟩

theorem exists_exit {P : α → Prop} (h : ReflTransGen E u v) (hu : P u) (hv : ¬ P v) :
    ∃ x y, ReflTransGen E u x ∧ E x y ∧ P x ∧ ¬ P y ∧ ReflTransGen E y v := by
  induction h using ReflTransGen.head_induction_on with
  | refl => exact absurd hu hv
  | @head x y hxy hyv ih =>
    by_cases hy : P y
    · obtain ⟨a, b, hya, hab, ha, hb, hbv⟩ := ih hy
      exact ⟨a, b, hya.head hxy, hab, ha, hb, hbv⟩
    · exact ⟨x, y, .refl, hxy, hu, hy, hyv⟩

/-- Nodes in the order in which a depth-first walk finishes them: what can be reached from a node is
finished with it, or a node of its component is finished later. -/
def FinishOrder (E : α → α → Prop) (fin : List α) : Prop :=
  ∀ front u back, fin = front ++ u :: back → ∀ v, ReflTransGen E u v →
    v ∈ front ++ [u] ∨ ∃ w, w ∉ front ++ [u] ∧ Mutual E u w

theorem FinishOrder.nil : FinishOrder E [] := by
  intro front u back h
  exact absurd h (by simp)

theorem FinishOrder.snoc (h : FinishOrder E fin) (hu : ∀ v, ReflTransGen E u v →
    v ∈ fin ++ [u] ∨ ∃ w, w ∉ fin ++ [u] ∧ Mutual E u w) : FinishOrder E (fin ++ [u]) := by
  intro front x back hparts
  rcases List.eq_nil_or_concat back with rfl | ⟨back, y, rfl⟩
  · obtain ⟨rfl, hlast⟩ := List.append_inj' hparts rfl
    obtain rfl := List.singleton_inj.mp hlast
    exact hu
  · rw [List.concat_eq_append, ← List.cons_append, ← List.append_assoc] at hparts
    obtain ⟨hfront, -⟩ := List.append_inj' hparts rfl
    exact h front x back hfront

theorem exists_last {P : α → Prop} (h : ∃ x ∈ fin, P x) :
    ∃ front m back, fin = front ++ m :: back ∧ P m ∧ ∀ g ∈ back, ¬ P g := by
  induction fin with
  | nil =>
    obtain ⟨x, hx, -⟩ := h
    exact absurd hx List.not_mem_nil
  | cons a rest ih =>
    by_cases hrest : ∃ x ∈ rest, P x
    · obtain ⟨front, m, back, rfl, hm, hback⟩ := ih hrest
      exact ⟨a :: front, m, back, rfl, hm, hback⟩
    · obtain ⟨x, hx, hPx⟩ := h
      rcases List.mem_cons.mp hx with rfl | hx
      · exact ⟨[], x, rest, rfl, hPx, fun g hg hPg => hrest ⟨g, hg, hPg⟩⟩
      · exact absurd ⟨x, hx, hPx⟩ hrest

section

variable {fin front back : List α}

theorem FinishOrder.reach_of_last (h : FinishOrder E fin) (hfin : fin = front ++ u :: back)
    (hall : ∀ w, Mutual E u w → w ∈ fin) (hlast : ∀ g ∈ back, ¬ Mutual E u g)
    (hv : ReflTransGen E u v) : v ∈ front ++ [u] := by
  rcases h front u back hfin v hv with hv | ⟨w, hw, hmutual⟩
  · exact hv
  · have hwfin := hall w hmutual
    rw [hfin, List.append_cons] at hwfin
    rcases List.mem_append.mp hwfin with hwfin | hwfin
    · exact absurd hwfin hw
    · exact absurd hmutual (hlast w hwfin)

/-- What leads to the last node of a component, and has no node of its own component behind that
one, is in the component. -/
theorem FinishOrder.mutual_of_reach (h : FinishOrder E fin) (hnodup : fin.Nodup)
    (hfin : fin = front ++ u :: back) (hall : ∀ x w, x ∈ fin → Mutual E x w → w ∈ fin)
    (hw : w ∈ fin) (hreach : ReflTransGen E w u) (hlast : ∀ g ∈ back, ¬ Mutual E w g) :
    Mutual E w u := by
  obtain ⟨front', m, back', hfin', hwm, hback'⟩ := exists_last (P := Mutual E w) ⟨w, hw, .refl w⟩
  have hm : m ∈ fin := hfin' ▸ List.mem_append_right _ List.mem_cons_self
  have hu : u ∈ front' ++ [m] := h.reach_of_last hfin' (fun x hx => hall m x hm hx)
    (fun g hg hmg => hback' g hg (hwm.trans hmg)) (hwm.2.trans hreach)
  rcases List.mem_append.mp hu with hu | hu
  · -- `m` would be behind `u`
    exfalso
    have hmback : m ∈ back := by
      obtain ⟨a, b, rfl⟩ := List.append_of_mem hu
      have hparts : front ++ u :: back = a ++ u :: (b ++ m :: back') := by
        rw [← hfin, hfin', List.append_assoc, List.cons_append]
      have hnot : u ∉ front ++ back := (List.nodup_middle.mp (hfin ▸ hnodup)).notMem
      obtain ⟨-, -, hback⟩ := (List.append_cons_inj_of_notMem
        (fun hmem => hnot (List.mem_append_left _ hmem))
        (fun hmem => hnot (List.mem_append_right _ hmem))).mp hparts
      rw [hback]
      exact List.mem_append_right _ List.mem_cons_self
    exact hlast m hmback hwm
  · rw [List.mem_singleton.mp hu]
    exact hwm

theorem FinishOrder.not_mutual_of_edge (h : FinishOrder E fin) (hnodup : fin.Nodup)
    (hfin : fin = front ++ u :: back) (hall : ∀ w, Mutual E u w → w ∈ fin)
    (hlast : ∀ g ∈ back, ¬ Mutual E u g) (ha : Mutual E u a) (hab : E a b) :
    ∀ g ∈ back, ¬ Mutual E b g := by
  intro g hg hbg
  have hmem := h.reach_of_last hfin hall hlast ((ha.1.tail hab).trans hbg.1)
  rw [hfin, List.append_cons] at hnodup
  exact (List.disjoint_of_nodup_append hnodup) hmem hg

end

/-!
## Levels of a breadth-first search

A queue whose front part has been processed. The level that a node gets when it is queued is its
distance from the root.
-/

/-- A walk of some number of edges. -/
inductive Walk (E : α → α → Prop) : Nat → α → α → Prop where
  | nil : Walk E 0 u u
  | snoc : Walk E k u v → E v w → Walk E (k + 1) u w

theorem Walk.reach {E : α → α → Prop} (h : Walk E k u v) : ReflTransGen E u v := by
  induction h with
  | nil => exact .refl
  | snoc _ hedge ih => exact ih.tail hedge

/-- The least number of edges between two nodes. -/
def Dist (E : α → α → Prop) (u v : α) (d : Nat) : Prop := Walk E d u v ∧ ∀ k, Walk E k u v → d ≤ k

/-- The search from `root`: the nodes of `done` have been processed, those of `rest` are queued. -/
structure Levels (E : α → α → Prop) (root : α) (done rest : List α) (level : α → Nat) : Prop where
  start : root ∈ done ++ rest ∧ level root = 0
  nodup : (done ++ rest).Nodup
  parent : ∀ x ∈ done ++ rest, x = root ∨ ∃ p ∈ done ++ rest, E p x ∧ level x = level p + 1
  sorted : (done ++ rest).Pairwise fun x y => level x ≤ level y
  near : ∀ p ∈ rest, ∀ x ∈ done ++ rest, level x ≤ level p + 1
  closed : ∀ p ∈ done, ∀ v, E p v → v ∈ done ++ rest ∧ level v ≤ level p + 1

section

variable {root cur nxt : α} {done rest : List α} {level : α → Nat}

theorem Levels.init (E : α → α → Prop) (root : α) : Levels E root [] [root] fun _ => 0 where
  start := ⟨List.mem_singleton_self root, rfl⟩
  nodup := List.nodup_singleton root
  parent _ hx := .inl (List.mem_singleton.mp hx)
  sorted := List.pairwise_singleton _ _
  near _ _ _ _ := Nat.zero_le _
  closed _ hp := absurd hp List.not_mem_nil

theorem Levels.add [DecidableEq α] (h : Levels E root done (cur :: rest) level) (hedge : E cur nxt)
    (hnew : nxt ∉ done ++ cur :: rest) :
    Levels E root done (cur :: rest ++ [nxt]) (Function.update level nxt (level cur + 1)) := by
  have hcur : cur ∈ done ++ cur :: rest := List.mem_append_right _ List.mem_cons_self
  have hkeep : ∀ x ∈ done ++ cur :: rest,
      Function.update level nxt (level cur + 1) x = level x := by
    intro x hx
    refine Function.update_of_ne ?_ _ _
    rintro rfl
    exact hnew hx
  have hself : Function.update level nxt (level cur + 1) nxt = level cur + 1 :=
    Function.update_self ..
  have hmem : ∀ x, x ∈ done ++ (cur :: rest ++ [nxt]) ↔ x ∈ done ++ cur :: rest ∨ x = nxt := by
    intro x
    rw [← List.append_assoc, List.mem_append, List.mem_singleton]
  refine ⟨?_, ?_, fun x hx => ?_, ?_, fun p hp x hx => ?_, fun p hp v hv => ?_⟩
  · exact ⟨(hmem _).mpr (.inl h.start.1), (hkeep _ h.start.1).trans h.start.2⟩
  · rw [← List.append_assoc]
    refine List.nodup_append.mpr ⟨h.nodup, List.nodup_singleton nxt, fun x hx y hy heq => hnew ?_⟩
    rw [← List.mem_singleton.mp hy, ← heq]
    exact hx
  · rcases (hmem x).mp hx with hx | rfl
    · rcases h.parent x hx with hroot | ⟨p, hp, hpx, hlevel⟩
      · exact .inl hroot
      · exact .inr ⟨p, (hmem p).mpr (.inl hp), hpx, by rw [hkeep x hx, hkeep p hp, hlevel]⟩
    · exact .inr ⟨cur, (hmem cur).mpr (.inl hcur), hedge, by rw [hself, hkeep cur hcur]⟩
  · rw [← List.append_assoc]
    refine List.pairwise_append.mpr ⟨?_, List.pairwise_singleton _ _, fun x hx y hy => ?_⟩
    · refine h.sorted.imp_of_mem fun {x y} hx hy hle => ?_
      rw [hkeep x hx, hkeep y hy]
      exact hle
    · rw [List.mem_singleton.mp hy, hself, hkeep x hx]
      exact h.near cur List.mem_cons_self x hx
  · -- a queued node is not below the head
    have hhead : level cur ≤ Function.update level nxt (level cur + 1) p := by
      rcases List.mem_append.mp hp with hp | hp
      · rw [hkeep p (List.mem_append_right _ hp)]
        rcases List.mem_cons.mp hp with rfl | hp
        · exact Nat.le_refl _
        · exact (List.pairwise_cons.mp (List.pairwise_append.mp h.sorted).2.1).1 p hp
      · rw [List.mem_singleton.mp hp, hself]
        exact Nat.le_succ _
    have hx' : Function.update level nxt (level cur + 1) x ≤ level cur + 1 := by
      rcases (hmem x).mp hx with hx | rfl
      · rw [hkeep x hx]
        exact h.near cur List.mem_cons_self x hx
      · exact Nat.le_of_eq hself
    omega
  · obtain ⟨hin, hle⟩ := h.closed p hp v hv
    rw [hkeep v hin, hkeep p (List.mem_append_left _ hp)]
    exact ⟨(hmem v).mpr (.inl hin), hle⟩

theorem Levels.next (h : Levels E root done (cur :: rest) level)
    (hall : ∀ v, E cur v → v ∈ done ++ cur :: rest) :
    Levels E root (done ++ [cur]) rest level := by
  have heq : done ++ [cur] ++ rest = done ++ cur :: rest := (List.append_cons ..).symm
  refine ⟨heq ▸ h.start, heq ▸ h.nodup, heq ▸ h.parent, heq ▸ h.sorted, fun p hp => ?_,
    fun p hp v hv => ?_⟩
  · rw [heq]
    exact h.near p (List.mem_cons_of_mem _ hp)
  · rw [heq]
    rcases List.mem_append.mp hp with hp | hp
    · exact h.closed p hp v hv
    · rw [List.mem_singleton.mp hp] at hv ⊢
      exact ⟨hall v hv, h.near cur List.mem_cons_self v (hall v hv)⟩

theorem Levels.dist (h : Levels E root done [] level) (hx : x ∈ done) :
    Dist E root x (level x) := by
  obtain ⟨hroot, hzero⟩ := h.start
  have hparent := h.parent
  have hclosed := h.closed
  rw [List.append_nil] at hroot hparent hclosed
  constructor
  · -- by induction on the level, along the parents
    induction hlevel : level x generalizing x with
    | zero =>
      rcases hparent x hx with rfl | ⟨p, -, -, hp⟩
      · exact .nil
      · omega
    | succ l ih =>
      rcases hparent x hx with rfl | ⟨p, hp, hpx, hl⟩
      · omega
      · exact .snoc (ih hp (by omega)) hpx
  · intro k hwalk
    suffices hin : x ∈ done ∧ level x ≤ k from hin.2
    clear hx h hparent
    induction hwalk with
    | nil => exact ⟨hroot, Nat.le_of_eq hzero⟩
    | snoc _ hedge ih =>
      obtain ⟨hv, hle⟩ := ih hroot hzero
      obtain ⟨hw, hle'⟩ := hclosed _ hv _ hedge
      exact ⟨hw, by omega⟩

theorem Levels.mem_iff (h : Levels E root done [] level) : x ∈ done ↔ ReflTransGen E root x := by
  constructor
  · intro hx
    exact (h.dist hx).1.reach
  · intro hreach
    obtain ⟨hroot, -⟩ := h.start
    have hclosed := h.closed
    rw [List.append_nil] at hroot hclosed
    induction hreach with
    | refl => exact hroot
    | tail _ hedge ih => exact (hclosed _ ih _ hedge).1

end

/-!
## Topological orders
-/

/-- Every edge to a node of the list comes from a node in front of it. -/
def Forward (E : α → α → Prop) (xs : List α) : Prop :=
  ∀ front v back, xs = front ++ v :: back → ∀ u, E u v → u ∈ front

section

variable {xs : List α}

theorem Forward.snoc (h : Forward E xs) (hv : ∀ u, E u v → u ∈ xs) : Forward E (xs ++ [v]) := by
  intro front w back hparts u huw
  rcases List.eq_nil_or_concat back with rfl | ⟨back, y, rfl⟩
  · obtain ⟨rfl, hlast⟩ := List.append_inj' hparts rfl
    obtain rfl := List.singleton_inj.mp hlast
    exact hv u huw
  · rw [List.concat_eq_append, ← List.cons_append, ← List.append_assoc] at hparts
    obtain ⟨hfront, -⟩ := List.append_inj' hparts rfl
    exact h front w back hfront u huw

theorem Forward.reach (h : Forward E xs) (hparts : xs = front ++ v :: back) (huv : TransGen E u v) :
    u ∈ front := by
  induction huv generalizing front back with
  | single hedge => exact h front _ back hparts _ hedge
  | @tail w v _ hedge ih =>
    obtain ⟨a, b, rfl⟩ := List.append_of_mem (h front v back hparts w hedge)
    rw [List.append_assoc, List.cons_append] at hparts
    exact List.mem_append_left _ (ih hparts)

theorem Forward.not_cycle (h : Forward E xs) (hnodup : xs.Nodup) (hv : v ∈ xs) :
    ¬ TransGen E v v := by
  intro hcycle
  obtain ⟨front, back, rfl⟩ := List.append_of_mem hv
  have hfront := h.reach rfl hcycle
  exact (List.nodup_middle.mp hnodup).notMem (List.mem_append_left _ hfront)

end

theorem wellFounded_of_acyclic {α : Type u} [Finite α] {E : α → α → Prop}
    (h : ∀ v, ¬ TransGen E v v) :
    WellFounded E := by
  have : Std.Irrefl (TransGen E) := ⟨h⟩
  have hwf : WellFounded (TransGen E) := Finite.wellFounded_of_trans_of_irrefl (TransGen E)
  exact Subrelation.wf (fun hedge => TransGen.single hedge) hwf

end Traversal
