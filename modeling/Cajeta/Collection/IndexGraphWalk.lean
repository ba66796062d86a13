import Cajeta.Collection.IndexGraph
import Cajeta.Lib.Traversal
import Mathlib.Data.List.Count

/-!
# Marking walks

A walk marks the blank nodes that can be reached from its stack over blank nodes, and no others. The
stack has room because a node goes there when it stops being blank.
-/

namespace Cajeta.Collection.Graph
open Except Relation While

section

variable {row : Nat → List Nat} {marks₀ marks : List Int} {work₀ work : List Nat}
  {blank fill : Int} {n : Nat}

def BlankEdge (row : Nat → List Nat) (marks₀ : List Int) (blank : Int) (u v : Nat) : Prop :=
  v ∈ row u ∧ marks₀[v]? = some blank

/-- What the walk from a stack gets to. -/
def Reached (row : Nat → List Nat) (marks₀ : List Int) (blank : Int) (work₀ : List Nat) (w : Nat) :
    Prop :=
  ∃ s ∈ work₀, ReflTransGen (BlankEdge row marks₀ blank) s w

/-- The walk so far. The nodes of the rows in `open_` may have blank neighbours still. -/
structure Walked (row : Nat → List Nat) (marks₀ : List Int) (work₀ : List Nat) (blank fill : Int)
    (n : Nat) (marks : List Int) (work open_ : List Nat) : Prop where
  length : marks.length = n
  inside : ∀ x ∈ work, x < n
  reached : ∀ x ∈ work, Reached row marks₀ blank work₀ x
  changed : ∀ w < n, marks[w]? = marks₀[w]? ∨ marks₀[w]? = some blank ∧ marks[w]? = some fill ∧
    Reached row marks₀ blank work₀ w
  closed : ∀ u < n, u ∈ work₀ ∨ marks₀[u]? = some blank ∧ marks[u]? = some fill →
    u ∈ work ∨ u ∈ open_ ∨ ∀ v ∈ row u, marks[v]? ≠ some blank
  room : work.length + marks.count blank ≤ n

theorem count_set_of_blank {marks : List Int} (hget : marks[w]? = some blank) (hne : fill ≠ blank) :
    (marks.set w fill).count blank + 1 = marks.count blank := by
  obtain ⟨hw, hblank⟩ := List.getElem?_eq_some_iff.mp hget
  have hpos : 0 < marks.count blank := List.count_pos_iff.mpr (hblank ▸ List.getElem_mem hw)
  rw [List.count_set hw, hblank]
  simp only [beq_self_eq_true, if_true, beq_iff_eq, hne, if_false]
  omega

theorem visit_spec (hne : fill ≠ blank) (hcur : Reached row marks₀ blank work₀ cur)
    (hnxt : nxt ∈ row cur) (hn : nxt < n)
    (h : Walked row marks₀ work₀ blank fill n marks work [cur]) :
    ∃ st, visit n blank fill nxt (marks, work) = .ok st ∧
      Walked row marks₀ work₀ blank fill n st.1 st.2 [cur] ∧ st.1[nxt]? ≠ some blank ∧
      (∀ v : Nat, marks[v]? ≠ some blank → st.1[v]? ≠ some blank) ∧
      2 * st.1.count blank + st.2.length ≤ 2 * marks.count blank + work.length := by
  obtain ⟨hlen, hinside, hreached, hchanged, hclosed, hroom⟩ := h
  obtain ⟨mark, hmark⟩ := exists_getElem? (by omega : nxt < marks.length)
  rw [visit, get_eq hmark, ok_bind]
  by_cases hblank : mark = blank
  · subst hblank
    have hcount := count_set_of_blank hmark hne
    have hset : ∀ v : Nat, (marks.set nxt fill)[v]? = if nxt = v then some fill else marks[v]? := by
      intro v
      rw [List.getElem?_set]
      split
      · rw [if_pos (by omega)]
      · rfl
    have hmark₀ : marks₀[nxt]? = some mark := by
      rcases hchanged nxt hn with heq | ⟨heq, -⟩
      · rw [← heq, hmark]
      · exact heq
    obtain ⟨s, hs, hway⟩ := hcur
    have hnew : Reached row marks₀ mark work₀ nxt := ⟨s, hs, hway.tail ⟨hnxt, hmark₀⟩⟩
    rw [if_pos rfl, put_eq (by omega), ok_bind, push, if_pos (by omega), ok_bind]
    refine ⟨_, rfl, ⟨by rw [List.length_set, hlen], ?_, ?_, fun w hw => ?_,
      fun u hu huvis => ?_, ?_⟩,
      ?_, fun v hv => ?_, ?_⟩
    · intro x hx
      rcases List.mem_cons.mp hx with rfl | hx
      · exact hn
      · exact hinside x hx
    · intro x hx
      rcases List.mem_cons.mp hx with rfl | hx
      · exact hnew
      · exact hreached x hx
    · rw [hset]
      by_cases hw' : nxt = w
      · subst hw'
        exact .inr ⟨hmark₀, if_pos rfl, hnew⟩
      · rw [if_neg hw']
        exact hchanged w hw
    · rw [hset] at huvis
      by_cases hu' : nxt = u
      · subst hu'
        exact .inl List.mem_cons_self
      · rw [if_neg hu'] at huvis
        rcases hclosed u hu huvis with hin | hin | hclosed
        · exact .inl (List.mem_cons_of_mem _ hin)
        · exact .inr (.inl hin)
        · refine .inr (.inr fun v hv => ?_)
          rw [hset]
          split
          · exact fun heq => hne (Option.some.inj heq)
          · exact hclosed v hv
    · dsimp only
      rw [List.length_cons]
      omega
    · dsimp only
      rw [hset, if_pos rfl]
      exact fun heq => hne (Option.some.inj heq)
    · dsimp only
      rw [hset]
      split
      · exact fun heq => hne (Option.some.inj heq)
      · exact hv
    · dsimp only
      rw [List.length_cons]
      omega
  · rw [if_neg hblank]
    refine ⟨_, rfl, ⟨hlen, hinside, hreached, hchanged, hclosed, hroom⟩, ?_, fun v hv => hv,
      Nat.le_refl _⟩
    dsimp only
    rw [hmark]
    exact fun heq => hblank (Option.some.inj heq)

variable {csr : Csr}

theorem walkRound_spec (fuel : Nat) (hcsr : Indexes csr n row) (hrow : ∀ u < n, ∀ v ∈ row u, v < n)
    (hne : fill ≠ blank) (hfuel : ∀ u < n, (row u).length < fuel)
    (h : Walked row marks₀ work₀ blank fill n marks work []) :
    (∃ st, walkRound fuel csr n blank fill (marks, work) = .ok (.again st) ∧
      Walked row marks₀ work₀ blank fill n st.1 st.2 [] ∧
      2 * st.1.count blank + st.2.length < 2 * marks.count blank + work.length) ∨
    walkRound fuel csr n blank fill (marks, work) = .ok (.done marks) ∧ work = [] := by
  cases work with
  | nil => exact .inr ⟨rfl, rfl⟩
  | cons cur work =>
    left
    have hcur : cur < n := h.inside cur List.mem_cons_self
    have hreachedCur := h.reached cur List.mem_cons_self
    have hpopped : Walked row marks₀ work₀ blank fill n marks work [cur] := by
      refine ⟨h.length, fun x hx => h.inside x (List.mem_cons_of_mem _ hx),
        fun x hx => h.reached x (List.mem_cons_of_mem _ hx), h.changed, fun u hu huvis => ?_, ?_⟩
      · rcases h.closed u hu huvis with hin | hin | hclosed
        · rcases List.mem_cons.mp hin with rfl | hin
          · exact .inr (.inl (List.mem_singleton_self u))
          · exact .inl hin
        · exact absurd hin List.not_mem_nil
        · exact .inr (.inr hclosed)
      · have hroom := h.room
        rw [List.length_cons] at hroom
        omega
    obtain ⟨st, hfold, hwalked, hsize, hscanned⟩ : ∃ st : List Int × List Nat,
        (row cur).foldlM (fun s nxt => visit n blank fill nxt s) (marks, work) = .ok st ∧
        (Walked row marks₀ work₀ blank fill n st.1 st.2 [cur] ∧
          2 * st.1.count blank + st.2.length ≤ 2 * marks.count blank + work.length ∧
          ∀ v ∈ row cur, st.1[v]? ≠ some blank) := by
      refine fold_ok (I := fun done (st : List Int × List Nat) =>
        Walked row marks₀ work₀ blank fill n st.1 st.2 [cur] ∧
        2 * st.1.count blank + st.2.length ≤ 2 * marks.count blank + work.length ∧
        ∀ v ∈ done, st.1[v]? ≠ some blank) (row cur) (fun done nxt rest st hdone hst => ?_)
        ⟨hpopped, Nat.le_refl _, fun v hv => absurd hv List.not_mem_nil⟩
      obtain ⟨hst, hsize, hscanned⟩ := hst
      have hnxt : nxt ∈ row cur := hdone ▸ List.mem_append_right _ List.mem_cons_self
      obtain ⟨st', hvisit, hst', hmarked, hkept, hsize'⟩ :=
        visit_spec hne hreachedCur hnxt (hrow cur hcur nxt hnxt) hst
      refine ⟨st', hvisit, hst', Nat.le_trans hsize' hsize, fun v hv => ?_⟩
      rcases List.mem_append.mp hv with hv | hv
      · exact hkept v (hscanned v hv)
      · rw [List.mem_singleton.mp hv]
        exact hmarked
    refine ⟨st, ?_, ?_, ?_⟩
    · rw [walkRound, scanRow_eq hcsr hcur _ _ (hfuel cur hcur), hfold]
      rfl
    · refine ⟨hwalked.length, hwalked.inside, hwalked.reached, hwalked.changed,
        fun u hu huvis => ?_,
        hwalked.room⟩
      rcases hwalked.closed u hu huvis with hin | hin | hclosed
      · exact .inl hin
      · rw [List.mem_singleton.mp hin]
        exact .inr (.inr hscanned)
      · exact .inr (.inr hclosed)
    · rw [List.length_cons]
      omega

/-- A walk fills the blank nodes it reaches and leaves the other nodes alone. -/
theorem walk_spec (fuel : Nat) (hcsr : Indexes csr n row) (hrow : ∀ u < n, ∀ v ∈ row u, v < n)
    (hne : fill ≠ blank) (hfuel : ∀ u < n, (row u).length < fuel) (hlen : marks₀.length = n)
    (hinside : ∀ x ∈ work₀, x < n) (hmarked : ∀ x ∈ work₀, marks₀[x]? ≠ some blank)
    (hroom : work₀.length + marks₀.count blank ≤ n)
    (hsize : 2 * n < fuel) :
    ∃ marks, walk fuel csr n blank fill marks₀ work₀ = .ok marks ∧ marks.length = n ∧
      ∀ w < n, (marks₀[w]? = some blank → Reached row marks₀ blank work₀ w →
          marks[w]? = some fill) ∧
        (marks₀[w]? ≠ some blank ∨ ¬ Reached row marks₀ blank work₀ w →
          marks[w]? = marks₀[w]?) := by
  have hinit : Walked row marks₀ work₀ blank fill n marks₀ work₀ [] := by
    refine ⟨hlen, hinside, fun x hx => ⟨x, hx, .refl⟩, fun w _ => .inl rfl, fun u _ hu => ?_, hroom⟩
    rcases hu with hu | ⟨hblank, hfill⟩
    · exact .inl hu
    · exact absurd (Option.some.inj (hfill.symm.trans hblank)) hne
  have hloop : ∃ marks, loop .outOfFuel (walkRound fuel csr n blank fill) fuel (marks₀, work₀) =
      .ok marks ∧ Walked row marks₀ work₀ blank fill n marks [] [] := by
    refine loop_ok (I := fun st => Walked row marks₀ work₀ blank fill n st.1 st.2 [])
      (fun st => 2 * st.1.count blank + st.2.length) (fun st hst => ?_) hinit (by dsimp only; omega)
    rcases walkRound_spec fuel hcsr hrow hne hfuel hst with hagain | ⟨hbody, hdone⟩
    · exact .inl hagain
    · exact .inr ⟨st.1, hbody, hdone ▸ hst⟩
  obtain ⟨marks, hloop, hwalked⟩ := hloop
  refine ⟨marks, hloop, hwalked.length, fun w hw => ⟨fun hblank hreach => ?_, fun hstays => ?_⟩⟩
  · obtain ⟨s, hs, hway⟩ := hreach
    -- along the way every node is either on the first stack or filled
    have hvisited : w ∈ work₀ ∨ marks₀[w]? = some blank ∧ marks[w]? = some fill := by
      clear hblank hw
      induction hway with
      | refl => exact .inl hs
      | @tail u v _ huv ih =>
        have hu : u < n := by
          rcases ih with hu | ⟨hu, -⟩
          · exact hinside u hu
          · exact hlen ▸ (List.getElem?_eq_some_iff.mp hu).1
        have hv : v < n := hrow u hu v huv.1
        rcases hwalked.closed u hu ih with hin | hin | hclosed
        · exact absurd hin List.not_mem_nil
        · exact absurd hin List.not_mem_nil
        · rcases hwalked.changed v hv with heq | ⟨hblank, hfill, -⟩
          · exact absurd (heq.trans huv.2) (hclosed v huv.1)
          · exact .inr ⟨hblank, hfill⟩
    rcases hvisited with hin | ⟨-, hfill⟩
    · exact absurd hblank (hmarked w hin)
    · exact hfill
  · rcases hwalked.changed w hw with heq | ⟨hblank, -, hreach⟩
    · exact heq
    · rcases hstays with hnot | hnot
      · exact absurd hblank hnot
      · exact absurd hreach hnot

/-! ## Reachability -/

/-- The nodes of an index lie in it. -/
def Inside (row : Nat → List Nat) (n : Nat) : Prop := ∀ u < n, ∀ v ∈ row u, v < n

/-- An edge of the graph. -/
def Leads (row : Nat → List Nat) (u v : Nat) : Prop := v ∈ row u

theorem Inside.reach (h : Inside row n) (hu : u < n) (hway : ReflTransGen (Leads row) u v) :
    v < n := by
  induction hway with
  | refl => exact hu
  | tail _ hedge ih => exact h _ ih _ hedge

def Rooted (roots : List Int) (n w : Nat) : Prop := w < n ∧ (w : Int) ∈ roots

theorem markRoots_spec (n : Nat) (roots : List Int) :
    ∃ st : List Int × List Nat, roots.foldlM (fun st (id : Int) =>
        if 0 ≤ id ∧ id < n then visit n 0 1 id.toNat st else return st) (List.replicate n 0, []) =
          .ok st ∧
      (st.1.length = n ∧ st.2.length + st.1.count 0 ≤ n ∧ (∀ x, x ∈ st.2 ↔ Rooted roots n x) ∧
        ∀ w < n, st.1[w]? = some (if w ∈ st.2 then 1 else 0)) := by
  refine fold_ok (I := fun done (st : List Int × List Nat) => st.1.length = n ∧
    st.2.length + st.1.count 0 ≤ n ∧ (∀ x, x ∈ st.2 ↔ Rooted done n x) ∧
    ∀ w < n, st.1[w]? = some (if w ∈ st.2 then 1 else 0)) roots
    (fun done root rest st hdone hst => ?_) ?_
  · obtain ⟨marks, work⟩ := st
    obtain ⟨hlen, hroom, hwork, hmarks⟩ := hst
    dsimp only at hlen hroom hwork hmarks
    have hrooted : ∀ x, Rooted (done ++ [root]) n x ↔ Rooted done n x ∨ x < n ∧ (x : Int) =
      root := by
      intro x
      simp only [Rooted, List.mem_append, List.mem_singleton]
      tauto
    by_cases hroot : 0 ≤ root ∧ root < n
    · obtain ⟨r, rfl⟩ := Int.eq_ofNat_of_zero_le hroot.1
      have hr : r < n := by omega
      have hmark := hmarks r hr
      rw [if_pos hroot, Int.toNat_natCast, visit, get_eq hmark, ok_bind]
      by_cases hin : r ∈ work
      · rw [if_pos hin, if_neg (by decide)]
        refine ⟨_, rfl, hlen, hroom, fun x => ?_, hmarks⟩
        rw [hrooted, ← hwork]
        constructor
        · exact .inl
        · rintro (hx | ⟨-, hx⟩)
          · exact hx
          · obtain rfl : x = r := by omega
            exact hin
      · rw [if_neg hin] at hmark
        have hcount := count_set_of_blank hmark (show (1 : Int) ≠ 0 by decide)
        rw [if_neg hin, if_pos rfl, put_eq (by omega), ok_bind, push, if_pos (by omega), ok_bind]
        refine ⟨_, rfl, by rw [List.length_set, hlen], ?_, fun x => ?_, fun w hw => ?_⟩
        · dsimp only
          rw [List.length_cons]
          omega
        · rw [hrooted, ← hwork, List.mem_cons]
          constructor
          · rintro (rfl | hx)
            · exact .inr ⟨hr, rfl⟩
            · exact .inl hx
          · rintro (hx | ⟨-, hx⟩)
            · exact .inr hx
            · exact .inl (by omega)
        · dsimp only
          rw [List.getElem?_set]
          by_cases hw' : r = w
          · subst hw'
            rw [if_pos rfl, if_pos (by omega), if_pos List.mem_cons_self]
          · rw [if_neg hw', hmarks w hw]
            simp only [List.mem_cons, Ne.symm hw', false_or]
    · rw [if_neg hroot]
      refine ⟨_, rfl, hlen, hroom, fun x => ?_, hmarks⟩
      rw [hrooted, ← hwork]
      constructor
      · exact .inl
      · rintro (hx | ⟨hx, heq⟩)
        · exact hx
        · exact absurd ⟨by omega, by omega⟩ hroot
  · refine ⟨List.length_replicate, ?_, fun x => ?_, fun w hw => ?_⟩
    · rw [List.count_replicate_self, List.length_nil]
      omega
    · simp [Rooted]
    · rw [List.getElem?_replicate, if_pos hw, if_neg List.not_mem_nil]

theorem reachable_spec (fuel : Nat) (hcsr : Indexes csr n row) (hrow : Inside row n)
    (hfuel : ∀ u < n, (row u).length < fuel) (hsize : 2 * n < fuel) (roots : List Int)
    (hmarks : marks₁.length = n ∧ work₁.length + marks₁.count 0 ≤ n ∧
      (∀ x, x ∈ work₁ ↔ Rooted roots n x) ∧
      ∀ w < n, marks₁[w]? = some (if w ∈ work₁ then 1 else 0)) :
    ∃ seen, walk fuel csr n 0 1 marks₁ work₁ = .ok seen ∧ seen.length = n ∧
      ∀ w < n, seen[w]? = some 1 ∧ (∃ r, Rooted roots n r ∧ ReflTransGen (Leads row) r w) ∨
        seen[w]? = some 0 ∧ ¬ ∃ r, Rooted roots n r ∧ ReflTransGen (Leads row) r w := by
  obtain ⟨hlen, hroom, hwork, hmarks⟩ := hmarks
  obtain ⟨seen, hwalk, hseenLen, hseen⟩ :=
    walk_spec fuel hcsr hrow (by decide : (1 : Int) ≠ 0) hfuel
    hlen (fun x hx => ((hwork x).mp hx).1)
    (fun x hx => by rw [hmarks x ((hwork x).mp hx).1, if_pos hx]; decide) hroom hsize
  refine ⟨seen, hwalk, hseenLen, fun w hw => ?_⟩
  obtain ⟨hfilled, hkept⟩ := hseen w hw
  by_cases hin : w ∈ work₁
  · left
    refine ⟨?_, w, (hwork w).mp hin, .refl⟩
    rw [hkept (.inl (by rw [hmarks w hw, if_pos hin]; decide)), hmarks w hw, if_pos hin]
  · have hblank : marks₁[w]? = some 0 := by rw [hmarks w hw, if_neg hin]
    by_cases hreach : Reached row marks₁ 0 work₁ w
    · left
      obtain ⟨s, hs, hway⟩ := hreach
      exact ⟨hfilled hblank ⟨s, hs, hway⟩, s, (hwork s).mp hs, hway.lift id fun u v huv => huv.1⟩
    · right
      refine ⟨(hkept (.inr hreach)).trans hblank, fun hrooted => ?_⟩
      obtain ⟨r, hr, hway⟩ := hrooted
      -- the last root on the way is where the walk over blank nodes starts
      have hvisited : w ∈ work₁ ∨ Reached row marks₁ 0 work₁ w := by
        clear hin hblank hreach hfilled hkept hw
        induction hway with
        | refl => exact .inl ((hwork r).mpr hr)
        | @tail u v hru huv ih =>
          have hv : v < n := hrow u (hrow.reach hr.1 hru) v huv
          by_cases hvin : v ∈ work₁
          · exact .inl hvin
          · have hedge : BlankEdge row marks₁ 0 u v := ⟨huv, by rw [hmarks v hv, if_neg hvin]⟩
            rcases ih with hu | ⟨s, hs, hway⟩
            · exact .inr ⟨u, hu, .single hedge⟩
            · exact .inr ⟨s, hs, hway.tail hedge⟩
      exact hvisited.elim hin hreach

end

end Cajeta.Collection.Graph
