import Cajeta.Collection.IndexGraphFinish
import Cajeta.Lib.Traversal

/-!
# The breadth-first and the depth-first order

The queue of the breadth-first search holds the nodes level by level. What the stack of the
depth-first search still has to do is what the recursion has still to do: the rest of the row of
every open node, the innermost first.
-/

namespace Cajeta.Collection.Graph
open Except Relation Traversal While

section

variable {row : Nat → List Nat} {n : Nat} {csr : Csr} {seen : List Int} {queue done rest : List Nat}
  {root : Nat}

structure Marks (n : Nat) (seen : List Int) (marked : List Nat) : Prop where
  length : seen.length = n
  inside : ∀ x ∈ marked, x < n
  nodup : marked.Nodup
  mark : ∀ v < n, seen[v]? = some (if v ∈ marked then 1 else 0)

theorem Marks.room (h : Marks n seen marked) : marked.length ≤ n :=
  length_le_of_nodup h.nodup h.inside

theorem Marks.add (h : Marks n seen marked) (hn : nxt < n) (hnot : nxt ∉ marked) :
    Marks n (seen.set nxt 1) (marked ++ [nxt]) := by
  have hlen := h.length
  refine ⟨List.length_set.trans hlen, fun x hx => ?_, ?_, fun v hv => ?_⟩
  · rcases List.mem_append.mp hx with hx | hx
    · exact h.inside x hx
    · exact List.mem_singleton.mp hx ▸ hn
  · refine List.nodup_append.mpr ⟨h.nodup, List.nodup_singleton nxt, fun x hx y hy heq => hnot ?_⟩
    rw [← List.mem_singleton.mp hy, ← heq]
    exact hx
  · rw [List.getElem?_set]
    by_cases hv' : nxt = v
    · subst hv'
      rw [if_pos rfl, if_pos (by omega),
        if_pos (List.mem_append_right _ (List.mem_singleton_self nxt))]
    · rw [if_neg hv', h.mark v hv]
      simp only [List.mem_append, List.mem_singleton, Ne.symm hv', or_false]

theorem Marks.lt_of_not_mem (h : Marks n seen marked) (hn : nxt < n) (hnot : nxt ∉ marked) :
    marked.length < n :=
  length_lt_of_not_mem h.nodup h.inside hn hnot

theorem Marks.start (hroot : root < n) : Marks n ((List.replicate n 0).set root 1) [root] := by
  have hempty : Marks n (List.replicate n 0) [] :=
    ⟨List.length_replicate, fun x hx => absurd hx List.not_mem_nil, List.nodup_nil, fun v hv => by
      rw [List.getElem?_replicate, if_pos hv, if_neg List.not_mem_nil]⟩
  exact hempty.add hroot List.not_mem_nil

/-! ## Breadth first -/

/-- The state while the node at the head is processed: its neighbours in `passed` are queued. -/
def Queueing (row : Nat → List Nat) (n root : Nat) (done : List Nat) (cur : Nat) (passed : List Nat)
    (st : List Int × List Nat) : Prop :=
  Marks n st.1 st.2 ∧ (∀ v ∈ passed, v ∈ st.2) ∧
    ∃ rest level, st.2 = done ++ cur :: rest ∧ Levels (Leads row) root done (cur :: rest) level

theorem enqueue_spec (hedge : nxt ∈ row cur) (hn : nxt < n)
    (h : Queueing row n root done cur passed st) :
    ∃ st', enqueue n nxt st = .ok st' ∧ Queueing row n root done cur (passed ++ [nxt]) st' := by
  obtain ⟨seen, queue⟩ := st
  obtain ⟨hmarks, hpassed, rest, level, hqueue, hlevels⟩ := h
  dsimp only at hmarks hpassed hqueue
  have hlen := hmarks.length
  rw [enqueue, get_eq (hmarks.mark nxt hn), ok_bind]
  by_cases hin : nxt ∈ queue
  · rw [if_pos hin, if_neg (by decide)]
    refine ⟨_, rfl, hmarks, fun v hv => ?_, rest, level, hqueue, hlevels⟩
    rcases List.mem_append.mp hv with hv | hv
    · exact hpassed v hv
    · exact List.mem_singleton.mp hv ▸ hin
  · have hroom := hmarks.lt_of_not_mem hn hin
    rw [if_neg hin, if_pos rfl, put_eq (by omega), ok_bind, append, if_pos hroom, ok_bind]
    refine ⟨_, rfl, hmarks.add hn hin, fun v hv => ?_, rest ++ [nxt], _, ?_,
      hlevels.add hedge (hqueue ▸ hin)⟩
    · rcases List.mem_append.mp hv with hv | hv
      · exact List.mem_append_left _ (hpassed v hv)
      · exact List.mem_append_right _ hv
    · dsimp only
      rw [hqueue, List.append_assoc]
      rfl

/-- The state between two rounds. -/
def Searching (row : Nat → List Nat) (n root : Nat) (st : List Int × List Nat × Nat) : Prop :=
  Marks n st.1 st.2.1 ∧ ∃ done rest level, st.2.1 = done ++ rest ∧ done.length = st.2.2 ∧
    Levels (Leads row) root done rest level

theorem bfsRound_spec (fuel : Nat) (hcsr : Indexes csr n row) (hrow : Inside row n)
    (hfuel : ∀ u < n, (row u).length < fuel) (h : Searching row n root st) :
    (∃ st', bfsRound fuel csr n st = .ok (.again st') ∧ Searching row n root st' ∧
      n - st'.2.2 < n - st.2.2) ∨
    ∃ order level, bfsRound fuel csr n st = .ok (.done order) ∧ Marks n st.1 order ∧
      Levels (Leads row) root order [] level := by
  obtain ⟨seen, queue, head⟩ := st
  obtain ⟨hmarks, done, rest, level, hqueue, hhead, hlevels⟩ := h
  dsimp only at hmarks hqueue hhead
  rw [bfsRound]
  cases rest with
  | nil =>
    right
    rw [List.append_nil] at hqueue
    subst hqueue
    exact ⟨queue, level, if_neg (by omega), hmarks, hlevels⟩
  | cons cur rest =>
    left
    have hcurIn : cur ∈ queue := hqueue ▸ List.mem_append_right _ List.mem_cons_self
    have hcur : cur < n := hmarks.inside cur hcurIn
    have hget : queue[head]? = some cur := by
      rw [hqueue, ← hhead, List.getElem?_append_right (Nat.le_refl _), Nat.sub_self]
      rfl
    have hlt : head < queue.length := (List.getElem?_eq_some_iff.mp hget).1
    have hroom := hmarks.room
    obtain ⟨st', hfold, hmarks', hall, rest', level', hqueue', hlevels'⟩ :
        ∃ st', (row cur).foldlM (fun s nxt => enqueue n nxt s) (seen, queue) = .ok st' ∧
          Queueing row n root done cur (row cur) st' := by
      refine fold_ok (I := fun passed st => Queueing row n root done cur passed st) (row cur)
        (fun passed nxt rest st hdone hst => ?_)
        ⟨hmarks, fun v hv => absurd hv List.not_mem_nil, rest, level, hqueue, hlevels⟩
      have hedge : nxt ∈ row cur := hdone ▸ List.mem_append_right _ List.mem_cons_self
      exact enqueue_spec hedge (hrow cur hcur nxt hedge) hst
    obtain ⟨seen', queue'⟩ := st'
    dsimp only at hmarks' hall hqueue'
    rw [if_pos hlt, get_eq hget, ok_bind, scanRow_eq hcsr hcur _ _ (hfuel cur hcur), hfold]
    refine ⟨(seen', queue', head + 1), rfl, ⟨hmarks', done ++ [cur], rest', level', ?_, ?_, ?_⟩, ?_⟩
    · rw [hqueue', List.append_cons]
    · rw [List.length_append, hhead]
      rfl
    · exact hlevels'.next fun v hv => hqueue' ▸ hall v hv
    · dsimp only
      omega

theorem bfs_spec (fuel : Nat) (hcsr : Indexes csr n row) (hrow : Inside row n)
    (hfuel : ∀ u < n, (row u).length < fuel) (hsize : n < fuel) (hroot : root < n) :
    ∃ order level, loop .outOfFuel (bfsRound fuel csr n) fuel
        ((List.replicate n 0).set root 1, [root], 0) = .ok order ∧
      Levels (Leads row) root order [] level := by
  have hloop : ∃ order, loop .outOfFuel (bfsRound fuel csr n) fuel
      ((List.replicate n 0).set root 1, [root], 0) = .ok order ∧
      ∃ level, Levels (Leads row) root order [] level := by
    refine loop_ok (I := Searching row n root) (fun st => n - st.2.2) (fun st hst => ?_)
      ⟨Marks.start hroot, [], [root], _, rfl, rfl,
        Levels.init (Leads row) root⟩ (by dsimp only; omega)
    rcases bfsRound_spec fuel hcsr hrow hfuel hst with hagain | ⟨order, level, hbody, -, hlevels⟩
    · exact .inl hagain
    · exact .inr ⟨order, hbody, level, hlevels⟩
  obtain ⟨order, hloop, level, hlevels⟩ := hloop
  exact ⟨order, level, hloop, hlevels⟩

/-! ## Depth first -/

/-- What the cursor of a node has not passed yet. -/
def remaining (row : Nat → List Nat) (cursor : List Nat) (v : Nat) : List Nat :=
  (row v).drop (cursor[v]?.getD 0)

/-- The walk so far. Whatever order the rest of the open rows leads to, the recursion from the root
leads there too. -/
structure Descending (row : Nat → List Nat) (n root : Nat) (s : DfsState) : Prop where
  marks : Marks n s.seen s.order
  cursorLength : s.cursor.length = n
  frames : ∀ v ∈ s.frames, v ∈ s.order
  open_ : s.frames.Nodup
  cursor : ∀ v < n, ∃ c, s.cursor[v]? = some c ∧ c ≤ (row v).length ∧ (v ∉ s.order → c = 0)
  rest : ∀ order, Rest row (s.frames.map (remaining row s.cursor)) s.order order →
    Preorder row [root] [] order

variable {s : DfsState} {frames below order cursor : List Nat} {cur c nxt : Nat}

theorem map_remaining_set (hnot : cur ∉ frames) :
    frames.map (remaining row (cursor.set cur c)) = frames.map (remaining row cursor) := by
  refine List.map_congr_left fun v hv => ?_
  have hne : cur ≠ v := by
    rintro rfl
    exact hnot hv
  rw [remaining, List.getElem?_set_ne hne]
  rfl

theorem remaining_cons (hc : s.cursor[cur]? = some c) (hnxt : (row cur)[c]? = some nxt) :
    remaining row s.cursor cur = nxt :: (row cur).drop (c + 1) := by
  obtain ⟨hlt, hget⟩ := List.getElem?_eq_some_iff.mp hnxt
  rw [remaining, hc, Option.getD_some, List.drop_eq_getElem_cons hlt, hget]

theorem remaining_set_self (hlen : cur < s.cursor.length) :
    remaining row (s.cursor.set cur c) cur = (row cur).drop c := by
  rw [remaining, List.getElem?_set_self hlen, Option.getD_some]

theorem cursor_advanced (h : Descending row n root s) (hin : cur ∈ s.order)
    (hlt : c < (row cur).length) (hsub : ∀ v ∈ s.order, v ∈ order) :
    ∀ v < n, ∃ d, (s.cursor.set cur (c + 1))[v]? = some d ∧ d ≤ (row v).length ∧
      (v ∉ order → d = 0) := by
  intro v hv
  obtain ⟨d, hd, hle, hzero⟩ := h.cursor v hv
  have hlen := h.cursorLength
  rw [List.getElem?_set]
  by_cases hv' : cur = v
  · subst hv'
    exact ⟨c + 1, by rw [if_pos rfl, if_pos (by omega)], hlt,
      fun hnot => absurd (hsub cur hin) hnot⟩
  · exact ⟨d, by rw [if_neg hv', hd], hle, fun hnot => hzero fun hv => hnot (hsub v hv)⟩

theorem Descending.skip (h : Descending row n root s) (hframes : s.frames = cur :: below)
    (hc : s.cursor[cur]? = some c) (hnxt : (row cur)[c]? = some nxt) (hseen : nxt ∈ s.order) :
    Descending row n root (s.advanced cur c) := by
  have hin := h.frames cur (hframes ▸ List.mem_cons_self)
  have hlen := h.cursorLength
  have hcur := h.marks.inside cur hin
  have hnot : cur ∉ below := (List.nodup_cons.mp (hframes ▸ h.open_)).1
  refine ⟨h.marks, List.length_set.trans hlen, h.frames, h.open_,
    cursor_advanced h hin (List.getElem?_eq_some_iff.mp hnxt).1 fun v hv => hv,
      fun order hrest => ?_⟩
  refine h.rest order ?_
  rw [DfsState.advanced, hframes, List.map_cons, map_remaining_set hnot,
    remaining_set_self (by omega)] at hrest
  rw [hframes, List.map_cons, remaining_cons hc hnxt]
  exact hrest.skip hseen

/-- The state after the top node has led to a new one. -/
def DfsState.descended (s : DfsState) (cur c nxt : Nat) : DfsState :=
  { s.entered cur c nxt with order := s.order ++ [nxt] }

theorem Descending.descend (h : Descending row n root s) (hframes : s.frames = cur :: below)
    (hc : s.cursor[cur]? = some c) (hnxt : (row cur)[c]? = some nxt) (hn : nxt < n)
    (hnew : nxt ∉ s.order) : Descending row n root (s.descended cur c nxt) := by
  have hin := h.frames cur (hframes ▸ List.mem_cons_self)
  have hlen := h.cursorLength
  have hcur := h.marks.inside cur hin
  have hnot : cur ∉ below := (List.nodup_cons.mp (hframes ▸ h.open_)).1
  have hne : cur ≠ nxt := fun heq => hnew (heq ▸ hin)
  refine ⟨h.marks.add hn hnew, List.length_set.trans hlen, fun v hv => ?_, ?_,
    cursor_advanced h hin (List.getElem?_eq_some_iff.mp hnxt).1 fun v hv =>
      List.mem_append_left _ hv, fun order hrest => ?_⟩
  · rcases List.mem_cons.mp hv with rfl | hv
    · exact List.mem_append_right _ (List.mem_singleton_self v)
    · exact List.mem_append_left _ (h.frames v hv)
  · exact List.nodup_cons.mpr ⟨fun hin => hnew (h.frames nxt hin), h.open_⟩
  · refine h.rest order ?_
    -- the cursor of the new node is still at the start of its row
    have hfresh : remaining row (s.cursor.set cur (c + 1)) nxt = row nxt := by
      obtain ⟨d, hd, -, hzero⟩ := h.cursor nxt hn
      rw [remaining, List.getElem?_set_ne hne, hd, hzero hnew]
      rfl
    rw [DfsState.descended, DfsState.entered, hframes, List.map_cons, List.map_cons, hfresh,
      map_remaining_set hnot, remaining_set_self (by omega)] at hrest
    rw [hframes, List.map_cons, remaining_cons hc hnxt]
    exact hrest.descend hnew

theorem Descending.pop (h : Descending row n root s) (hframes : s.frames = cur :: below)
    (hc : s.cursor[cur]? = some c) (hend : (row cur).length ≤ c) :
    Descending row n root { s with frames := below } := by
  refine ⟨h.marks, h.cursorLength, fun v hv => h.frames v (hframes ▸ List.mem_cons_of_mem _ hv),
    (List.nodup_cons.mp (hframes ▸ h.open_)).2, h.cursor, fun order hrest => h.rest order ?_⟩
  rw [hframes, List.map_cons, remaining, hc, Option.getD_some, List.drop_eq_nil_of_le hend]
  exact hrest.pop

/-- What the inner loop keeps, when it starts with `frames` and `order`. -/
def Scanning (row : Nat → List Nat) (n root : Nat) (frames order : List Nat)
    (st : DfsState × Bool) :
    Prop :=
  Descending row n root st.1 ∧
    if st.2 then st.1.frames.length = frames.length + 1 ∧ st.1.order.length = order.length + 1
    else st.1.frames = frames ∧ st.1.order = order

theorem descend_spec (hrow : Inside row n) (hcur : cur < n)
    (htgt : ∀ j < (row cur).length, csr.tgt[base + j]? = (row cur)[j]?)
    (h : Scanning row n root (cur :: below) order st) :
    (∃ st', descend csr n cur base (row cur).length st = .ok (.again st') ∧
      Scanning row n root (cur :: below) order st' ∧
      (if st'.2 then 0 else (row cur).length + 1 - st'.1.cursor[cur]?.getD 0) <
        if st.2 then 0 else (row cur).length + 1 - st.1.cursor[cur]?.getD 0) ∨
    descend csr n cur base (row cur).length st = .ok (.done st) ∧
      (st.2 = false → ∃ c, st.1.cursor[cur]? = some c ∧ (row cur).length ≤ c) := by
  obtain ⟨s, descended⟩ := st
  obtain ⟨hs, hcase⟩ := h
  dsimp only at hs hcase
  obtain ⟨c, hc, hle, -⟩ := hs.cursor cur hcur
  have hcursorLen := hs.cursorLength
  rw [descend, get_eq hc, ok_bind]
  by_cases hgo : c < (row cur).length ∧ descended = false
  · left
    obtain ⟨hlt, rfl⟩ := hgo
    obtain ⟨hframes, horder⟩ : s.frames = cur :: below ∧ s.order = order := hcase
    obtain ⟨nxt, hnxt⟩ := exists_getElem? hlt
    have hn : nxt < n := hrow cur hcur nxt (List.mem_of_getElem? hnxt)
    rw [if_pos ⟨hlt, rfl⟩, get_eq ((htgt c hlt).trans hnxt), ok_bind, put_eq (by omega), ok_bind,
      get_eq (hs.marks.mark nxt hn), ok_bind]
    by_cases hseen : nxt ∈ s.order
    · rw [if_pos hseen, if_neg (by decide)]
      refine ⟨(s.advanced cur c, false), rfl, ⟨hs.skip hframes hc hnxt hseen, hframes, horder⟩, ?_⟩
      simp only [DfsState.advanced, hc, List.getElem?_set_self (show cur <
        s.cursor.length by omega),
        Option.getD_some, Bool.false_eq_true, if_false]
      omega
    · have hroom := hs.marks.lt_of_not_mem hn hseen
      have hnext := hs.descend hframes hc hnxt hn hseen
      have hopen : s.frames.length ≤ s.order.length :=
        (List.subperm_of_subset hs.open_ hs.frames).length_le
      rw [if_neg hseen, if_pos rfl, put_eq (by rw [hs.marks.length]; exact hn), ok_bind, append,
        if_pos hroom, ok_bind, push, if_pos (by omega), ok_bind]
      refine ⟨(s.descended cur c nxt, true), rfl, ⟨hnext, ?_, ?_⟩, ?_⟩
      · rw [← hframes]
        rfl
      · rw [← horder]
        exact List.length_append
      · simp only [hc, Option.getD_some, Bool.false_eq_true, if_false, if_true]
        omega
  · right
    rw [if_neg hgo]
    exact ⟨rfl, fun hdesc => ⟨c, hc, Nat.le_of_not_lt fun hlt => hgo ⟨hlt, hdesc⟩⟩⟩

theorem dfsRound_spec (fuel : Nat) (hcsr : Indexes csr n row) (hrow : Inside row n)
    (hfuel : ∀ u < n, (row u).length + 1 < fuel) (h : Descending row n root s) :
    (∃ s', dfsRound fuel csr n s = .ok (.again s') ∧ Descending row n root s' ∧
      2 * (n - s'.order.length) + s'.frames.length < 2 * (n - s.order.length) + s.frames.length) ∨
    dfsRound fuel csr n s = .ok (.done s.order) ∧ s.frames = [] := by
  rw [dfsRound]
  cases hframes : s.frames with
  | nil => exact .inr ⟨rfl, rfl⟩
  | cons cur below =>
    left
    have hin := h.frames cur (hframes ▸ List.mem_cons_self)
    have hcur := h.marks.inside cur hin
    obtain ⟨base, hstart, hstop, htgt⟩ := hcsr cur hcur
    obtain ⟨⟨s', descended⟩, hloop, ⟨hs', hcase⟩, hend⟩ :
        ∃ st, loop .outOfFuel (descend csr n cur base (row cur).length) fuel (s, false) = .ok st ∧
          (Scanning row n root (cur :: below) s.order st ∧
            (st.2 = false → ∃ c, st.1.cursor[cur]? = some c ∧ (row cur).length ≤ c)) := by
      refine loop_ok (I := Scanning row n root (cur :: below) s.order)
        (fun st => if st.2 then 0 else (row cur).length + 1 - st.1.cursor[cur]?.getD 0)
        (fun st hst => ?_) ⟨h, hframes, rfl⟩ ?_
      · rcases descend_spec hrow hcur htgt hst with hagain | ⟨hbody, hend⟩
        · exact .inl hagain
        · exact .inr ⟨st, hbody, hst, hend⟩
      · have hlt := hfuel cur hcur
        simp only [Bool.false_eq_true, if_false]
        omega
    dsimp only at hs' hcase hend
    dsimp only
    rw [get_eq hstart, ok_bind, get_eq hstop, ok_bind, Nat.add_sub_cancel_left, hloop, ok_bind]
    cases descended with
    | false =>
      obtain ⟨hframes', horder'⟩ : s'.frames = cur :: below ∧ s'.order = s.order := hcase
      obtain ⟨c, hc, hpassed⟩ := hend rfl
      have hpop := hs'.pop hframes' hc hpassed
      refine ⟨_, rfl, ?_, ?_⟩
      · rw [hframes']
        exact hpop
      · dsimp only
        rw [horder', hframes', List.tail_cons, List.length_cons]
        omega
    | true =>
      obtain ⟨hframes', horder'⟩ : s'.frames.length = (cur :: below).length + 1 ∧
        s'.order.length = s.order.length + 1 := hcase
      have hroom := hs'.marks.room
      refine ⟨s', rfl, hs', ?_⟩
      rw [List.length_cons] at hframes' ⊢
      omega

theorem dfs_spec (fuel : Nat) (hcsr : Indexes csr n row) (hrow : Inside row n)
    (hfuel : ∀ u < n, (row u).length + 1 < fuel) (hsize : 2 * n < fuel) (hroot : root < n) :
    ∃ order, loop .outOfFuel (dfsRound fuel csr n) fuel
        ⟨(List.replicate n 0).set root 1, List.replicate n 0, [root], [root]⟩ = .ok order ∧
      Preorder row [root] [] order := by
  have hloop : ∃ order, loop .outOfFuel (dfsRound fuel csr n) fuel
      ⟨(List.replicate n 0).set root 1, List.replicate n 0, [root], [root]⟩ = .ok order ∧
      ∃ s, Descending row n root s ∧ s.frames = [] ∧ s.order = order := by
    refine loop_ok (I := Descending row n root)
      (fun s => 2 * (n - s.order.length) + s.frames.length) (fun s hs => ?_)
      ⟨Marks.start hroot, List.length_replicate, fun v hv => hv, List.nodup_singleton root,
        fun v hv => ⟨0, by rw [List.getElem?_replicate, if_pos hv], Nat.zero_le _, fun _ => rfl⟩,
        fun order hrest => ?_⟩ ?_
    · rcases dfsRound_spec fuel hcsr hrow hfuel hs with hagain | ⟨hbody, hdone⟩
      · exact .inl hagain
      · exact .inr ⟨s.order, hbody, s, hs, hdone, rfl⟩
    · have hrow' : remaining row (List.replicate n 0) root = row root := by
        rw [remaining, List.getElem?_replicate, if_pos hroot]
        rfl
      rw [List.map_singleton, hrow'] at hrest
      cases hrest with
      | cons hwalk hnil =>
        cases hnil
        exact .fresh List.not_mem_nil hwalk .nil
    · dsimp only
      rw [List.length_singleton]
      omega
  obtain ⟨order, hloop, s, hs, hframes, rfl⟩ := hloop
  refine ⟨s.order, hloop, hs.rest s.order ?_⟩
  rw [hframes]
  exact .nil

end

end Cajeta.Collection.Graph
