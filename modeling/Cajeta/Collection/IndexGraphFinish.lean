import Cajeta.Collection.IndexGraphWalk
import Mathlib.Algebra.Order.BigOperators.Group.List
import Mathlib.Algebra.Order.Group.Nat
import Mathlib.Algebra.GroupWithZero.Nat

/-!
# The first pass over the components

The stack of frames with a cursor for every node walks depth first. A node leaves the stack when all
nodes that it leads to have been seen, so what is reached from it is finished with it, or it is on
the stack below, from where the node itself can be reached.
-/

namespace Cajeta.Collection.Graph
open Except Relation Traversal While

section

variable {row : Nat → List Nat} {n : Nat} {csr : Csr} {s : DfsState}

theorem length_le_of_nodup {xs : List Nat} (h : xs.Nodup) (hin : ∀ x ∈ xs, x < n) :
    xs.length ≤ n := by
  have hle := (List.subperm_of_subset h fun x hx => List.mem_range.mpr (hin x hx)).length_le
  rwa [List.length_range] at hle

theorem length_lt_of_not_mem {xs : List Nat} (h : xs.Nodup) (hin : ∀ x ∈ xs, x < n) (hx : x < n)
    (hnot : x ∉ xs) : xs.length < n :=
  length_le_of_nodup (List.nodup_cons.mpr ⟨hnot, h⟩) (List.forall_mem_cons.mpr ⟨hx, hin⟩)

/-- The number of edges that a cursor can pass. -/
def steps (row : Nat → List Nat) (n : Nat) : Nat := ((List.range n).map fun u => (row u).length).sum

theorem sum_le_steps {cursor : List Nat} (hlen : cursor.length = n)
    (h : ∀ v < n, ∃ c, cursor[v]? = some c ∧ c ≤ (row v).length) : cursor.sum ≤ steps row n := by
  refine List.Forall₂.sum_le_sum (List.forall₂_iff_get.mpr ⟨?_, fun i hi hi' => ?_⟩)
  · rw [hlen, List.length_map, List.length_range]
  · obtain ⟨c, hc, hle⟩ := h i (hlen ▸ hi)
    obtain ⟨hi'', rfl⟩ := List.getElem?_eq_some_iff.mp hc
    rw [List.get_eq_getElem, List.get_eq_getElem, List.getElem_map, List.getElem_range]
    exact hle

theorem sum_set_succ {cursor : List Nat} (h : cursor[v]? = some c) :
    (cursor.set v (c + 1)).sum = cursor.sum + 1 := by
  induction cursor generalizing v with
  | nil => cases h
  | cons a rest ih =>
    cases v with
    | zero =>
      obtain rfl : a = c := Option.some.inj h
      rw [List.set_cons_zero, List.sum_cons, List.sum_cons]
      omega
    | succ v =>
      rw [List.set_cons_succ, List.sum_cons, List.sum_cons, ih h]
      omega

/-- On the stack or finished. -/
def DfsState.Seen (s : DfsState) (v : Nat) : Prop := v ∈ s.frames ∨ v ∈ s.order

instance (s : DfsState) (v : Nat) : Decidable (s.Seen v) :=
  inferInstanceAs (Decidable (v ∈ s.frames ∨ v ∈ s.order))

/-- The walk so far; everything in `old` has been seen. -/
structure Finishing (row : Nat → List Nat) (n : Nat) (old : List Nat) (s : DfsState) : Prop where
  seenLength : s.seen.length = n
  cursorLength : s.cursor.length = n
  seen : ∀ v < n, s.seen[v]? = some (if s.Seen v then 1 else 0)
  nodup : (s.frames ++ s.order).Nodup
  inside : ∀ v, s.Seen v → v < n
  keeps : ∀ v ∈ old, s.Seen v
  stack : s.frames.Pairwise fun u v => ReflTransGen (Leads row) v u
  cursor : ∀ v < n, ∃ c, s.cursor[v]? = some c ∧ c ≤ (row v).length ∧
    ∀ j < c, ∀ w, (row v)[j]? = some w → s.Seen w
  finished : ∀ v ∈ s.order, ∀ w ∈ row v, s.Seen w
  order : FinishOrder (Leads row) s.order

/-- The steps that the walk is good for. -/
def finishRank (row : Nat → List Nat) (n : Nat) (s : DfsState) : Nat :=
  steps row n + n - (s.cursor.sum + s.order.length)

theorem Finishing.room (h : Finishing row n old s) :
    s.cursor.sum ≤ steps row n ∧ s.frames.length + s.order.length ≤ n := by
  constructor
  · refine sum_le_steps h.cursorLength fun v hv => ?_
    obtain ⟨c, hc, hle, -⟩ := h.cursor v hv
    exact ⟨c, hc, hle⟩
  · rw [← List.length_append]
    exact length_le_of_nodup h.nodup fun x hx => h.inside x (List.mem_append.mp hx)

theorem Finishing.reach_top (h : Finishing row n old s) (hframes : s.frames = cur :: rest)
    (hpassed : ∀ w ∈ row cur, s.Seen w) (hv : ReflTransGen (Leads row) cur v) :
    v ∈ s.order ++ [cur] ∨ ∃ w, w ∉ s.order ++ [cur] ∧ Mutual (Leads row) cur w := by
  by_cases hin : v ∈ s.order ++ [cur]
  · exact .inl hin
  · right
    obtain ⟨x, y, hx, hxy, hxin, hyin, -⟩ := exists_exit (P := (· ∈ s.order ++ [cur])) hv
      (List.mem_append_right _ (List.mem_singleton_self cur)) hin
    have hseen : s.Seen y := by
      rcases List.mem_append.mp hxin with hxin | hxin
      · exact h.finished x hxin y hxy
      · rw [List.mem_singleton.mp hxin] at hxy
        exact hpassed y hxy
    refine ⟨y, hyin, hx.tail hxy, ?_⟩
    -- `y` is below on the stack
    rcases hseen with hy | hy
    · rw [hframes] at hy
      rcases List.mem_cons.mp hy with rfl | hy
      · exact .refl
      · have hstack := h.stack
        rw [hframes] at hstack
        exact (List.pairwise_cons.mp hstack).1 y hy
    · exact absurd (List.mem_append_left _ hy) hyin

/-- The state with `nxt` on top, at which the cursor of `cur` has passed an edge more. -/
def DfsState.entered (s : DfsState) (cur c nxt : Nat) : DfsState :=
  { s with seen := s.seen.set nxt 1, cursor := s.cursor.set cur (c + 1), frames := nxt :: s.frames }

theorem DfsState.seen_entered (s : DfsState) (cur c nxt v : Nat) :
    (s.entered cur c nxt).Seen v ↔ v = nxt ∨ s.Seen v := by
  simp only [DfsState.entered, DfsState.Seen, List.mem_cons, or_assoc]

/-- The state in which only the cursor of `cur` has passed an edge more. -/
def DfsState.advanced (s : DfsState) (cur c : Nat) : DfsState :=
  { s with cursor := s.cursor.set cur (c + 1) }

/-- The state after the top of the stack is finished. -/
def DfsState.left (s : DfsState) (cur : Nat) (rest : List Nat) : DfsState :=
  { s with frames := rest, order := s.order ++ [cur] }

theorem DfsState.seen_left (s : DfsState) (hframes : s.frames = cur :: rest) (v : Nat) :
    (s.left cur rest).Seen v ↔ s.Seen v := by
  simp only [DfsState.left, DfsState.Seen, hframes, List.mem_cons, List.mem_append,
    List.not_mem_nil, or_false]
  tauto

theorem Finishing.push (h : Finishing row n old s) (hframes : s.frames = cur :: rest)
    (hc : s.cursor[cur]? = some c) (hrow : (row cur)[c]? = some nxt) (hn : nxt < n)
    (hnot : ¬ s.Seen nxt) :
    Finishing row n old (s.entered cur c nxt) := by
  have hcur : cur < n := h.inside cur (.inl (hframes ▸ List.mem_cons_self))
  have hseenLen := h.seenLength
  have hcursorLen := h.cursorLength
  have hiff := s.seen_entered cur c nxt
  refine ⟨List.length_set.trans hseenLen, List.length_set.trans hcursorLen, fun v hv => ?_, ?_,
    fun v hv => ?_, fun v hv => (hiff v).mpr (.inr (h.keeps v hv)), ?_, fun v hv => ?_,
    fun v hv w hw => (hiff w).mpr (.inr (h.finished v hv w hw)), h.order⟩
  · change (s.seen.set nxt 1)[v]? = some (if (s.entered cur c nxt).Seen v then 1 else 0)
    rw [List.getElem?_set]
    by_cases hv' : nxt = v
    · subst hv'
      rw [if_pos rfl, if_pos (by omega), if_pos ((hiff nxt).mpr (.inl rfl))]
    · rw [if_neg hv', h.seen v hv]
      simp only [hiff, Ne.symm hv', false_or]
  · rw [DfsState.entered, List.cons_append]
    exact List.nodup_cons.mpr ⟨fun hin => hnot (List.mem_append.mp hin), h.nodup⟩
  · rcases (hiff v).mp hv with rfl | hv
    · exact hn
    · exact h.inside v hv
  · have hedge : Leads row cur nxt := List.mem_of_getElem? hrow
    refine List.pairwise_cons.mpr ⟨fun v hv => ?_, h.stack⟩
    rw [hframes] at hv
    rcases List.mem_cons.mp hv with rfl | hv
    · exact .single hedge
    · have hstack := h.stack
      rw [hframes] at hstack
      exact ((List.pairwise_cons.mp hstack).1 v hv).tail hedge
  · rw [DfsState.entered]
    obtain ⟨d, hd, hle, hpassed⟩ := h.cursor v hv
    rw [List.getElem?_set]
    by_cases hv' : cur = v
    · subst hv'
      obtain rfl : c = d := Option.some.inj (hc.symm.trans hd)
      refine ⟨c + 1, by rw [if_pos rfl, if_pos (by omega)],
        (List.getElem?_eq_some_iff.mp hrow).1, fun j hj w hw => (hiff w).mpr ?_⟩
      rcases Nat.lt_succ_iff_lt_or_eq.mp hj with hj | rfl
      · exact .inr (hpassed j hj w hw)
      · exact .inl (Option.some.inj (hw.symm.trans hrow))
    · exact ⟨d, by rw [if_neg hv', hd], hle,
        fun j hj w hw => (hiff w).mpr (.inr (hpassed j hj w hw))⟩

theorem Finishing.advance (h : Finishing row n old s) (hcur : cur < n)
    (hc : s.cursor[cur]? = some c) (hrow : (row cur)[c]? = some nxt) (hseen : s.Seen nxt) :
    Finishing row n old (s.advanced cur c) := by
  have hcursorLen := h.cursorLength
  refine ⟨h.seenLength, List.length_set.trans hcursorLen, h.seen, h.nodup, h.inside, h.keeps,
    h.stack, fun v hv => ?_, h.finished, h.order⟩
  rw [DfsState.advanced]
  obtain ⟨d, hd, hle, hpassed⟩ := h.cursor v hv
  rw [List.getElem?_set]
  by_cases hv' : cur = v
  · subst hv'
    obtain rfl : c = d := Option.some.inj (hc.symm.trans hd)
    refine ⟨c + 1, by rw [if_pos rfl, if_pos (by omega)], (List.getElem?_eq_some_iff.mp hrow).1,
      fun j hj w hw => ?_⟩
    rcases Nat.lt_succ_iff_lt_or_eq.mp hj with hj | rfl
    · exact hpassed j hj w hw
    · exact Option.some.inj (hw.symm.trans hrow) ▸ hseen
  · exact ⟨d, by rw [if_neg hv', hd], hle, hpassed⟩

theorem Finishing.pop (h : Finishing row n old s) (hframes : s.frames = cur :: rest)
    (hpassed : ∀ w ∈ row cur, s.Seen w) :
    Finishing row n old (s.left cur rest) := by
  have hiff := s.seen_left hframes
  have hnodup := h.nodup
  rw [hframes, List.cons_append] at hnodup
  refine ⟨h.seenLength, h.cursorLength, fun v hv => ?_, ?_, fun v hv => h.inside v ((hiff v).mp hv),
    fun v hv => (hiff v).mpr (h.keeps v hv), ?_, fun v hv => ?_, fun v hv w hw => ?_,
    h.order.snoc fun v hv => h.reach_top hframes hpassed hv⟩
  · simp only [hiff]
    exact h.seen v hv
  · rw [DfsState.left, ← List.append_assoc]
    have hperm : (rest ++ s.order ++ [cur]).Perm (cur :: (rest ++ s.order)) :=
      List.perm_append_singleton _ _
    exact hperm.nodup_iff.mpr hnodup
  · have hstack := h.stack
    rw [hframes] at hstack
    exact (List.pairwise_cons.mp hstack).2
  · obtain ⟨c, hc, hle, hseen⟩ := h.cursor v hv
    exact ⟨c, hc, hle, fun j hj w hw => (hiff w).mpr (hseen j hj w hw)⟩
  · refine (hiff w).mpr ?_
    rcases List.mem_append.mp hv with hv | hv
    · exact h.finished v hv w hw
    · rw [List.mem_singleton.mp hv] at hw
      exact hpassed w hw

theorem finishRound_spec (hcsr : Indexes csr n row) (hrow : Inside row n)
    (h : Finishing row n old s) :
    (∃ s', finishRound csr n s = .ok (.again s') ∧ Finishing row n old s' ∧
      finishRank row n s' < finishRank row n s) ∨
    finishRound csr n s = .ok (.done s) ∧ s.frames = [] := by
  rw [finishRound]
  cases hframes : s.frames with
  | nil => exact .inr ⟨rfl, rfl⟩
  | cons cur rest =>
    left
    have hcur : cur < n := h.inside cur (.inl (hframes ▸ List.mem_cons_self))
    obtain ⟨start, hstart, hstop, htgt⟩ := hcsr cur hcur
    obtain ⟨c, hc, hle, hpassed⟩ := h.cursor cur hcur
    have hroom := h.room
    have hcursorLen := h.cursorLength
    have hseenLen := h.seenLength
    rw [hframes, List.length_cons] at hroom
    dsimp only
    rw [get_eq hstart, ok_bind, get_eq hstop, ok_bind, get_eq hc, ok_bind, Nat.add_sub_cancel_left]
    by_cases hlt : c < (row cur).length
    · obtain ⟨nxt, hnxt⟩ := exists_getElem? hlt
      have hn : nxt < n := hrow cur hcur nxt (List.mem_of_getElem? hnxt)
      have hmark := h.seen nxt hn
      rw [if_pos hlt, get_eq ((htgt c hlt).trans hnxt), ok_bind, put_eq (by omega), ok_bind,
        get_eq hmark, ok_bind]
      by_cases hseen : s.Seen nxt
      · have hnext := h.advance hcur hc hnxt hseen
        have hroom' := hnext.room
        rw [if_pos hseen, if_neg (by decide)]
        refine ⟨s.advanced cur c, by rw [DfsState.advanced, hframes]; rfl, hnext, ?_⟩
        simp only [finishRank, DfsState.advanced, sum_set_succ hc] at hroom' ⊢
        omega
      · have hnext := h.push hframes hc hnxt hn hseen
        have hroom' := hnext.room
        simp only [DfsState.entered, hframes, List.length_cons, sum_set_succ hc] at hroom'
        rw [if_neg hseen, if_pos rfl, put_eq (by omega), ok_bind, Graph.push,
          if_pos (by rw [List.length_cons]; omega), ok_bind]
        refine ⟨s.entered cur c nxt, by rw [DfsState.entered, hframes]; rfl, hnext, ?_⟩
        simp only [finishRank, DfsState.entered, sum_set_succ hc]
        omega
    · have hall : ∀ w ∈ row cur, s.Seen w := by
        intro w hw
        obtain ⟨j, hj, hget⟩ := List.mem_iff_getElem.mp hw
        exact hpassed j (by omega) w (by rw [List.getElem?_eq_getElem hj, hget])
      have hnext := h.pop hframes hall
      rw [if_neg hlt, append, if_pos (by omega), ok_bind]
      refine ⟨s.left cur rest, rfl, hnext, ?_⟩
      simp only [finishRank, DfsState.left, List.length_append, List.length_singleton]
      omega

theorem Finishing.keep (h : Finishing row n old s) (hkeeps : ∀ v ∈ old', s.Seen v) :
    Finishing row n old' s :=
  ⟨h.seenLength, h.cursorLength, h.seen, h.nodup, h.inside, hkeeps, h.stack, h.cursor, h.finished,
    h.order⟩

theorem Finishing.start (h : Finishing row n old s) (hframes : s.frames = []) (hroot : root < n)
    (hnot : ¬ s.Seen root) :
    Finishing row n (old ++ [root]) { s with seen := s.seen.set root 1, frames := [root] } := by
  have hseenLen := h.seenLength
  have horder : ∀ v, s.Seen v ↔ v ∈ s.order := fun v => by
    simp only [DfsState.Seen, hframes, List.not_mem_nil, false_or]
  have hiff : ∀ v, DfsState.Seen ⟨s.seen.set root 1, s.cursor, [root], s.order⟩ v ↔
      v = root ∨ s.Seen v := fun v => by
    rw [horder, DfsState.Seen, List.mem_singleton]
  refine ⟨List.length_set.trans hseenLen, h.cursorLength, fun v hv => ?_, ?_, fun v hv => ?_,
    fun v hv => ?_, List.pairwise_singleton _ _, fun v hv => ?_, fun v hv w hw => ?_, h.order⟩
  · change (s.seen.set root 1)[v]? = some (if DfsState.Seen ⟨s.seen.set root 1, s.cursor, [root],
      s.order⟩ v then 1 else 0)
    rw [List.getElem?_set]
    by_cases hv' : root = v
    · subst hv'
      rw [if_pos rfl, if_pos (by omega), if_pos ((hiff root).mpr (.inl rfl))]
    · rw [if_neg hv', h.seen v hv]
      simp only [hiff, Ne.symm hv', false_or]
  · refine List.nodup_cons.mpr ⟨fun hin => hnot ((horder root).mpr hin), ?_⟩
    have hnodup := h.nodup
    rw [hframes] at hnodup
    exact hnodup
  · rcases (hiff v).mp hv with rfl | hv
    · exact hroot
    · exact h.inside v hv
  · refine (hiff v).mpr ?_
    rcases List.mem_append.mp hv with hv | hv
    · exact .inr (h.keeps v hv)
    · exact .inl (List.mem_singleton.mp hv)
  · obtain ⟨c, hc, hle, hpassed⟩ := h.cursor v hv
    exact ⟨c, hc, hle, fun j hj w hw => (hiff w).mpr (.inr (hpassed j hj w hw))⟩
  · exact (hiff w).mpr (.inr (h.finished v hv w hw))

theorem finishFrom_spec (fuel : Nat) (hcsr : Indexes csr n row) (hrow : Inside row n)
    (hfuel : steps row n + n < fuel) (hroot : root < n) (h : Finishing row n old s)
    (hframes : s.frames = []) :
    ∃ s', finishFrom fuel csr n s root = .ok s' ∧ Finishing row n (old ++ [root]) s' ∧
      s'.frames = [] := by
  rw [finishFrom, get_eq (h.seen root hroot), ok_bind]
  by_cases hseen : s.Seen root
  · rw [if_pos hseen, if_neg (by decide)]
    refine ⟨s, rfl, h.keep fun v hv => ?_, hframes⟩
    rcases List.mem_append.mp hv with hv | hv
    · exact h.keeps v hv
    · rw [List.mem_singleton.mp hv]
      exact hseen
  · have hseenLen := h.seenLength
    rw [if_neg hseen, if_pos rfl, put_eq (by omega), ok_bind, push,
      if_pos (by rw [List.length_nil]; omega), ok_bind]
    refine loop_ok (I := Finishing row n (old ++ [root])) (finishRank row n) (fun s hs => ?_)
      (h.start hframes hroot hseen) ?_
    · rcases finishRound_spec hcsr hrow hs with hagain | ⟨hbody, hdone⟩
      · exact .inl hagain
      · exact .inr ⟨s, hbody, hs, hdone⟩
    · unfold finishRank
      omega

theorem finish_spec (fuel : Nat) (hcsr : Indexes csr n row) (hrow : Inside row n)
    (hfuel : steps row n + n < fuel) :
    ∃ s, (List.range n).foldlM (finishFrom fuel csr n)
        ⟨List.replicate n 0, List.replicate n 0, [], []⟩ = .ok s ∧
      (FinishOrder (Leads row) s.order ∧ s.order.Nodup ∧ ∀ v, v ∈ s.order ↔ v < n) := by
  have hfold : ∃ s, (List.range n).foldlM (finishFrom fuel csr n)
      ⟨List.replicate n 0, List.replicate n 0, [], []⟩ = .ok s ∧
      (Finishing row n (List.range n) s ∧ s.frames = []) := by
    refine fold_ok (I := fun done s => Finishing row n done s ∧ s.frames = []) (List.range n)
      (fun done root rest s hdone hs => ?_) ⟨⟨List.length_replicate, List.length_replicate,
        fun v hv => ?_, List.nodup_nil, fun v hv => ?_, fun v hv => absurd hv List.not_mem_nil,
        List.Pairwise.nil, fun v hv => ?_, fun v hv => absurd hv List.not_mem_nil, .nil⟩, rfl⟩
    · exact finishFrom_spec fuel hcsr hrow hfuel (range_split hdone).2 hs.1 hs.2
    · rw [List.getElem?_replicate, if_pos hv]
      rfl
    · simp [DfsState.Seen] at hv
    · refine ⟨0, by rw [List.getElem?_replicate, if_pos hv], Nat.zero_le _, fun j hj => ?_⟩
      exact absurd hj (Nat.not_lt_zero j)
  obtain ⟨s, hfold, hs, hframes⟩ := hfold
  have horder : ∀ v, s.Seen v ↔ v ∈ s.order := fun v => by
    simp only [DfsState.Seen, hframes, List.not_mem_nil, false_or]
  have hnodup := hs.nodup
  rw [hframes, List.nil_append] at hnodup
  refine ⟨s, hfold, hs.order, hnodup, fun v => ⟨fun hv => ?_, fun hv => ?_⟩⟩
  · exact hs.inside v ((horder v).mpr hv)
  · exact (horder v).mp (hs.keeps v (List.mem_range.mpr hv))

end

end Cajeta.Collection.Graph
