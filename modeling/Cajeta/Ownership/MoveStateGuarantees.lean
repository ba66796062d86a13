import Cajeta.Ownership.MoveState

/-!
# When the static move state is exact

An assignment takes a mark away for every branch. As long as no branch does that to a mark of
another one, the log undoes each branch, and the marks cover what any path has transferred.
-/

namespace Cajeta.Ownership

def MoveEvent.isTransfer : MoveEvent → Bool
  | .transfer _ => true
  | .assign _ => false

/-- A marked name may be assigned unless it was marked when an arm was entered that is still open,
or its mark is in the log of a then arm. -/
def MoveEvent.Disciplined (frozen : String → Bool) (logged : Bool) (sc : MoveScope) :
    MoveEvent → Prop
  | .transfer _ => True
  | .assign x => sc.marks x → frozen x = false ∧ logged = false

def DisciplinedEvents (frozen : String → Bool) (logged : Bool) :
    List MoveEvent → MoveScope → Prop
  | [], _ => True
  | e :: es, sc => e.Disciplined frozen logged sc ∧ DisciplinedEvents frozen logged es (e.gen sc)

section discipline
variable (flags : EmitFlags)

mutual
/-- The statement may leave transfers in the log. -/
def keepsMoves : MoveStmt → InsertBlock → Bool
  | .run es, _ => es.any MoveEvent.isTransfer
  | .leave _ es, _ => es.any MoveEvent.isTransfer
  | .block _ body, b => !retracts flags body b && keepsMovesAll body b
  | .ifThen cond t, _ => cond.any MoveEvent.isTransfer || keepsMoves t .open
  | .ifElse cond t e, _ =>
    cond.any MoveEvent.isTransfer || keepsMoves t .open || keepsMoves e .open

def keepsMovesAll : MoveStmts → InsertBlock → Bool
  | .nil, _ => false
  | .cons s rest, b =>
    if b = .terminated then false
    else
      let b := lineMark flags b
      keepsMoves s b || keepsMovesAll rest (flow flags s b)
end

mutual
/-- No arm takes away a mark that it did not make, no then arm one that it made, and an arm that
does not reach the join keeps no transfer. -/
def Disciplined (frozen : String → Bool) (logged : Bool) :
    MoveStmt → InsertBlock → MoveScope → Prop
  | .run es, _, sc => DisciplinedEvents frozen logged es sc
  | .leave _ es, _, sc => DisciplinedEvents frozen logged es sc
  | .block _ body, b, sc =>
    -- a block that retracts takes what it logs back itself
    let undone := logged && retracts flags body b
    DisciplinedAll (fun x => frozen x || (undone && sc.marks x)) (logged && !undone) body b sc
  | .ifThen cond t, _, sc =>
    let start := genEvents cond sc
    DisciplinedEvents frozen logged cond sc ∧
      Disciplined (fun x => frozen x || start.marks x) logged t .open start
  | .ifElse cond t e, _, sc =>
    let start := genEvents cond sc
    DisciplinedEvents frozen logged cond sc ∧
      Disciplined (fun x => frozen x || start.marks x) true t .open start ∧
        Disciplined (fun x => frozen x || start.marks x) logged e .open
          (elseStart flags t start) ∧
          (completes t || !keepsMoves flags t .open) ∧ (completes e || !keepsMoves flags e .open)

def DisciplinedAll (frozen : String → Bool) (logged : Bool) :
    MoveStmts → InsertBlock → MoveScope → Prop
  | .nil, _, _ => True
  | .cons s rest, b, sc =>
    b = .terminated ∨
      let b := lineMark flags b
      Disciplined frozen logged s b sc ∧
        DisciplinedAll frozen logged rest (flow flags s b) (gen flags s b sc)
end

end discipline

/-- `new` is what the log got. Frozen marks stay, and are not logged again. -/
structure Walked (frozen : String → Bool) (sc : MoveScope) (new : List String)
    (sc' : MoveScope) : Prop where
  log : sc'.log = sc.log ++ new
  marks : ∀ x, sc'.marks x → sc.marks x ∨ x ∈ new
  kept : ∀ x, frozen x → sc.marks x → sc'.marks x ∧ x ∉ new

structure Grown (sc : MoveScope) (new : List String) (sc' : MoveScope) : Prop where
  marks : ∀ x, sc.marks x → sc'.marks x
  logged : ∀ x ∈ new, sc'.marks x

namespace Walked

theorem refl : Walked frozen sc [] sc :=
  ⟨(List.append_nil _).symm, fun _ hx => .inl hx, fun _ _ hx => ⟨hx, List.not_mem_nil⟩⟩

theorem trans (h : Walked frozen sc new sc') (h' : Walked frozen sc' new' sc'') :
    Walked frozen sc (new ++ new') sc'' where
  log := by rw [h'.log, h.log, List.append_assoc]
  marks x hx := by
    rw [List.mem_append, ← or_assoc]
    rcases h'.marks x hx with hx | hx
    · exact .inl (h.marks x hx)
    · exact .inr hx
  kept x hfrozen hx := by
    obtain ⟨hx, hnew⟩ := h.kept x hfrozen hx
    obtain ⟨hx, hnew'⟩ := h'.kept x hfrozen hx
    exact ⟨hx, by simp [hnew, hnew']⟩

theorem mono {frozen' : String → Bool} (h : Walked frozen' sc new sc')
    (hle : ∀ x, frozen x → frozen' x) : Walked frozen sc new sc' :=
  ⟨h.log, h.marks, fun x hx => h.kept x (hle x hx)⟩

theorem retract_marks (h : Walked frozen sc new sc') :
    (sc'.retractMovesSince sc.log.length).marks x ↔ sc'.marks x ∧ x ∉ new := by
  simp [MoveScope.retractMovesSince, h.log]

theorem retract (h : Walked frozen sc new sc') :
    Walked frozen sc [] (sc'.retractMovesSince sc.log.length) where
  log := by simp [MoveScope.retractMovesSince, h.log]
  marks x hx := by
    obtain ⟨hx, hnew⟩ := h.retract_marks.mp hx
    exact .inl ((h.marks x hx).resolve_right hnew)
  kept x hfrozen hx := ⟨h.retract_marks.mpr (h.kept x hfrozen hx), List.not_mem_nil⟩

theorem retract_eq (h : Walked frozen sc new sc') (hfrozen : ∀ x, sc.marks x → frozen x) :
    (sc'.retractMovesSince sc.log.length).marks = sc.marks := by
  funext x
  rw [Bool.eq_iff_iff, h.retract_marks]
  constructor
  · rintro ⟨hx, hnew⟩
    exact (h.marks x hx).resolve_right hnew
  · intro hx
    exact h.kept x (hfrozen x hx) hx

theorem snapshot (h : Walked frozen sc new sc') : sc'.snapshotMovesSince sc.log.length = new := by
  simp [MoveScope.snapshotMovesSince, h.log]

end Walked

namespace Grown

theorem refl : Grown sc [] sc := ⟨fun _ hx => hx, fun _ hx => (by cases hx)⟩

theorem trans (h : Grown sc new sc') (h' : Grown sc' new' sc'') : Grown sc (new ++ new') sc'' where
  marks x hx := h'.marks x (h.marks x hx)
  logged x hx := by
    rcases List.mem_append.mp hx with hx | hx
    · exact h'.marks x (h.logged x hx)
    · exact h'.logged x hx

end Grown

/-! ## Events -/

theorem demoteToBorrow_marks {sc : MoveScope} :
    (sc.demoteToBorrow x).marks y ↔ y = x ∨ sc.marks y := by
  unfold MoveScope.demoteToBorrow
  split
  · rename_i hx
    refine ⟨.inr, ?_⟩
    rintro (rfl | hy)
    · exact hx
    · exact hy
  · simp

theorem walked_demoteToBorrow (frozen : String → Bool) (x : String) (sc : MoveScope) :
    ∃ new, Walked frozen sc new (sc.demoteToBorrow x) ∧ Grown sc new (sc.demoteToBorrow x) ∧
      ∀ y ∈ new, y = x := by
  by_cases hx : sc.marks x = true
  · refine ⟨[], ?_⟩
    rw [MoveScope.demoteToBorrow, if_pos hx]
    exact ⟨.refl, .refl, fun _ hy => (by cases hy)⟩
  · refine ⟨[x], ⟨?_, ?_, ?_⟩, ⟨?_, ?_⟩, by simp⟩
    · rw [MoveScope.demoteToBorrow, if_neg hx]
    · intro y hy
      rw [List.mem_singleton, or_comm]
      exact demoteToBorrow_marks.mp hy
    · intro y _ hy
      refine ⟨demoteToBorrow_marks.mpr (.inr hy), ?_⟩
      rw [List.mem_singleton]
      rintro rfl
      exact hx hy
    · intro y hy
      exact demoteToBorrow_marks.mpr (.inr hy)
    · intro y hy
      exact demoteToBorrow_marks.mpr (.inl (List.mem_singleton.mp hy))

theorem walked_event {e : MoveEvent} {sc : MoveScope} (h : e.Disciplined frozen logged sc) :
    ∃ new, Walked frozen sc new (e.gen sc) ∧ (e.isTransfer = false → new = []) ∧
      (logged = true → Grown sc new (e.gen sc)) := by
  cases e with
  | transfer x =>
    obtain ⟨new, hwalked, hgrown, _⟩ := walked_demoteToBorrow frozen x sc
    exact ⟨new, hwalked, fun h => (by cases h), fun _ => hgrown⟩
  | assign x =>
    have hmarks {y : String} (hy : sc.marks y) (hne : y ≠ x) :
        (sc.restoreOwnership x).marks y := by
      simp [MoveScope.restoreOwnership, hy, hne]
    refine ⟨[], ⟨(List.append_nil _).symm, ?_, ?_⟩, fun _ => rfl, fun hlogged => ⟨?_, ?_⟩⟩
    · intro y hy
      simp only [MoveEvent.gen, MoveScope.restoreOwnership, Bool.and_eq_true] at hy
      exact .inl hy.2
    · intro y hfrozen hy
      refine ⟨hmarks hy ?_, List.not_mem_nil⟩
      rintro rfl
      rw [(h hy).1] at hfrozen
      cases hfrozen
    · intro y hy
      refine hmarks hy ?_
      rintro rfl
      rw [(h hy).2] at hlogged
      cases hlogged
    · intro y hy
      cases hy

theorem walked_events {es : List MoveEvent} {sc : MoveScope}
    (h : DisciplinedEvents frozen logged es sc) :
    ∃ new, Walked frozen sc new (genEvents es sc) ∧
      (es.any MoveEvent.isTransfer = false → new = []) ∧
        (logged = true → Grown sc new (genEvents es sc)) := by
  induction es generalizing sc with
  | nil => exact ⟨[], .refl, fun _ => rfl, fun _ => .refl⟩
  | cons e es ih =>
    obtain ⟨hfirst, hrest⟩ := h
    obtain ⟨new, hwalked, hnone, hgrown⟩ := walked_event hfirst
    obtain ⟨new', hwalked', hnone', hgrown'⟩ := ih hrest
    refine ⟨new ++ new', hwalked.trans hwalked', fun hany => ?_, fun hlogged => ?_⟩
    · rw [List.any_cons, Bool.or_eq_false_iff] at hany
      rw [hnone hany.1, hnone' hany.2]
      rfl
    · exact (hgrown hlogged).trans (hgrown' hlogged)

theorem walked_reapplyMoves (frozen : String → Bool) (moves : List String) (sc : MoveScope) :
    ∃ new, Walked frozen sc new (sc.reapplyMoves moves) ∧
      Grown sc new (sc.reapplyMoves moves) ∧ (∀ y ∈ new, y ∈ moves) ∧
        ∀ y, (sc.reapplyMoves moves).marks y ↔ sc.marks y ∨ y ∈ moves := by
  induction moves generalizing sc with
  | nil => exact ⟨[], .refl, .refl, by simp, by simp [MoveScope.reapplyMoves]⟩
  | cons x moves ih =>
    obtain ⟨new, hwalked, hgrown, hnew⟩ := walked_demoteToBorrow frozen x sc
    obtain ⟨new', hwalked', hgrown', hnew', hmarks⟩ := ih (sc.demoteToBorrow x)
    refine ⟨new ++ new', hwalked.trans hwalked', hgrown.trans hgrown', ?_, ?_⟩
    · intro y hy
      rcases List.mem_append.mp hy with hy | hy
      · exact List.mem_cons.mpr (.inl (hnew y hy))
      · exact List.mem_cons_of_mem _ (hnew' y hy)
    · intro y
      have hstep := hmarks y
      rw [demoteToBorrow_marks] at hstep
      rw [List.mem_cons, ← or_assoc, or_comm (a := sc.marks y = true)]
      exact hstep

/-! ## Statements -/

theorem emit_eq_open (h : b ≠ .terminated) : InsertBlock.emit b = .open := by
  cases b with
  | «open» | parked => rfl
  | terminated => exact absurd rfl h

section walk
variable (flags : EmitFlags)

theorem lineMark_cases (h : b ≠ .terminated) : lineMark flags b = .open ∨ lineMark flags b = b := by
  unfold lineMark
  split
  · exact .inl (emit_eq_open h)
  · exact .inr rfl

theorem lineMark_ne (h : b ≠ .terminated) : lineMark flags b ≠ .terminated := by
  rcases lineMark_cases flags h with hb | hb <;> simp [hb, h]

theorem retract_self (sc : MoveScope) : sc.retractMovesSince sc.log.length = sc := by
  simp [MoveScope.retractMovesSince]

mutual
theorem flow_of_completes (s : MoveStmt) (h : completes s = true) (hb : b ≠ .terminated) :
    flow flags s b = .open ∨ flow flags s b = b ∧ ∀ sc, gen flags s b sc = sc := by
  cases s with
  | run es =>
    rw [flow]
    exact .inl (emit_eq_open hb)
  | leave how es =>
    rw [completes] at h
    cases h
  | block drops body =>
    rw [completes] at h
    rw [flow]
    rcases flowAll_of_completes body h hb with hflow | ⟨hflow, hgen⟩
    · rw [hflow]
      refine .inl ?_
      split <;> rfl
    · rw [hflow]
      split
      · exact .inl (emit_eq_open hb)
      · refine .inr ⟨rfl, fun sc => ?_⟩
        rw [gen, hgen sc, retract_self, ite_self]
  | ifThen cond t =>
    rw [flow]
    exact .inl rfl
  | ifElse cond t e =>
    rw [completes, Bool.or_eq_true] at h
    rw [flow, if_neg]
    · exact .inl rfl
    · rintro ⟨ht, he⟩
      rcases h with h | h
      · rcases flow_of_completes t h (b := .open) (by simp) with hflow | ⟨hflow, _⟩ <;>
          (rw [hflow] at ht; cases ht)
      · rcases flow_of_completes e h (b := .open) (by simp) with hflow | ⟨hflow, _⟩ <;>
          (rw [hflow] at he; cases he)

theorem flowAll_of_completes (body : MoveStmts) (h : completesAll body = true)
    (hb : b ≠ .terminated) :
    flowAll flags body b = .open ∨
      flowAll flags body b = b ∧ ∀ sc, genAll flags body b sc = sc := by
  cases body with
  | nil =>
    rw [flowAll]
    exact .inr ⟨rfl, fun sc => by rw [genAll]⟩
  | cons s rest =>
    rw [completesAll, Bool.and_eq_true] at h
    rw [flowAll, if_neg hb]
    have hmark := lineMark_ne flags hb
    rcases flow_of_completes s h.1 hmark with hflow | ⟨hflow, hgen⟩
    · rw [hflow]
      rcases flowAll_of_completes rest h.2 (b := .open) (by simp) with hrest | ⟨hrest, _⟩ <;>
        exact .inl hrest
    · rw [hflow]
      rcases flowAll_of_completes rest h.2 hmark with hrest | ⟨hrest, hgenRest⟩
      · exact .inl hrest
      · rcases lineMark_cases flags hb with hmarked | hmarked
        · exact .inl (hrest.trans hmarked)
        · refine .inr ⟨hrest.trans hmarked, fun sc => ?_⟩
          rw [genAll, if_neg hb]
          dsimp only
          rw [hflow, hgen, hgenRest]
end

theorem gen_ifElse {cond : List MoveEvent} :
    gen flags (.ifElse cond t e) b sc =
      (gen flags e .open (elseStart flags t (genEvents cond sc))).reapplyMoves
        ((gen flags t .open (genEvents cond sc)).snapshotMovesSince
          (genEvents cond sc).log.length) := by
  rw [gen]
  rfl

/-- The arms of an `if` with an `else`: the else arm starts anew, and the join has the marks at its
end and the moves of the then arm. -/
theorem walked_arms {start : MoveScope}
    (ht : Walked (fun x => frozen x || start.marks x) start newT (gen flags t .open start))
    (he : Walked (fun x => frozen x || start.marks x) (elseStart flags t start) newE
      (gen flags e .open (elseStart flags t start))) :
    (elseStart flags t start).marks = start.marks ∧
      ∃ new, Walked frozen start (newE ++ new)
          ((gen flags e .open (elseStart flags t start)).reapplyMoves newT) ∧
        (∀ x ∈ new, x ∈ newT) ∧
        (∀ x, ((gen flags e .open (elseStart flags t start)).reapplyMoves newT).marks x ↔
          (gen flags e .open (elseStart flags t start)).marks x ∨ x ∈ newT) ∧
        ∀ x, start.marks x → (gen flags e .open (elseStart flags t start)).marks x := by
  have hmarks : (elseStart flags t start).marks = start.marks :=
    ht.retract_eq fun x hx => by simp [hx]
  obtain ⟨new, hnew, _, hsub, hjoin⟩ := walked_reapplyMoves frozen newT
    (gen flags e .open (elseStart flags t start))
  refine ⟨hmarks, new, ?_, hsub, hjoin, ?_⟩
  · have hstart : Walked frozen start [] (elseStart flags t start) :=
      ht.retract.mono fun x hx => by simp [hx]
    have hall := (hstart.trans (he.mono fun x hx => by simp [hx])).trans hnew
    rwa [List.nil_append] at hall
  · intro x hx
    refine (he.kept x (by simp [hx]) ?_).1
    rw [hmarks]
    exact hx

mutual
theorem walked_gen (s : MoveStmt) (h : Disciplined flags frozen logged s b sc) :
    ∃ new, Walked frozen sc new (gen flags s b sc) ∧
      (keepsMoves flags s b = false → new = []) ∧
        (logged = true → Grown sc new (gen flags s b sc)) := by
  cases s with
  | run es =>
    rw [Disciplined] at h
    rw [gen, keepsMoves]
    exact walked_events h
  | leave how es =>
    rw [Disciplined] at h
    rw [gen, keepsMoves]
    exact walked_events h
  | block drops body =>
    rw [Disciplined] at h
    obtain ⟨new, hwalked, hnone, hgrown⟩ := walked_genAll body h
    have hfrozen := hwalked.mono (fun x (hx : frozen x = true) => by simp [hx])
    rw [gen, keepsMoves]
    cases hretracts : retracts flags body b with
    | true =>
      refine ⟨[], hfrozen.retract, fun _ => rfl, fun hlogged => ⟨fun x hx => ?_, by simp⟩⟩
      exact hwalked.retract_marks.mpr (hwalked.kept x (by simp [hlogged, hretracts, hx]) hx)
    | false =>
      refine ⟨new, hfrozen, fun hkeeps => ?_, fun hlogged => ?_⟩
      · rw [Bool.not_false, Bool.true_and] at hkeeps
        exact hnone hkeeps
      · exact hgrown (by simp [hlogged, hretracts])
  | ifThen cond t =>
    rw [Disciplined] at h
    obtain ⟨newC, hcond, hnoneC, hgrownC⟩ := walked_events h.1
    obtain ⟨newT, ht, hnoneT, hgrownT⟩ := walked_gen t h.2
    rw [gen, keepsMoves]
    refine ⟨newC ++ newT, hcond.trans (ht.mono fun x hx => by simp [hx]), fun hkeeps => ?_,
      fun hlogged => (hgrownC hlogged).trans (hgrownT hlogged)⟩
    rw [Bool.or_eq_false_iff] at hkeeps
    rw [hnoneC hkeeps.1, hnoneT hkeeps.2]
    rfl
  | ifElse cond t e =>
    rw [Disciplined] at h
    obtain ⟨hcondD, htD, heD, _⟩ := h
    obtain ⟨newC, hcond, hnoneC, hgrownC⟩ := walked_events hcondD
    obtain ⟨newT, ht, hnoneT, _⟩ := walked_gen t htD
    obtain ⟨newE, he, hnoneE, hgrownE⟩ := walked_gen e heD
    obtain ⟨_, new, hjoined, hsub, hjoin, hstays⟩ := walked_arms flags ht he
    rw [gen_ifElse, ht.snapshot, keepsMoves]
    refine ⟨newC ++ (newE ++ new), hcond.trans hjoined, fun hkeeps => ?_, fun hlogged => ?_⟩
    · rw [Bool.or_eq_false_iff, Bool.or_eq_false_iff] at hkeeps
      have hnew : new = [] := by
        rw [List.eq_nil_iff_forall_not_mem]
        intro x hx
        have hxT := hsub x hx
        rw [hnoneT hkeeps.1.2] at hxT
        cases hxT
      rw [hnoneC hkeeps.1.1, hnoneE hkeeps.2, hnew]
      rfl
    · refine (hgrownC hlogged).trans ⟨fun x hx => (hjoin x).mpr (.inl (hstays x hx)), ?_⟩
      intro x hx
      rcases List.mem_append.mp hx with hx | hx
      · exact (hjoin x).mpr (.inl ((hgrownE hlogged).logged x hx))
      · exact (hjoin x).mpr (.inr (hsub x hx))

theorem walked_genAll (body : MoveStmts)
    (h : DisciplinedAll flags frozen logged body b sc) :
    ∃ new, Walked frozen sc new (genAll flags body b sc) ∧
      (keepsMovesAll flags body b = false → new = []) ∧
        (logged = true → Grown sc new (genAll flags body b sc)) := by
  cases body with
  | nil =>
    rw [genAll]
    exact ⟨[], .refl, fun _ => rfl, fun _ => .refl⟩
  | cons s rest =>
    rw [DisciplinedAll] at h
    rw [genAll, keepsMovesAll]
    by_cases hb : b = .terminated
    · rw [if_pos hb]
      exact ⟨[], .refl, fun _ => rfl, fun _ => .refl⟩
    · obtain ⟨hs, hrest⟩ := h.resolve_left hb
      obtain ⟨new, hwalked, hnone, hgrown⟩ := walked_gen s hs
      obtain ⟨new', hwalked', hnone', hgrown'⟩ := walked_genAll rest hrest
      rw [if_neg hb, if_neg hb]
      refine ⟨new ++ new', hwalked.trans hwalked', fun hkeeps => ?_, fun hlogged =>
        (hgrown hlogged).trans (hgrown' hlogged)⟩
      rw [Bool.or_eq_false_iff] at hkeeps
      rw [hnone hkeeps.1, hnone' hkeeps.2]
      rfl
end

/-! ## Paths -/

/-- Every name that the path has transferred is marked. -/
def Covers (sc : MoveScope) (P : Set String) : Prop := ∀ x ∈ P, sc.marks x

theorem covers_events (es : List MoveEvent) (h : Covers sc P) :
    Covers (genEvents es sc) (afterEvents es P) := by
  induction es generalizing sc P with
  | nil => exact h
  | cons e es ih =>
    refine ih ?_
    intro y hy
    cases e with
    | transfer x =>
      refine demoteToBorrow_marks.mpr ?_
      rcases hy with rfl | hy
      · exact .inl rfl
      · exact .inr (h y hy)
    | assign x =>
      obtain ⟨hy, hne⟩ := hy
      have hyx : y ≠ x := hne
      simp [MoveEvent.gen, MoveScope.restoreOwnership, h y hy, hyx]

mutual
theorem completes_of_outcomes (s : MoveStmt) (h : R ∈ outcomes s P) : completes s = true := by
  cases s with
  | run es => rw [completes]
  | leave how es =>
    rw [outcomes] at h
    exact absurd h (Set.notMem_empty R)
  | block drops body =>
    rw [outcomes] at h
    rw [completes]
    exact completesAll_of_outcomes body h
  | ifThen cond t => rw [completes]
  | ifElse cond t e =>
    rw [outcomes] at h
    rw [completes, Bool.or_eq_true]
    exact h.imp (completes_of_outcomes t) (completes_of_outcomes e)

theorem completesAll_of_outcomes (body : MoveStmts) (h : R ∈ outcomesAll body P) :
    completesAll body = true := by
  cases body with
  | nil => rw [completesAll]
  | cons s rest =>
    rw [outcomesAll] at h
    obtain ⟨Q, hQ, hR⟩ := h
    rw [completesAll, completes_of_outcomes s hQ, completesAll_of_outcomes rest hR]
    rfl
end

theorem gen_block_of_completes {body : MoveStmts} (h : completesAll body = true)
    (hb : b ≠ .terminated) :
    gen flags (.block drops body) b sc = genAll flags body b sc := by
  rw [gen]
  rcases flowAll_of_completes flags body h hb with hflow | ⟨_, hgen⟩
  · simp [retracts, hflow]
  · rw [hgen, retract_self, ite_self]

theorem flow_ne_terminated {s : MoveStmt} (h : completes s = true) (hb : b ≠ .terminated) :
    flow flags s b ≠ .terminated := by
  rcases flow_of_completes flags s h hb with hflow | ⟨hflow, _⟩ <;> simp [hflow, hb]

mutual
theorem covers_outcomes (s : MoveStmt) (h : Disciplined flags frozen logged s b sc)
    (hb : b ≠ .terminated) (hP : Covers sc P) (hR : R ∈ outcomes s P) :
    Covers (gen flags s b sc) R := by
  cases s with
  | run es =>
    rw [outcomes] at hR
    rw [gen, hR]
    exact covers_events _ hP
  | leave how es =>
    rw [outcomes] at hR
    exact absurd hR (Set.notMem_empty R)
  | block drops body =>
    rw [outcomes] at hR
    rw [Disciplined] at h
    rw [gen_block_of_completes flags (completesAll_of_outcomes body hR) hb]
    exact covers_outcomesAll body h hb hP hR
  | ifThen cond t =>
    rw [outcomes] at hR
    rw [Disciplined] at h
    rw [gen]
    have hstart := covers_events cond hP
    rcases hR with rfl | hR
    · obtain ⟨new, ht, _⟩ := walked_gen flags t h.2
      intro x hx
      exact (ht.kept x (by simp [hstart x hx]) (hstart x hx)).1
    · exact covers_outcomes t h.2 (by simp) hstart hR
  | ifElse cond t e =>
    rw [outcomes] at hR
    rw [Disciplined] at h
    obtain ⟨_, htD, heD, _⟩ := h
    have hstart := covers_events cond hP
    obtain ⟨newT, ht, _⟩ := walked_gen flags t htD
    obtain ⟨newE, he, _⟩ := walked_gen flags e heD
    obtain ⟨hmarks, new, _, _, hjoin, hstays⟩ := walked_arms flags ht he
    rw [gen_ifElse, ht.snapshot]
    intro x hx
    rw [hjoin]
    rcases hR with hR | hR
    · have hend := covers_outcomes t htD (by simp) hstart hR x hx
      exact (ht.marks x hend).imp_left (hstays x)
    · refine .inl (covers_outcomes e heD (by simp) ?_ hR x hx)
      intro y hy
      rw [hmarks]
      exact hstart y hy

theorem covers_outcomesAll (body : MoveStmts)
    (h : DisciplinedAll flags frozen logged body b sc) (hb : b ≠ .terminated)
    (hP : Covers sc P) (hR : R ∈ outcomesAll body P) :
    Covers (genAll flags body b sc) R := by
  cases body with
  | nil =>
    rw [outcomesAll] at hR
    rw [genAll, hR]
    exact hP
  | cons s rest =>
    rw [DisciplinedAll] at h
    obtain ⟨hs, hrest⟩ := h.resolve_left hb
    rw [outcomesAll] at hR
    obtain ⟨Q, hQ, hR⟩ := hR
    rw [genAll, if_neg hb]
    have hmark := lineMark_ne flags hb
    exact covers_outcomesAll rest hrest
      (flow_ne_terminated flags (completes_of_outcomes s hQ) hmark)
      (covers_outcomes s hs hmark hP hQ) hR
end

theorem covers_atEvents {es : List MoveEvent} (hP : Covers sc P)
    (h : AtEvents es sc P sc' Q) : Covers sc' Q := by
  obtain ⟨es', _, rfl, rfl⟩ := h
  exact covers_events _ hP

mutual
theorem covers_at (s : MoveStmt) (h : Disciplined flags frozen logged s b sc)
    (hb : b ≠ .terminated) (hP : Covers sc P) (hat : At flags s b sc P sc' Q) :
    Covers sc' Q := by
  cases s with
  | run es =>
    rw [At] at hat
    exact covers_atEvents hP hat
  | leave how es =>
    rw [At] at hat
    exact covers_atEvents hP hat
  | block drops body =>
    rw [At] at hat
    rcases hat with hat | ⟨rfl, hQ⟩
    · rw [Disciplined] at h
      exact covers_atAll body h hb hP hat
    · exact covers_outcomes flags (.block drops body) h hb hP (by rw [outcomes]; exact hQ)
  | ifThen cond t =>
    rw [At] at hat
    rcases hat with hat | hat | ⟨rfl, hQ⟩
    · exact covers_atEvents hP hat
    · rw [Disciplined] at h
      exact covers_at t h.2 (by simp) (covers_events _ hP) hat
    · exact covers_outcomes flags (.ifThen cond t) h hb hP hQ
  | ifElse cond t e =>
    rw [At] at hat
    rcases hat with hat | hat | hat | ⟨rfl, hQ⟩
    · exact covers_atEvents hP hat
    · rw [Disciplined] at h
      exact covers_at t h.2.1 (by simp) (covers_events _ hP) hat
    · rw [Disciplined] at h
      obtain ⟨_, htD, heD, _⟩ := h
      obtain ⟨newT, ht, _⟩ := walked_gen flags t htD
      refine covers_at e heD (by simp) ?_ hat
      have hmarks : (elseStart flags t (genEvents cond sc)).marks = (genEvents cond sc).marks :=
        ht.retract_eq fun x hx => by simp [hx]
      intro x hx
      rw [hmarks]
      exact covers_events _ hP x hx
    · exact covers_outcomes flags (.ifElse cond t e) h hb hP hQ

theorem covers_atAll (body : MoveStmts) (h : DisciplinedAll flags frozen logged body b sc)
    (hb : b ≠ .terminated) (hP : Covers sc P) (hat : AtAll flags body b sc P sc' Q) :
    Covers sc' Q := by
  cases body with
  | nil =>
    rw [AtAll] at hat
    obtain ⟨rfl, rfl⟩ := hat
    exact hP
  | cons s rest =>
    rw [DisciplinedAll] at h
    obtain ⟨hs, hrest⟩ := h.resolve_left hb
    rw [AtAll] at hat
    have hmark := lineMark_ne flags hb
    rcases hat with hat | ⟨R, hR, hat⟩
    · exact covers_at s hs hmark hP hat
    · exact covers_atAll rest hrest
        (flow_ne_terminated flags (completes_of_outcomes s hR) hmark)
        (covers_outcomes flags s hs hmark hP hR) hat
end

mutual
theorem joinsExact (s : MoveStmt) (h : Disciplined flags frozen logged s b sc) :
    JoinsExact flags s b sc := by
  cases s with
  | run es => rw [JoinsExact]; trivial
  | leave how es => rw [JoinsExact]; trivial
  | block drops body =>
    rw [Disciplined] at h
    rw [JoinsExact]
    exact joinsExactAll body h
  | ifThen cond t =>
    rw [Disciplined] at h
    rw [JoinsExact]
    exact joinsExact t h.2
  | ifElse cond t e =>
    rw [Disciplined] at h
    obtain ⟨_, htD, heD, hkeepsT, hkeepsE⟩ := h
    obtain ⟨newT, ht, hnoneT, hgrownT⟩ := walked_gen flags t htD
    obtain ⟨newE, he, hnoneE, _⟩ := walked_gen flags e heD
    obtain ⟨hmarks, new, _, _, hjoin, hstays⟩ := walked_arms flags ht he
    rw [JoinsExact]
    refine ⟨joinsExact t htD, joinsExact e heD, hmarks, fun hreach x => ?_⟩
    rw [gen_ifElse, ht.snapshot, hjoin]
    have hthen : (gen flags t .open (genEvents cond sc)).marks x = true ↔
        (genEvents cond sc).marks x = true ∨ x ∈ newT := by
      refine ⟨ht.marks x, ?_⟩
      rintro (hx | hx)
      · exact (ht.kept x (by simp [hx]) hx).1
      · exact (hgrownT rfl).logged x hx
    cases hcompletesT : completes t with
    | false =>
      -- the then arm leaves: it has logged nothing, and the else arm reaches the join
      rw [hcompletesT, Bool.false_or, Bool.not_eq_true'] at hkeepsT
      rw [hcompletesT, Bool.false_or] at hreach
      rw [hnoneT hkeepsT, hreach]
      simp
    | true =>
      cases hcompletesE : completes e with
      | false =>
        -- the else arm leaves: its end has the marks of its start
        rw [hcompletesE, Bool.false_or, Bool.not_eq_true'] at hkeepsE
        have helse : (gen flags e .open (elseStart flags t (genEvents cond sc))).marks x = true ↔
            (genEvents cond sc).marks x = true := by
          refine ⟨fun hx => ?_, hstays x⟩
          have hstart := he.marks x hx
          rw [hmarks, hnoneE hkeepsE] at hstart
          exact hstart.resolve_right List.not_mem_nil
        rw [hthen, helse]
        simp
      | true =>
        rw [hthen]
        have hx := hstays x
        tauto

theorem joinsExactAll (body : MoveStmts) (h : DisciplinedAll flags frozen logged body b sc) :
    JoinsExactAll flags body b sc := by
  cases body with
  | nil => rw [JoinsExactAll]; trivial
  | cons s rest =>
    rw [DisciplinedAll] at h
    rw [JoinsExactAll]
    exact h.imp_right fun h => ⟨joinsExact s h.1, joinsExactAll rest h.2⟩
end

end walk

/-- In a disciplined body, a name that is not marked was not transferred on any path since its last
assignment, and the joins are exact. -/
theorem moveState_exact (h : Disciplined flags (fun _ => false) false body .open sc)
    (hP : Covers sc P) :
    (∀ {sc' Q}, At flags body .open sc P sc' Q → ∀ x, sc'.isBorrow x = false → x ∉ Q) ∧
      JoinsExact flags body .open sc := by
  refine ⟨fun hat x hx hQ => ?_, joinsExact flags body h⟩
  have hmark := covers_at flags body h (by simp) hP hat x hQ
  rw [MoveScope.isBorrow, hmark] at hx
  cases hx

/-- `{ if (c) { f(#x); } else { } x = a; }`. -/
def assignedAfterJoin : MoveStmt :=
  .block false (.cons
    (.ifElse [] (.block false (.cons (.run [.transfer "x"]) .nil)) (.block false .nil))
    (.cons (.run [.assign "x"]) .nil))

theorem moveState_exact_assignedAfterJoin :
    Disciplined ⟨false, false⟩ (fun _ => false) false assignedAfterJoin .open .empty ∧
      Covers .empty ∅ ∧
        (∀ {sc' Q}, At ⟨false, false⟩ assignedAfterJoin .open .empty ∅ sc' Q →
          ∀ x, sc'.isBorrow x = false → x ∉ Q) ∧
          JoinsExact ⟨false, false⟩ assignedAfterJoin .open .empty := by
  have h : Disciplined ⟨false, false⟩ (fun _ => false) false assignedAfterJoin .open .empty := by
    simp [assignedAfterJoin, Disciplined, DisciplinedAll, DisciplinedEvents,
      MoveEvent.Disciplined, completes, completesAll]
  have hP : Covers .empty ∅ := fun _ hx => absurd hx (Set.notMem_empty _)
  exact ⟨h, hP, moveState_exact h hP⟩

/-- `{ f(#x); if (c) { x = a; } }`. -/
def assignedInArm : MoveStmt :=
  .block false (.cons (.run [.transfer "x"])
    (.cons (.ifThen [] (.block false (.cons (.run [.assign "x"]) .nil))) .nil))

/-- The arm takes the mark away for the path that skips it too. -/
theorem assignedInArm_unmarked :
    ¬ ∀ (flags : EmitFlags) (body : MoveStmt),
      (∀ {sc' Q}, At flags body .open .empty ∅ sc' Q → ∀ x, sc'.isBorrow x = false → x ∉ Q) ∧
        JoinsExact flags body .open .empty := by
  intro hall
  have hend : At ⟨false, false⟩ assignedInArm .open .empty ∅
      (gen ⟨false, false⟩ assignedInArm .open .empty) {"x"} := by
    rw [assignedInArm, At]
    refine .inr ⟨rfl, ?_⟩
    simp [outcomesAll, outcomes, afterEvents, MoveEvent.after]
  exact (hall ⟨false, false⟩ assignedInArm).1 hend "x" (by decide) rfl

end Cajeta.Ownership
