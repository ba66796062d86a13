import Cajeta.Ownership.TitleShape

/-!
# What a conditional says about its arms, and what an owned formal receives

The answer of a conditional is a function of the set of its leaf arms. It does not tell that an arm
is bound to the frame, so a consumer that only asks for the conditional's own shape lets it pass.
-/

namespace Cajeta.Ownership
open TitleShape

structure Represents (x : TitleAnswer) (l : List TitleAnswer) : Prop where
  nonempty : l ≠ []
  owned : x = .owned ↔ ∀ y ∈ l, y = .owned
  hasTitle : x.hasTitle ↔ ∃ y ∈ l, y.hasTitle

namespace Represents

theorem single : Represents x [x] := ⟨by simp, by simp, by simp⟩

theorem join {a b : TitleShape} (ha : Represents a.answer l) (hb : Represents b.answer l') :
    Represents (join a b).answer (l ++ l') := by
  have hnonempty : l ++ l' ≠ [] := by simp [ha.nonempty]
  have hex : (∃ y ∈ l ++ l', y.hasTitle) ↔ a.answer.hasTitle ∨ b.answer.hasTitle := by
    rw [ha.hasTitle, hb.hasTitle]
    simp only [List.mem_append, or_and_right, exists_or]
  have hall : (∀ y ∈ l ++ l', y = .owned) ↔ a.answer = .owned ∧ b.answer = .owned := by
    rw [ha.owned, hb.owned]
    simp only [List.mem_append, or_imp, forall_and]
  refine ⟨hnonempty, ?_, ?_⟩
  · rw [hall]
    unfold Ownership.join
    dsimp only
    split
    · rename_i hnone
      rw [Bool.and_eq_true] at hnone
      refine ⟨fun h => (by cases h), fun h => ?_⟩
      rw [h.1] at hnone
      cases hnone.1
    · split
      · rename_i hboth
        exact ⟨fun _ => hboth, fun _ => rfl⟩
      · rename_i hboth
        exact ⟨fun h => (by cases h), fun h => absurd h hboth⟩
  · rw [hex]
    unfold Ownership.join
    dsimp only
    split
    · rename_i hnone
      rw [Bool.and_eq_true, Bool.not_eq_true', Bool.not_eq_true'] at hnone
      rw [hnone.1, hnone.2]
      exact ⟨fun h => (by cases h), fun h => (by rcases h with h | h <;> cases h)⟩
    · rename_i hsome
      have hor : a.answer.hasTitle ∨ b.answer.hasTitle := by
        rw [Bool.and_eq_true, Bool.not_eq_true', Bool.not_eq_true', not_and_or,
          Bool.not_eq_false, Bool.not_eq_false] at hsome
        exact hsome
      split
      · exact ⟨fun _ => hor, fun _ => rfl⟩
      · exact ⟨fun _ => hor, fun _ => rfl⟩

theorem of_append_self (h : Represents x (l ++ l)) : Represents x l := by
  refine ⟨fun hnil => h.nonempty (by rw [hnil, List.append_nil]), ?_, ?_⟩
  · rw [h.owned]
    simp only [List.mem_append, or_self]
  · rw [h.hasTitle]
    simp only [List.mem_append, or_self]

end Represents

/-! ## Leaf arms -/

mutual
/-- The leaf arms of an expression: reference casts and nested conditionals are looked through,
anything of scalar type is a leaf. -/
def arms : Expr → List Expr
  | .referenceCast e => arms e
  | .booleanSwitch type a b =>
    if type.scalar then [.booleanSwitch type a b] else arms a ++ arms b
  | .switch type cases =>
    if type.scalar then [.switch type cases]
    else
      match cases with
      | .nil => [.switch type .nil]
      | .cons body rest => arms body ++ armsCases rest
  | e => [e]

def armsCases : Cases → List Expr
  | .nil => []
  | .cons body rest => arms body ++ armsCases rest
end

def isConditional : Expr → Bool
  | .referenceCast e => isConditional e
  | .booleanSwitch type _ _ => !type.scalar
  | .switch type (.cons _ _) => !type.scalar
  | _ => false

theorem join_family {a b : TitleShape} : (join a b).family = .conditional := by
  unfold join
  dsimp only
  split
  · rfl
  · split <;> rfl

mutual
theorem represents_arms (e : Expr) :
    Represents (classify e).answer ((arms e).map fun arm => (classify arm).answer) := by
  cases e with
  | leaf type l =>
    rw [arms]
    exact .single
    all_goals simp
  | referenceCast e =>
    rw [arms, classify]
    exact represents_arms e
  | assign type rhs =>
    rw [arms]
    exact .single
    all_goals simp
  | booleanSwitch type a b =>
    rw [arms]
    split
    · exact .single
    · rename_i hscalar
      rw [classify, if_neg hscalar, List.map_append]
      exact (represents_arms a).join (represents_arms b)
  | switch type cases =>
    cases cases with
    | nil =>
      rw [arms]
      split <;> exact .single
    | cons body rest =>
      rw [arms]
      split
      · exact .single
      · rename_i hscalar
        rw [classify, if_neg hscalar, List.map_append]
        have hall := represents_cases rest (represents_arms body)
        dsimp only
        split
        · exact (hall.join hall).of_append_self
        · exact hall
  | move type sharpStore captureMarker inner =>
    rw [arms]
    exact .single
    all_goals simp

theorem represents_cases (cases : Cases) (h : Represents acc.answer l) :
    Represents (classifyCases acc cases).answer
      (l ++ (armsCases cases).map fun arm => (classify arm).answer) := by
  cases cases with
  | nil =>
    rw [armsCases, classifyCases, List.map_nil, List.append_nil]
    exact h
  | cons body rest =>
    rw [armsCases, classifyCases, List.map_append, ← List.append_assoc]
    exact represents_cases rest (h.join (represents_arms body))
end

/-! ## Shapes of conditionals -/

def Joined (s : TitleShape) : Prop :=
  s.family = .conditional → s.answer ≠ .stackBound ∧ s.answer ≠ .scalar

theorem joined_join {a b : TitleShape} : Joined (join a b) := by
  intro _
  unfold join
  dsimp only
  split
  · exact ⟨by simp, by simp⟩
  · split <;> exact ⟨by simp, by simp⟩

theorem calleeResult_family_ne {m : MethodFacts} :
    (calleeResult fs m).family ≠ .conditional := by
  unfold calleeResult
  dsimp only
  repeat' split
  all_goals simp

theorem closureCallShape_family_ne : (closureCallShape type fn).family ≠ .conditional := by
  unfold closureCallShape
  repeat' split
  all_goals simp

theorem intrinsicResult_family_ne {c : CallFacts} :
    (intrinsicResult fs c).family ≠ .conditional := by
  unfold intrinsicResult
  split <;> simp

theorem callResult_family_ne {c : CallFacts} : (callResult type c).family ≠ .conditional := by
  unfold callResult
  split
  · simp
  · split
    · exact calleeResult_family_ne
    · exact closureCallShape_family_ne
    · split
      · exact intrinsicResult_family_ne
      · split
        · simp
        · cases c.shallow with
          | none => simp
          | some m => exact calleeResult_family_ne

theorem classifyLeaf_family_ne {l : Leaf} : (classifyLeaf type l).family ≠ .conditional := by
  cases l with
  | methodCall facts => exact callResult_family_ne
  | call function => exact closureCallShape_family_ne
  | identifier facts =>
    rcases facts with _ | _ | facts
    · simp [classifyLeaf]
    · simp [classifyLeaf, localRead]
    · simp [classifyLeaf, localRead]
  | _ =>
    simp only [classifyLeaf]
    repeat' split
    all_goals simp [stackConstruction]

theorem moveFrom_family : (moveFrom s sharpStore).family = .move := by
  rfl

mutual
theorem joined_classify (e : Expr) : Joined (classify e) := by
  cases e with
  | leaf type l =>
    intro h
    rw [classify] at h
    split at h
    · cases h
    · exact absurd h classifyLeaf_family_ne
  | referenceCast e =>
    rw [classify]
    exact joined_classify e
  | assign type rhs =>
    rw [classify]
    split
    · intro h
      cases h
    · exact joined_classify rhs
  | booleanSwitch type a b =>
    rw [classify]
    split
    · intro h
      cases h
    · exact joined_join
  | switch type cases =>
    cases cases with
    | nil =>
      rw [classify]
      split <;> (intro h; cases h)
    | cons body rest =>
      rw [classify]
      split
      · intro h
        cases h
      · dsimp only
        split
        · exact joined_join
        · exact joined_cases rest (joined_classify body)
  | move type sharpStore captureMarker inner =>
    rw [classify]
    split
    · intro h
      cases h
    · split
      · exact joined_classify inner
      · intro h
        rw [moveFrom_family] at h
        cases h

theorem joined_cases (cases : Cases) (h : Joined acc) : Joined (classifyCases acc cases) := by
  cases cases with
  | nil =>
    rw [classifyCases]
    exact h
  | cons body rest =>
    rw [classifyCases]
    exact joined_cases rest joined_join
end

theorem classify_family : ∀ {e : Expr}, isConditional e → (classify e).family = .conditional
  | .referenceCast e, h => by
    rw [isConditional] at h
    rw [classify]
    exact classify_family h
  | .booleanSwitch type a b, h => by
    rw [isConditional, Bool.not_eq_true'] at h
    rw [classify, h]
    exact join_family
  | .switch type (.cons body rest), h => by
    rw [isConditional, Bool.not_eq_true'] at h
    rw [classify, h]
    simp only [Bool.false_eq_true, if_false]
    split
    · exact join_family
    · rename_i hfamily
      exact not_not.mp hfamily
  | .switch _ .nil, h => by simp [isConditional] at h
  | .leaf _ _, h => by simp [isConditional] at h
  | .assign _ _, h => by simp [isConditional] at h
  | .move _ _ _ _, h => by simp [isConditional] at h

/-! ## Values bound to the frame -/

/-- The refusal says that the value dies with the frame. -/
def TitleError.bindsToFrame : TitleError → Bool
  | .stackTransfer | .stackReturnEscapes => true
  | _ => false

/-- The values that a role refuses because they die with the frame. -/
def TitleShape.diesWithFrame (s : TitleShape) : ConsumerRole → Bool
  | .storeString | .storeSlot => s.family = .move && s.answer = .stackBound
  | .returnOwned =>
    s.answer = .stackBound || (s.answer ≠ .scalar && s.family = .localRead && s.has .stack)
  | .returnPlain =>
    (s.family = .fresh && s.answer = .stackBound) ||
      (s.answer ≠ .scalar && s.family = .localRead && !s.has .isParam && s.has .stack)
  | .argOwned => s.answer = .stackBound && !s.has .value
  | .bind | .reassign | .argPlain | .arm => false

theorem storePolicy_diesWithFrame {s : TitleShape} :
    (s.storePolicy string).error.any TitleError.bindsToFrame =
      (s.family = .move && s.answer = .stackBound) := by
  unfold storePolicy
  split
  · rename_i h
    simp [refuse, TitleError.bindsToFrame, h.1, h.2]
  · rename_i h
    have hfalse : (decide (s.family = .move) && decide (s.answer = .stackBound)) = false := by
      simpa using h
    rw [hfalse]
    repeat' split
    all_goals simp [refuse, TitleShape.pass, TitleShape.decide, TitleError.bindsToFrame]

theorem returnOwnedPolicy_diesWithFrame {s : TitleShape} :
    s.returnOwnedPolicy.error.any TitleError.bindsToFrame =
      (s.answer = .stackBound || (s.family = .localRead && s.has .stack)) := by
  unfold returnOwnedPolicy
  split
  · rename_i h
    rcases h with h | h
    · simp [refuse, TitleError.bindsToFrame, h]
    · simp [refuse, TitleError.bindsToFrame, h.1, h.2]
  · rename_i h
    have hfalse : (decide (s.answer = .stackBound) ||
        (decide (s.family = .localRead) && s.has .stack)) = false := by
      simpa using h
    rw [hfalse]
    unfold returnOwnedLocal
    repeat' split
    all_goals simp [refuse, TitleShape.pass, TitleShape.decide, TitleError.bindsToFrame]

theorem returnPlainPolicy_diesWithFrame {s : TitleShape} :
    s.returnPlainPolicy.error.any TitleError.bindsToFrame =
      ((s.family = .fresh && s.answer = .stackBound) ||
        (s.family = .localRead && !s.has .isParam && s.has .stack)) := by
  unfold returnPlainPolicy
  split
  · rename_i hfresh
    split
    · rename_i h
      simp [refuse, TitleError.bindsToFrame, hfresh, h]
    · rename_i h
      split <;> simp [refuse, TitleShape.pass, TitleError.bindsToFrame, hfresh, h]
  · rename_i hlocal
    split
    · rename_i hparam
      split <;> simp [TitleShape.pass, TitleShape.decide, hlocal, hparam]
    · rename_i hparam
      split
      · rename_i hstack
        simp [refuse, TitleError.bindsToFrame, hlocal, hparam, hstack]
      · rename_i hstack
        split <;> simp [refuse, TitleShape.pass, TitleError.bindsToFrame, hlocal, hparam, hstack]
  · rename_i hfresh hlocal
    simp only [TitleShape.pass, Option.any_none, Bool.false_eq, Bool.or_eq_false_iff,
      Bool.and_eq_false_iff,
      decide_eq_false_iff_not]
    exact ⟨.inl fun h => hfresh h, .inl (.inl fun h => hlocal h)⟩

theorem argOwnedPolicy_diesWithFrame {s : TitleShape} :
    s.argOwnedPolicy.error.any TitleError.bindsToFrame =
      (s.answer = .stackBound && !s.has .value) := by
  unfold argOwnedPolicy
  split
  · rename_i h
    simp [refuse, TitleError.bindsToFrame, h.1, h.2]
  · rename_i h
    have hfalse : (decide (s.answer = .stackBound) && !s.has .value) = false := by
      simpa using h
    rw [hfalse]
    repeat' split
    all_goals simp [refuse, TitleShape.pass, TitleShape.decide, TitleError.bindsToFrame]

theorem policy_diesWithFrame {s : TitleShape} :
    (s.policy role).error.any TitleError.bindsToFrame = s.diesWithFrame role := by
  unfold policy
  split
  · rename_i hscalar
    cases role <;> simp [TitleShape.pass, diesWithFrame, hscalar]
  · rename_i hscalar
    cases role with
    | storeString | storeSlot => exact storePolicy_diesWithFrame
    | returnOwned => simp [returnOwnedPolicy_diesWithFrame, diesWithFrame, hscalar]
    | returnPlain => simp [returnPlainPolicy_diesWithFrame, diesWithFrame, hscalar]
    | argOwned => exact argOwnedPolicy_diesWithFrame
    | bind | reassign | argPlain | arm => simp [TitleShape.pass, diesWithFrame]

theorem policy_conditional {s : TitleShape} (hfamily : s.family = .conditional) (h : Joined s) :
    (s.policy role).error.isSome ↔ role = .returnOwned ∧ s.answer = .borrow := by
  obtain ⟨hstack, hscalar⟩ := h hfamily
  unfold policy
  rw [if_neg hscalar]
  cases role with
  | storeString | storeSlot => simp [storePolicy, escapesBorrowedSlots, TitleShape.pass, hfamily]
  | returnOwned =>
    by_cases hborrow : s.answer = .borrow
    · simp [returnOwnedPolicy, escapesBorrowedSlots, refuse, hfamily, hborrow]
    · simp [returnOwnedPolicy, escapesBorrowedSlots, TitleShape.pass, hfamily, hborrow, hstack]
  | returnPlain => simp [returnPlainPolicy, TitleShape.pass, hfamily]
  | argOwned => simp [argOwnedPolicy, escapesBorrowedSlots, TitleShape.pass, hfamily, hstack]
  | bind | reassign | argPlain | arm => simp [TitleShape.pass]

/-! ## What a conditional tells -/

/-- The answer is a function of the set of the leaf arms. -/
structure AnswersArms (e : Expr) : Prop where
  owned : (classify e).answer = .owned ↔ ∀ arm ∈ arms e, (classify arm).answer = .owned
  borrow : (classify e).answer = .borrow ↔ ∀ arm ∈ arms e, ¬ (classify arm).answer.hasTitle
  runtime : (classify e).answer = .runtime ↔
    ¬ (∀ arm ∈ arms e, (classify arm).answer = .owned) ∧
      ∃ arm ∈ arms e, (classify arm).answer.hasTitle
  /-- Grouping and order do not matter. -/
  regroup : ∀ {e'}, isConditional e' → (∀ arm, arm ∈ arms e ↔ arm ∈ arms e') →
    (classify e').answer = (classify e).answer

theorem answer_owned_iff {e : Expr} :
    (classify e).answer = .owned ↔ ∀ arm ∈ arms e, (classify arm).answer = .owned := by
  rw [(represents_arms e).owned]
  simp only [List.mem_map, forall_exists_index, and_imp, forall_apply_eq_imp_iff₂]

theorem answer_hasTitle_iff {e : Expr} :
    (classify e).answer.hasTitle ↔ ∃ arm ∈ arms e, (classify arm).answer.hasTitle := by
  rw [(represents_arms e).hasTitle]
  simp only [List.mem_map, exists_exists_and_eq_and]

theorem answer_of_conditional {e : Expr} (h : isConditional e) :
    (classify e).answer = .borrow ∨ (classify e).answer = .owned ∨
      (classify e).answer = .runtime := by
  obtain ⟨hstack, hscalar⟩ := joined_classify e (classify_family h)
  cases hanswer : (classify e).answer <;> simp_all

theorem answer_borrow_iff {e : Expr} (h : isConditional e) :
    (classify e).answer = .borrow ↔ ∀ arm ∈ arms e, ¬ (classify arm).answer.hasTitle := by
  have hnone : ¬ (classify e).answer.hasTitle ↔
      ∀ arm ∈ arms e, ¬ (classify arm).answer.hasTitle := by
    rw [answer_hasTitle_iff]
    simp only [not_exists, not_and]
  rw [← hnone]
  rcases answer_of_conditional h with hanswer | hanswer | hanswer <;>
    simp [hanswer, TitleAnswer.hasTitle]

theorem answer_runtime_iff {e : Expr} (h : isConditional e) :
    (classify e).answer = .runtime ↔
      ¬ (∀ arm ∈ arms e, (classify arm).answer = .owned) ∧
        ∃ arm ∈ arms e, (classify arm).answer.hasTitle := by
  rw [← answer_owned_iff, ← answer_hasTitle_iff]
  rcases answer_of_conditional h with hanswer | hanswer | hanswer <;>
    simp [hanswer, TitleAnswer.hasTitle]

theorem answersArms {e : Expr} (h : isConditional e) : AnswersArms e where
  owned := answer_owned_iff
  borrow := answer_borrow_iff h
  runtime := answer_runtime_iff h
  regroup := by
    intro e' h' hset
    rcases answer_of_conditional h with hanswer | hanswer | hanswer
    · rw [hanswer, answer_borrow_iff h']
      intro arm harm
      exact (answer_borrow_iff h).mp hanswer arm ((hset arm).mpr harm)
    · rw [hanswer, answer_owned_iff]
      intro arm harm
      exact answer_owned_iff.mp hanswer arm ((hset arm).mpr harm)
    · rw [hanswer, answer_runtime_iff h']
      obtain ⟨hnot, arm, harm, htitle⟩ := (answer_runtime_iff h).mp hanswer
      refine ⟨fun hall => hnot ?_, arm, (hset arm).mp harm, htitle⟩
      intro other hother
      exact hall other ((hset other).mp hother)

/-- A conditional answers for its arms. It is refused with every arm that dies with the frame
exactly if it has no such arm, or it is an owned return without a title. -/
theorem conditional_launders {e : Expr} (h : isConditional e) :
    (AnswersArms e ∧
      ∀ arm ∈ arms e, ((classify arm).policy role).error.any TitleError.bindsToFrame →
        ((classify e).policy role).error.isSome) ↔
      (∀ arm ∈ arms e, ¬ (classify arm).diesWithFrame role) ∨
        role = .returnOwned ∧ ∀ arm ∈ arms e, ¬ (classify arm).answer.hasTitle := by
  have hrefused : ((classify e).policy role).error.isSome ↔
      role = .returnOwned ∧ ∀ arm ∈ arms e, ¬ (classify arm).answer.hasTitle := by
    rw [policy_conditional (classify_family h) (joined_classify e), answer_borrow_iff h]
  constructor
  · rintro ⟨_, harms⟩
    by_cases hnone : ∀ arm ∈ arms e, ¬ (classify arm).diesWithFrame role
    · exact .inl hnone
    · rw [not_forall₂] at hnone
      obtain ⟨arm, harm, hdies⟩ := hnone
      refine .inr (hrefused.mp (harms arm harm ?_))
      rw [policy_diesWithFrame]
      exact not_not.mp hdies
  · intro hcondition
    refine ⟨answersArms h, fun arm harm hdies => ?_⟩
    rcases hcondition with hnone | hreturn
    · rw [policy_diesWithFrame] at hdies
      exact absurd hdies (hnone arm harm)
    · exact hrefused.mpr hreturn

def classType : TypeFacts := ⟨false, .empty⟩

/-- `heap T()` and `stack T()`. -/
def construction (stackAlloc : Bool) : Expr := .leaf classType (.new stackAlloc false)

/-- `c ? #stack T() : heap T()`. -/
def stackOrHeap : Expr :=
  .booleanSwitch classType (.move classType false false (construction true)) (construction false)

theorem moved_mem_arms :
    .move classType false false (construction true) ∈ arms stackOrHeap := by
  simp [stackOrHeap, arms, classType]

/-- In a slot the moved arm dies with the frame, and the role is not that of an owned return. -/
theorem conditional_launders_stackOrHeap :
    isConditional stackOrHeap ∧
      ¬ (AnswersArms stackOrHeap ∧
        ∀ arm ∈ arms stackOrHeap,
          ((classify arm).policy .storeSlot).error.any TitleError.bindsToFrame →
            ((classify stackOrHeap).policy .storeSlot).error.isSome) := by
  refine ⟨rfl, fun hall => ?_⟩
  rcases (conditional_launders rfl).mp hall with hnone | ⟨hrole, _⟩
  · exact hnone _ moved_mem_arms rfl
  · cases hrole

/-- A slot takes the conditional, though it refuses the moved arm that dies with the frame. -/
theorem stackOrHeap_launders :
    ¬ ∀ (e : Expr) (role : ConsumerRole), isConditional e →
      AnswersArms e ∧
        ∀ arm ∈ arms e, ((classify arm).policy role).error.any TitleError.bindsToFrame →
          ((classify e).policy role).error.isSome := by
  intro hall
  have hrefused := (hall stackOrHeap .storeSlot rfl).2 _ moved_mem_arms rfl
  cases hrefused

end Cajeta.Ownership
