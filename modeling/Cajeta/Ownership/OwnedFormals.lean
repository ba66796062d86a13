import Cajeta.Ownership.TitleGuarantees

/-!
# What an owned formal receives

Every arm that the check of an owned formal looks at tenders a title, and the flag that goes with
the argument is set only if the arm that was taken holds it. The receiver may be handed on.
-/

namespace Cajeta.Ownership
open TitleShape

/-! ## Flags at run time -/

/-- Where the bit of a shape that is decided at run time comes from. -/
inductive FlagSource where
  /-- The drop entry, the transfer word or the return flag of what the shape is about. -/
  | source
  /-- No bit is read, which counts as 0. -/
  | unread
  /-- A `#` that has left no flag: the title is taken to be there. -/
  | claim
  /-- A `#` of a slot: the slot's bit where it has one, else a claim. -/
  | slot
  /-- The arm that is taken of a conditional. -/
  | arm
deriving DecidableEq

/-- A local has its drop entry, and a borrowed parameter its bit in the transfer word, if it is one
of the first 64 and the function has a word. -/
def LocalFacts.flagSource (l : LocalFacts) : FlagSource :=
  if l.dropEntry || l.transferWord && l.parameter.any fun p => !p.1 && p.2.any (· < 64)
  then .source else .claim

def peelReferenceCasts : Expr → Expr
  | .referenceCast e => peelReferenceCasts e
  | e => e

/-- `MoveExpression::generateCode`: the flag that `#inner` leaves. A nested move hands on its own,
that of a call is left for `#=` only, and a local's is read before the local is disarmed. -/
def movedFlag (sharpStore : Bool) : Expr → FlagSource
  | .move _ sharpStore' captureMarker inner =>
    if captureMarker then .claim else movedFlag sharpStore' inner
  | .booleanSwitch _ _ _ | .switch _ _ => .arm
  | .leaf _ (.methodCall _) => if sharpStore then .source else .claim
  | .leaf _ (.dot _) | .leaf _ .arrayIndex => .slot
  | e =>
    match peelReferenceCasts e with
    | .leaf _ (.identifier (some (some l))) => l.flagSource
    | _ => .claim

/-- Where `titleFlag` looks for the bit of the shape of `e`: a `#` expression has stashed it before
its source was disarmed, and a slot has none to read. -/
def flagSource (e : Expr) : FlagSource :=
  match shapeLeaf e with
  | .move _ sharpStore _ inner => movedFlag sharpStore inner
  | .booleanSwitch _ _ _ | .switch _ _ => .arm
  | .leaf _ (.identifier (some (some l))) => l.flagSource
  | .leaf _ (.dot _) | .leaf _ .arrayIndex | .leaf _ .arraySlice => .unread
  | _ => .source

/-- The bit that is read for `e`, whose value does or does not hold the title. Which arm decides
behind an assignment or a `#` is left open, and so is whether a slot has a bit. -/
inductive SourceBit (holds : Expr → Bool) (e : Expr) : Bool → Prop where
  | source : flagSource e = .source → SourceBit holds e (holds e)
  | unread : flagSource e = .unread → SourceBit holds e false
  | claim : flagSource e = .claim → SourceBit holds e true
  | slotBit : flagSource e = .slot → SourceBit holds e (holds e)
  | slotClaim : flagSource e = .slot → SourceBit holds e true
  | arm : flagSource e = .arm → SourceBit holds e b

/-- `titleFlag`: what is emitted for a shape, given the bit that is read for it. -/
def titleFlag (s : TitleShape) (bit : Bool) : Bool :=
  match s.answer with
  | .owned => true
  | .runtime => bit
  | .borrow | .stackBound | .scalar => false

def Cases.bodies : Cases → List Expr
  | .nil => []
  | .cons body rest => body :: rest.bodies

/-- `Emits holds e x b`: a run of `e` takes the leaf arm `x`, and the flag of its value is `b`.
A conditional merges the flags of its arms. -/
inductive Emits (holds : Expr → Bool) : Expr → Expr → Bool → Prop where
  | leaf : arms e = [e] → SourceBit holds e b → Emits holds e e (titleFlag (classify e) b)
  | cast : Emits holds e x b → Emits holds (.referenceCast e) x b
  | thenArm : type.scalar = false → Emits holds a x b →
    Emits holds (.booleanSwitch type a a') x (titleFlag (classify (.booleanSwitch type a a')) b)
  | elseArm : type.scalar = false → Emits holds a' x b →
    Emits holds (.booleanSwitch type a a') x (titleFlag (classify (.booleanSwitch type a a')) b)
  | case : type.scalar = false → body ∈ cases.bodies → Emits holds body x b →
    Emits holds (.switch type cases) x (titleFlag (classify (.switch type cases)) b)

/-- `classifyArgument`: the flag that goes with an argument. A `#` at the argument moves its shape.
-/
inductive ArgumentFlag (holds : Expr → Bool) (e : Expr) : Bool → Expr → Bool → Prop where
  | plain : Emits holds e x b → ArgumentFlag holds e false x b
  | movedArm : isConditional e → Emits holds e x b →
    ArgumentFlag holds e true x (titleFlag (moveFrom (classify e) false) b)
  | moved : isConditional e = false → arms e = [x] → SourceBit holds x b →
    ArgumentFlag holds e true x (titleFlag (moveFrom (classify e) false) b)

def HoldsTitle (s : TitleShape) (holds : Bool) : Prop :=
  s.answer = .owned ∨ s.answer = .runtime ∧ holds

theorem holdsTitle_of_flag (h : titleFlag s b = true) : HoldsTitle s b := by
  unfold titleFlag at h
  split at h
  · exact .inl ‹_›
  · exact .inr ⟨‹_›, h⟩
  all_goals cases h

theorem arms_subset_cases (hbody : body ∈ cases.bodies) (hx : x ∈ arms body) :
    x ∈ armsCases cases := by
  cases cases with
  | nil => cases hbody
  | cons first rest =>
    rw [armsCases, List.mem_append]
    rcases List.mem_cons.mp hbody with rfl | hbody
    · exact .inl hx
    · exact .inr (arms_subset_cases hbody hx)

/-- A leaf whose bit is not that of its source: a `#` that is taken at its word, or a conditional
behind a `#` or an assignment. -/
def Claimed (x : Expr) : Prop := flagSource x ≠ .source ∧ flagSource x ≠ .unread

theorem SourceBit.holdsTitle {s : TitleShape} (h : SourceBit holds x b)
    (hflag : titleFlag s b = true) : HoldsTitle s (holds x) ∨ Claimed x := by
  cases h with
  | source | slotBit => exact .inl (holdsTitle_of_flag hflag)
  | unread =>
    rcases holdsTitle_of_flag hflag with howned | ⟨_, hfalse⟩
    · exact .inl (.inl howned)
    · cases hfalse
  | claim hsource | slotClaim hsource | arm hsource =>
    refine .inr ⟨?_, ?_⟩ <;> rw [hsource] <;> nofun

theorem holdsTitle_merge {e : Expr} {holds : Expr → Bool} (hx : x ∈ arms e)
    (harm : b = true → HoldsTitle (classify x) (holds x) ∨ Claimed x)
    (h : titleFlag (classify e) b = true) : HoldsTitle (classify x) (holds x) ∨ Claimed x := by
  rcases holdsTitle_of_flag h with howned | ⟨_, hb⟩
  · exact .inl (.inl (answer_owned_iff.mp howned x hx))
  · exact harm hb

namespace Emits

theorem mem_arms (h : Emits holds e x b) : x ∈ arms e := by
  induction h with
  | leaf hleaf _ =>
    rw [hleaf]
    exact List.mem_singleton_self _
  | cast _ ih =>
    rw [arms]
    exact ih
  | thenArm htype _ ih =>
    rw [arms, htype]
    exact List.mem_append_left _ ih
  | elseArm htype _ ih =>
    rw [arms, htype]
    exact List.mem_append_right _ ih
  | @case type body x b cases htype hbody _ ih =>
    cases cases with
    | nil => cases hbody
    | cons first rest =>
      rw [arms, htype]
      have hmem := arms_subset_cases hbody ih
      rw [armsCases] at hmem
      exact hmem

theorem holdsTitle (h : Emits holds e x b) (hb : b = true) :
    HoldsTitle (classify x) (holds x) ∨ Claimed x := by
  induction h with
  | leaf _ hbit => exact hbit.holdsTitle hb
  | cast _ ih => exact ih hb
  | thenArm htype harm ih =>
    exact holdsTitle_merge (thenArm htype harm).mem_arms ih hb
  | elseArm htype harm ih =>
    exact holdsTitle_merge (elseArm htype harm).mem_arms ih hb
  | case htype hbody harm ih =>
    exact holdsTitle_merge (case htype hbody harm).mem_arms ih hb

end Emits

/-- The shapes that the check of an owned formal asks for. -/
def argumentShapes (e : Expr) (callerTransferred : Bool) : List TitleShape :=
  if callerTransferred then [moveFrom (classify e) false]
  else if (classify e).family = .conditional then (leafArms (shapeLeaf e)).map classify
  else [classify e]

theorem rejectOwnedFormalArgument_eq_none :
    rejectOwnedFormalArgument e callerTransferred = none ↔
      ∀ s ∈ argumentShapes e callerTransferred, (s.policy .argOwned).error = none := by
  unfold rejectOwnedFormalArgument argumentShapes armVerdict
  cases callerTransferred with
  | false =>
    by_cases hfamily : (classify e).family = .conditional
    · simp [hfamily, Option.isSome_iff_ne_none]
    · simp [hfamily, Option.isSome_iff_ne_none]
  | true => simp [Option.isSome_iff_ne_none]

/-- The shapes that pass without a title: the receiver, which a constructor consumes, and shapes of
which the check asks nothing. -/
inductive PassesUntitled (s : TitleShape) : Prop where
  | this : s.family = .thisRead → PassesUntitled s
  /-- A `#` move of a value that has no title. -/
  | move : s.family = .move → s.answer = .borrow → PassesUntitled s
  /-- Arms behind a cast or an assignment. -/
  | conditional : s.family = .conditional → s.answer = .borrow → PassesUntitled s
  | shared : s.family = .fresh → s.has .shared → PassesUntitled s
  /-- A bare `#` formal or arena local. -/
  | local : s.family = .localRead → s.has .hasEntry = false →
    s.has .isParam ∧ s.has .transferredParam ∨ s.has .isParam = false ∧ s.has .arena →
    PassesUntitled s

/-- The argument has a title to give, or is a copy, or needs none. -/
inductive Tenders (s : TitleShape) : Prop where
  | title : (s.policy .argOwned).answer.hasTitle → Tenders s
  | copy : s.answer = .stackBound → s.has .value → Tenders s
  | scalar : s.answer = .scalar → Tenders s

/-- The families whose answers the classifier fixes. -/
def Classified (s : TitleShape) : Prop :=
  match s.family with
  | .concat | .closure => s.answer ≠ .borrow
  | .scalar | .unsupported => s.answer = .scalar
  | .fresh => s.answer = .borrow → s.has .shared
  | .fieldRead | .elementRead => s.answer = .borrow
  | _ => True

/-! ## What passes the check -/

theorem policy_pass {s : TitleShape} (hscalar : s.answer ≠ .scalar)
    (h : (s.policy .argOwned).error = none) :
    (s.policy .argOwned).answer = s.answer ∨ (s.policy .argOwned).answer = .owned := by
  rw [policy, if_neg hscalar] at h ⊢
  unfold argOwnedPolicy at h ⊢
  repeat' split
  all_goals simp_all [TitleShape.pass, refuse, TitleShape.decide]

theorem passesUntitled_localRead {s : TitleShape} (hfamily : s.family = .localRead)
    (h : (if (s.has .isParam && !s.has .transferredParam) = true then s.refuse .transferRequired
      else if (!s.has .hasEntry && !s.has .isParam && !s.has .arena) = true then
        s.refuse .transferRequired
      else if s.has .hasEntry then s.refuse .transferRequired else s.pass).error = none) :
    PassesUntitled s := by
  split at h
  · cases h
  · rename_i hparam
    split at h
    · cases h
    · rename_i hlocal
      split at h
      · cases h
      · rename_i hentry
        have hnone : s.has .hasEntry = false := by simpa using hentry
        refine .local hfamily hnone ?_
        cases hisParam : s.has .isParam with
        | true => exact .inl ⟨rfl, by simpa [hisParam] using hparam⟩
        | false => exact .inr ⟨rfl, by simpa [hisParam, hnone] using hlocal⟩

theorem passesUntitled_of_borrow {s : TitleShape} (hborrow : s.answer = .borrow)
    (hclassified : Classified s) (h : (s.policy .argOwned).error = none)
    (hverdict : ¬ (s.policy .argOwned).answer.hasTitle) : PassesUntitled s := by
  rw [policy, if_neg (by simp [hborrow])] at h hverdict
  unfold argOwnedPolicy at h hverdict
  rw [if_neg (by simp [hborrow])] at h hverdict
  split at h
  · cases h
  · rename_i hslots
    rw [if_neg hslots] at hverdict
    split at h
    · rename_i hliteral
      rw [if_pos hliteral] at hverdict
      exact absurd rfl hverdict
    · unfold Classified at hclassified
      cases hfamily : s.family with
      | thisRead => exact .this hfamily
      | move => exact .move hfamily hborrow
      | conditional => exact .conditional hfamily hborrow
      | literal | fieldRead | elementRead | callResult | closureCall =>
        rw [hfamily] at h
        cases h
      | localRead =>
        rw [hfamily] at h
        exact passesUntitled_localRead hfamily h
      | fresh =>
        rw [hfamily] at hclassified
        exact .shared hfamily (hclassified hborrow)
      | concat | closure =>
        rw [hfamily] at hclassified
        exact absurd hborrow hclassified
      | scalar | unsupported =>
        rw [hfamily, hborrow] at hclassified
        cases hclassified

theorem tenders_of_accepted {s : TitleShape} (hclassified : Classified s)
    (h : (s.policy .argOwned).error = none) : Tenders s ∨ PassesUntitled s := by
  by_cases hscalar : s.answer = .scalar
  · exact .inl (.scalar hscalar)
  by_cases hverdict : (s.policy .argOwned).answer.hasTitle
  · exact .inl (.title hverdict)
  have hanswer := policy_pass hscalar h
  cases hs : s.answer with
  | borrow => exact .inr (passesUntitled_of_borrow hs hclassified h hverdict)
  | scalar => exact absurd hs hscalar
  | stackBound =>
    have hkept : (s.policy .argOwned).error.any TitleError.bindsToFrame =
      s.diesWithFrame .argOwned :=
      policy_diesWithFrame
    rw [h] at hkept
    have hvalue : s.has .value = true := by
      simpa [diesWithFrame, hs] using hkept
    exact .inl (.copy hs hvalue)
  | owned | runtime =>
    refine absurd ?_ hverdict
    rcases hanswer with hanswer | hanswer
    · rw [hanswer, hs]
      rfl
    · rw [hanswer]
      rfl

/-! ## Classified shapes -/

theorem classified_join {a b : TitleShape} : Classified (join a b) := by
  rw [Classified, join_family]
  trivial

theorem classified_calleeResult {m : MethodFacts} : Classified (calleeResult fs m) := by
  unfold calleeResult
  dsimp only
  repeat' split
  all_goals simp [Classified]

theorem classified_closureCallShape : Classified (closureCallShape type fn) := by
  unfold closureCallShape
  repeat' split
  all_goals simp [Classified]

theorem classified_callResult {c : CallFacts} : Classified (callResult type c) := by
  unfold callResult
  split
  · simp [Classified]
  · split
    · exact classified_calleeResult
    · exact classified_closureCallShape
    · split
      · unfold intrinsicResult
        split <;> simp [Classified]
      · split
        · simp [Classified]
        · cases c.shallow with
          | none => simp [Classified]
          | some m => exact classified_calleeResult

theorem classified_classifyLeaf {l : Leaf} : Classified (classifyLeaf type l) := by
  cases l with
  | methodCall facts => exact classified_callResult
  | call function => exact classified_closureCallShape
  | identifier facts => rcases facts with _ | _ | facts <;> simp [Classified, classifyLeaf,
      localRead]
  | arrayLiteral stackAlloc arenaEligible =>
    simp only [classifyLeaf, Classified]
    repeat' split
    all_goals simp_all
  | _ =>
    simp only [classifyLeaf]
    repeat' split
    all_goals simp [Classified, stackConstruction, TitleShape.has, Flags.withIf]

mutual
theorem classified_classify (e : Expr) : Classified (classify e) := by
  cases e with
  | leaf type l =>
    rw [classify]
    split
    · exact rfl
    · exact classified_classifyLeaf
  | referenceCast e =>
    rw [classify]
    exact classified_classify e
  | assign type rhs =>
    rw [classify]
    split
    · exact rfl
    · exact classified_classify rhs
  | booleanSwitch type a b =>
    rw [classify]
    split
    · exact rfl
    · exact classified_join
  | switch type cases =>
    cases cases with
    | nil =>
      rw [classify]
      split <;> exact rfl
    | cons body rest =>
      rw [classify]
      split
      · exact rfl
      · dsimp only
        split
        · exact classified_join
        · exact classified_cases rest (classified_classify body)
  | move type sharpStore captureMarker inner =>
    rw [classify]
    split
    · exact rfl
    · split
      · exact classified_classify inner
      · trivial

theorem classified_cases (cases : Cases) (h : Classified acc) :
    Classified (classifyCases acc cases) := by
  cases cases with
  | nil =>
    rw [classifyCases]
    exact h
  | cons body rest =>
    rw [classifyCases]
    exact classified_cases rest classified_join
end

theorem classified_argumentShapes {e : Expr}
    (hs : s ∈ argumentShapes e callerTransferred) : Classified s := by
  unfold argumentShapes at hs
  split at hs
  · rw [List.mem_singleton.mp hs]
    trivial
  · split at hs
    · obtain ⟨arm, _, rfl⟩ := List.mem_map.mp hs
      exact classified_classify arm
    · rw [List.mem_singleton.mp hs]
      exact classified_classify e

/-! ## Arms -/

theorem isConditional_of_family (h : (classify e).family ≠ .conditional) :
    isConditional e = false := by
  cases hconditional : isConditional e with
  | false => rfl
  | true => exact absurd (classify_family hconditional) h

theorem classify_of_mem_arms : ∀ {e : Expr}, isConditional e = false → x ∈ arms e →
    classify x = classify e
  | .referenceCast e, h, hx => by
    rw [arms] at hx
    rw [isConditional] at h
    rw [classify_of_mem_arms h hx, classify]
  | .booleanSwitch type a b, h, hx => by
    rw [isConditional, Bool.not_eq_false'] at h
    rw [arms, if_pos h, List.mem_singleton] at hx
    rw [hx]
  | .switch type (.cons body rest), h, hx => by
    rw [isConditional, Bool.not_eq_false'] at h
    rw [arms, if_pos h, List.mem_singleton] at hx
    rw [hx]
  | .switch type .nil, _, hx => by
    rw [arms] at hx
    split at hx <;> rw [List.mem_singleton.mp hx]
  | .leaf _ _, _, hx => by rw [arms, List.mem_singleton] at hx <;> simp [hx]
  | .assign _ _, _, hx => by rw [arms, List.mem_singleton] at hx <;> simp [hx]
  | .move _ _ _ _, _, hx => by rw [arms, List.mem_singleton] at hx <;> simp [hx]

mutual
/-- Scalars apart, the walk over the arms meets every leaf arm, or a cast in front of it. -/
theorem leafArms_cover (e : Expr) (hx : x ∈ arms e) :
    (classify x).answer = .scalar ∨ ∃ y ∈ leafArms e, x ∈ arms y := by
  cases e with
  | booleanSwitch type a b =>
    rw [arms] at hx
    split at hx
    · rename_i htype
      rw [List.mem_singleton.mp hx, classify, if_pos htype]
      exact .inl rfl
    · rw [leafArms]
      simp only [List.mem_append, or_and_right, exists_or]
      rcases List.mem_append.mp hx with hx | hx
      · exact (leafArms_cover a hx).imp_right .inl
      · exact (leafArms_cover b hx).imp_right .inr
  | switch type cases =>
    cases cases with
    | nil =>
      rw [arms] at hx
      have hself : x = .switch type .nil := by split at hx <;> exact List.mem_singleton.mp hx
      rw [hself, classify]
      split <;> exact .inl rfl
    | cons body rest =>
      rw [arms] at hx
      split at hx
      · rename_i htype
        rw [List.mem_singleton.mp hx, classify, if_pos htype]
        exact .inl rfl
      · rw [leafArms]
        exact casesArms_cover (.cons body rest) (by rw [armsCases]; exact hx)
  | leaf type l =>
    rw [leafArms]
    · exact .inr ⟨_, List.mem_singleton_self _, hx⟩
    all_goals simp
  | referenceCast e =>
    rw [leafArms]
    · exact .inr ⟨_, List.mem_singleton_self _, hx⟩
    all_goals simp
  | assign type rhs =>
    rw [leafArms]
    · exact .inr ⟨_, List.mem_singleton_self _, hx⟩
    all_goals simp
  | move type sharpStore captureMarker inner =>
    rw [leafArms]
    · exact .inr ⟨_, List.mem_singleton_self _, hx⟩
    all_goals simp

theorem casesArms_cover (cases : Cases) (hx : x ∈ armsCases cases) :
    (classify x).answer = .scalar ∨ ∃ y ∈ casesArms cases, x ∈ arms y := by
  cases cases with
  | nil =>
    rw [armsCases] at hx
    cases hx
  | cons body rest =>
    rw [armsCases] at hx
    rw [casesArms]
    simp only [List.mem_append, or_and_right, exists_or]
    rcases List.mem_append.mp hx with hx | hx
    · exact (leafArms_cover body hx).imp_right .inl
    · exact (casesArms_cover rest hx).imp_right .inr
end

/-- The arms of a conditional, seen from the expression that its shape is about. -/
theorem shapeLeaf_cover : ∀ {e : Expr}, (classify e).family = .conditional → x ∈ arms e →
    (classify x).answer = .scalar ∨ (classify x).family = .conditional ∨
      ∃ y ∈ leafArms (shapeLeaf e), x ∈ arms y
  | .referenceCast e, h, hx => by
    rw [classify] at h
    rw [arms] at hx
    rw [shapeLeaf]
    exact shapeLeaf_cover h hx
  | .booleanSwitch type a b, _, hx => by
    rw [shapeLeaf]
    · exact (leafArms_cover _ hx).imp_right .inr
    all_goals simp
  | .switch type .nil, _, hx => by
    rw [shapeLeaf]
    · exact (leafArms_cover _ hx).imp_right .inr
    all_goals simp
  | .switch type (.cons body (.cons body' rest)), _, hx => by
    rw [shapeLeaf]
    · exact (leafArms_cover _ hx).imp_right .inr
    all_goals simp
  | .switch type (.cons body .nil), _, hx => by
    rw [shapeLeaf]
    split
    · rename_i hbody
      rw [Bool.and_eq_true, Bool.not_eq_true', decide_eq_true_eq] at hbody
      rw [arms, hbody.1] at hx
      simp only [Bool.false_eq_true, if_false, armsCases, List.append_nil] at hx
      exact shapeLeaf_cover hbody.2 hx
    · exact (leafArms_cover _ hx).imp_right .inr
  | .leaf type l, h, hx => by
    rw [arms, List.mem_singleton] at hx <;> simp_all
  | .assign type rhs, h, hx => by
    rw [arms, List.mem_singleton] at hx <;> simp_all
  | .move type sharpStore captureMarker inner, h, hx => by
    rw [arms, List.mem_singleton] at hx <;> simp_all

/-! ## Owned formals -/

/-- The shape of an arm of the argument. A `#` at the argument moves the whole of it. -/
def armShape (e : Expr) (callerTransferred : Bool) (x : Expr) : TitleShape :=
  if callerTransferred && !isConditional e then moveFrom (classify x) false else classify x

/-- The arms that the check does not look at: those of a moved conditional, and those behind a cast
in a conditional. -/
def Hidden (e : Expr) (callerTransferred : Bool) (x : Expr) : Prop :=
  callerTransferred ∧ isConditional e ∨
    ∃ y ∈ leafArms (shapeLeaf e), (classify y).family = .conditional ∧ x ∈ arms y

structure OwnedFormal (e : Expr) (callerTransferred : Bool) : Prop where
  tenders : ∀ x ∈ arms e, Tenders (armShape e callerTransferred x) ∨
    PassesUntitled (armShape e callerTransferred x) ∨ Hidden e callerTransferred x
  interior : ∀ x ∈ arms e, (armShape e callerTransferred x).family = .fieldRead ∨
    (armShape e callerTransferred x).family = .elementRead → Hidden e callerTransferred x
  flag : ∀ {holds : Expr → Bool} {x : Expr} {b : Bool},
    ArgumentFlag holds e callerTransferred x b → b = true →
      HoldsTitle (armShape e callerTransferred x) (holds x) ∨ Claimed x

/-- Every arm is hidden, a scalar, a conditional behind an assignment, or one of the shapes that the
check asks for. -/
theorem armShape_cover {e : Expr} (hx : x ∈ arms e) :
    Hidden e callerTransferred x ∨ (armShape e callerTransferred x).answer = .scalar ∨
      (armShape e callerTransferred x).family = .conditional ∨
        armShape e callerTransferred x ∈ argumentShapes e callerTransferred := by
  cases callerTransferred with
  | true =>
    cases hconditional : isConditional e with
    | true => exact .inl (.inl ⟨rfl, hconditional⟩)
    | false =>
      refine .inr (.inr (.inr ?_))
      simp [armShape, argumentShapes, hconditional, classify_of_mem_arms hconditional hx]
  | false =>
    by_cases hfamily : (classify e).family = .conditional
    · rcases shapeLeaf_cover hfamily hx with hscalar | hconditional | ⟨y, hy, hxy⟩
      · exact .inr (.inl hscalar)
      · exact .inr (.inr (.inl hconditional))
      · by_cases hhidden : (classify y).family = .conditional
        · exact .inl (.inr ⟨y, hy, hhidden, hxy⟩)
        · refine .inr (.inr (.inr ?_))
          have hshape : armShape e false x = classify y :=
            classify_of_mem_arms (isConditional_of_family hhidden) hxy
          rw [hshape, argumentShapes, if_neg (by simp), if_pos hfamily]
          exact List.mem_map_of_mem hy
    · refine .inr (.inr (.inr ?_))
      have hshape : armShape e false x = classify e :=
        classify_of_mem_arms (isConditional_of_family hfamily) hx
      rw [hshape, argumentShapes, if_neg (by simp), if_neg hfamily]
      exact List.mem_singleton_self _

theorem joined_armShape {e : Expr} : Joined (armShape e callerTransferred x) := by
  unfold armShape
  split
  · intro h
    rw [moveFrom_family] at h
    cases h
  · exact joined_classify x

theorem classified_armShape {e : Expr} : Classified (armShape e callerTransferred x) := by
  unfold armShape
  split
  · trivial
  · exact classified_classify x

theorem refused_interior {s : TitleShape}
    (hfamily : s.family = .fieldRead ∨ s.family = .elementRead) (hborrow : s.answer = .borrow) :
    (s.policy .argOwned).error ≠ none := by
  rcases hfamily with hfamily | hfamily <;>
    simp [policy, argOwnedPolicy, escapesBorrowedSlots, refuse, hfamily, hborrow]

theorem accepted_conditional {s : TitleShape} (hfamily : s.family = .conditional)
    (h : Joined s) : (s.policy .argOwned).error = none := by
  have hrefused : (s.policy .argOwned).error.isSome ↔
      ConsumerRole.argOwned = .returnOwned ∧ s.answer = .borrow := policy_conditional hfamily h
  rw [← Option.not_isSome_iff_eq_none, hrefused]
  simp

theorem classified_of_conditional {s : TitleShape} (h : s.family = .conditional) :
    Classified s := by
  rw [Classified, h]
  trivial

theorem argumentFlag_holdsTitle {holds : Expr → Bool} {e : Expr}
    (h : ArgumentFlag holds e callerTransferred x b) (hb : b = true) :
    HoldsTitle (armShape e callerTransferred x) (holds x) ∨ Claimed x := by
  cases h with
  | plain hemits => exact hemits.holdsTitle hb
  | movedArm hconditional hemits =>
    rw [armShape, hconditional]
    refine holdsTitle_merge hemits.mem_arms hemits.holdsTitle ?_
    have hanswer : (moveFrom (classify e) false).answer = (classify e).answer := by
      unfold moveFrom
      rw [classify_family hconditional]
      rfl
    rw [titleFlag, hanswer] at hb
    exact hb
  | moved hleaf harms hbit =>
    have hx : x ∈ arms e := by
      rw [harms]
      exact List.mem_singleton_self _
    rw [armShape, hleaf, classify_of_mem_arms hleaf hx]
    exact hbit.holdsTitle hb

/-- An accepted argument keeps the contract, but for the arms that are not looked at and the shapes
that pass without a title. -/
theorem ownedFormal_of_accepted {e : Expr}
    (h : rejectOwnedFormalArgument e callerTransferred = none) :
    OwnedFormal e callerTransferred := by
  rw [rejectOwnedFormalArgument_eq_none] at h
  refine ⟨fun x hx => ?_, fun x hx hfamily => ?_, argumentFlag_holdsTitle⟩
  · rcases armShape_cover hx with hhidden | hscalar | hconditional | hmem
    · exact .inr (.inr hhidden)
    · exact .inl (.scalar hscalar)
    · rw [← or_assoc]
      exact .inl (tenders_of_accepted (classified_of_conditional hconditional)
        (accepted_conditional hconditional joined_armShape))
    · rw [← or_assoc]
      exact .inl (tenders_of_accepted (classified_argumentShapes hmem) (h _ hmem))
  · have hborrow : (armShape e callerTransferred x).answer = .borrow := by
      have hclassified : Classified (armShape e callerTransferred x) := classified_armShape
      unfold Classified at hclassified
      rcases hfamily with hfamily | hfamily <;> (rw [hfamily] at hclassified; exact hclassified)
    rcases armShape_cover hx with hhidden | hscalar | hconditional | hmem
    · exact hhidden
    · rw [hborrow] at hscalar
      cases hscalar
    · rw [hconditional] at hfamily
      rcases hfamily with hfamily | hfamily <;> cases hfamily
    · exact absurd (h _ hmem) (refused_interior hfamily hborrow)

/-- `take(#(c ? heap T() : t))`, where `t` is a local that owns nothing. -/
def movedConditional : Expr :=
  .booleanSwitch classType (construction false)
    (.leaf classType (.identifier (some (some
      { field := ⟨"t", []⟩, type := classType, dropEntry := false,
        runtimeConditionalOwner := false, stackInstance := false, callBorrowOrigin := false,
        paramBorrowOrigin := false, parameter := none, arenaEligible := false,
        holdsStaticTitle := false }))))

theorem ownedFormal_of_accepted_movedConditional :
    rejectOwnedFormalArgument movedConditional true = none ∧ OwnedFormal movedConditional true :=
  ⟨rfl, ownedFormal_of_accepted rfl⟩

/-- The receiver passes, and it has neither a title to give nor a flag that decides at run time. -/
theorem receiver_not_refused :
    ¬ ∀ (e : Expr) (callerTransferred : Bool),
      rejectOwnedFormalArgument e callerTransferred = none →
        (∀ x ∈ arms e, Tenders (armShape e callerTransferred x)) ∨
          (classify e).answer = .runtime ∧
            ∀ {holds : Expr → Bool} {x : Expr} {b : Bool},
              ArgumentFlag holds e callerTransferred x b → b = true →
                HoldsTitle (armShape e callerTransferred x) (holds x) := by
  intro hall
  rcases hall (.leaf classType .this) false rfl with harms | ⟨hruntime, _⟩
  · have hmem : .leaf classType .this ∈ arms (.leaf classType .this) := by
      rw [arms] <;> simp
    cases harms _ hmem with
    | title htitle => cases htitle
    | copy hanswer _ => cases hanswer
    | scalar hanswer => cases hanswer
  · cases hruntime

end Cajeta.Ownership
