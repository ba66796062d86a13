import Cajeta.Compile.ObligationReplay
import Cajeta.Lib.Result
import Mathlib.Data.List.Chain
import Mathlib.Data.List.TakeWhile

/-!
# Canonical names are read back, without function types

An arrow has a bracket in it that the reader counts. So a list is split where it should only if no
type but the last has an arrow, and a function type is found only in the canonical map. The map has
short names as keys too, and one of them may be the canonical name of another type.
-/

namespace Cajeta.Compile.Obligation

mutual

/-- The arrows in the canonical name. -/
def Ty.arrows : Ty → Nat
  | .named .. => 0
  | .inst _ _ args => arrowsOf args
  | .array elem => elem.arrows
  | .fn params ret _ => arrowsOf params + ret.arrows + 1

def arrowsOf : List Ty → Nat
  | [] => 0
  | t :: ts => t.arrows + arrowsOf ts

end

mutual

/-- Read from a depth, where each arrow counts as a closing bracket, the name has no comma at depth
zero. -/
def Ty.Whole : (depth : Int) → Ty → Prop
  | _, .named .. => True
  | depth, .inst _ _ args => WholeList (depth + 1) args
  | depth, .array elem => elem.Whole depth
  | depth, .fn params ret _ =>
    WholeList (depth + 1) params ∧ ret.Whole (depth - arrowsOf params - 1)

def WholeList : (depth : Int) → List Ty → Prop
  | _, [] => True
  | depth, t :: ts =>
    t.Whole depth ∧ (ts ≠ [] → depth - t.arrows ≠ 0) ∧ WholeList (depth - t.arrows) ts

end

/-- No type but the last has an arrow, and the last has no comma at depth zero. -/
def SplitsRight : List Ty → Prop
  | [] => True
  | [t] => t.Whole 0
  | t :: ts => t.arrows = 0 ∧ SplitsRight ts

/-- The type under the last pair of array brackets of the name. The result of a function type is
read as if it were outside of it. -/
def Ty.element : Ty → Option Ty
  | .named .. | .inst .. => none
  | .array elem => some elem
  | .fn params ret _ => ret.element.map fun ret => .fn params ret true

/-- The elements in turn, each from the state that the one before has left. -/
inductive Turns (R : σ → α → σ → Prop) : σ → List α → σ → Prop where
  | nil : Turns R s [] s
  | cons : R s x s₁ → Turns R s₁ xs s' → Turns R s (x :: xs) s'

/-- In the map `m` the canonical name finds its type, or the reader takes it apart and finds the
parts; `m'` is the map behind. The arguments of an instance find theirs in turn, each in the map
that those before it have left. -/
inductive Resolves (w : World) : CanonicalMap → Ty → CanonicalMap → Prop where
  | hit : m.find t.toCanonical = some r → r.toCanonical = t.toCanonical → Resolves w m t m
  | array : m.find t.toCanonical = none → t.element = some elem → Resolves w m elem m' →
    Resolves w m t m'
  | inst : m.find (Ty.inst base kind args).toCanonical = none → SplitsRight args →
    m.find base = some template → template.toCanonical = base → template.isClass = true →
    Turns (Resolves w) m args m₁ → w.instantiate m₁ base (canonicals args) = some (r, m') →
    r.toCanonical = (Ty.inst base kind args).toCanonical → Resolves w m (.inst base kind args) m'

def isNameChar (c : Char) : Bool :=
  c ∉ ['<', '>', '(', ')', ',', '[', ']', '#', '-', ' ', '\t', '\r', '\n']

structure IsName (n : Text) : Prop where
  nonempty : n ≠ []
  chars : ∀ c ∈ n, isNameChar c

mutual

/-- The names in the type are names, and an instance has arguments. -/
def Ty.Proper : Ty → Prop
  | .named name _ => IsName name
  | .inst base _ args => IsName base ∧ args ≠ [] ∧ ProperList args
  | .array elem => elem.Proper
  | .fn params ret _ => ProperList params ∧ ret.Proper

def ProperList : List Ty → Prop
  | [] => True
  | t :: ts => t.Proper ∧ ProperList ts

end

/-! ## Brackets -/

theorem scan_append (dash : Bool) (depth : Nat) (s s' : Text) :
    scan dash depth (s ++ s') = (scan dash depth s).bind fun p => scan p.1 p.2 s' := by
  induction s generalizing dash depth with
  | nil => rfl
  | cons c s ih =>
    rw [List.cons_append, scan, scan]
    split
    · exact ih ..
    · split
      · split
        · rfl
        · exact ih ..
      · split
        · rfl
        · exact ih ..

theorem scan_raise (h : scan dash depth s = some (dash', depth')) (k : Nat) :
    scan dash (depth + k) s = some (dash', depth' + k) := by
  induction s generalizing dash depth with
  | nil =>
    cases h
    rfl
  | cons c s ih =>
    rw [scan] at h ⊢
    split
    · rename_i hc
      rw [if_pos hc] at h
      have := ih h
      rwa [Nat.add_right_comm] at this
    · rename_i hc
      rw [if_neg hc] at h
      split
      · rename_i hc'
        rw [if_pos hc'] at h
        split at h
        · cases h
        · rw [if_neg (by omega), Nat.sub_add_comm (by omega)]
          exact ih h
      · rename_i hc'
        rw [if_neg hc'] at h
        split at h
        · cases h
        · rename_i hcomma
          rw [if_neg fun hk => hcomma ⟨hk.1, by omega⟩]
          exact ih h

theorem Balanced.scan (h : Balanced s) (k : Nat) : scan false k s = some (false, k) := by
  have := scan_raise h k
  rwa [Nat.zero_add] at this

theorem Balanced.append (h : Balanced s) (h' : Balanced s') : Balanced (s ++ s') := by
  rw [Balanced, scan_append, h]
  exact h'

theorem isNameChar_spec (h : isNameChar c = true) : c ≠ '(' ∧ c ≠ '<' ∧ c ≠ ')' ∧ c ≠ '>' ∧
    c ≠ ',' ∧ c ≠ '-' ∧ c ≠ '[' ∧ c ≠ ']' ∧ c ≠ '#' ∧ isBlank c = false := by
  unfold isNameChar at h
  have h := of_decide_eq_true h
  simp only [List.mem_cons, List.not_mem_nil, or_false, not_or] at h
  unfold isBlank
  simp [h]

theorem balanced_of_chars (h : ∀ c ∈ s, isNameChar c = true) : Balanced s := by
  induction s with
  | nil => rfl
  | cons c s ih =>
    obtain ⟨h1, h2, h3, h4, h5, h6, -⟩ := isNameChar_spec (h c List.mem_cons_self)
    rw [Balanced, Obligation.scan]
    rw [if_neg (by simp [h1, h2]), if_neg (by simp [h3, h4]), if_neg (by simp [h5]),
      decide_eq_false h6]
    exact ih fun c hc => h c (List.mem_cons_of_mem _ hc)

theorem join_cons (t u : Text) (us : List Text) :
    join (t :: u :: us) = t ++ ',' :: join (u :: us) := rfl

theorem balanced_join (h : ∀ t ∈ ts, Balanced t) (k : Nat) :
    scan false (k + 1) (join ts) = some (false, k + 1) := by
  induction ts with
  | nil => rfl
  | cons t ts ih =>
    have ht := (h t List.mem_cons_self).scan (k + 1)
    cases ts with
    | nil => exact ht
    | cons u us =>
      rw [join_cons, scan_append, ht]
      exact ih fun t ht => h t (List.mem_cons_of_mem _ ht)

theorem Balanced.inst (h : Balanced base) (hargs : ∀ t ∈ ts, Balanced t) :
    Balanced (base ++ '<' :: (join ts ++ ['>'])) := by
  rw [Balanced, scan_append, h]
  show Obligation.scan false 1 (join ts ++ ['>']) = _
  rw [scan_append, balanced_join hargs 0]
  rfl

theorem Balanced.array (h : Balanced s) : Balanced (s ++ ['[', ']']) := by
  rw [Balanced, scan_append, h]
  rfl

mutual

theorem balanced_toCanonical : (t : Ty) → t.Proper → Balanced t.toCanonical
  | .named name kind, h => balanced_of_chars (IsName.chars h)
  | .inst base kind args, h =>
    (balanced_of_chars h.1.chars).inst (balanced_canonicals args h.2.2)
  | .array elem, h => (balanced_toCanonical elem h).array
  | .fn params ret owned, h => by
    have hret := balanced_toCanonical ret h.2
    rw [Ty.toCanonical, Balanced]
    show Obligation.scan false 1 _ = _
    rw [scan_append, balanced_join (balanced_canonicals params h.1) 0]
    show Obligation.scan false 0 (_ ++ _) = _
    split <;> exact hret

theorem balanced_canonicals : (ts : List Ty) → ProperList ts →
    ∀ s ∈ canonicals ts, Balanced s
  | [], _ => fun s hs => absurd hs List.not_mem_nil
  | t :: ts, h => by
    intro s hs
    rcases List.mem_cons.mp hs with rfl | hs
    · exact balanced_toCanonical t h.1
    · exact balanced_canonicals ts h.2 s hs

end

theorem Balanced.not_comma (h : Balanced p) : ¬Balanced (p ++ ',' :: s) := by
  rw [Balanced, scan_append, h]
  show Obligation.scan false 0 (',' :: s) ≠ _
  rw [Obligation.scan]
  simp

theorem balanced_head (hp : Balanced p) (ht : Balanced t) (h : p ++ ',' :: a = t ++ ',' :: b) :
    p = t ∧ a = b := by
  rcases List.append_eq_append_iff.mp h with ⟨m, rfl, hm⟩ | ⟨m, rfl, hm⟩
  · cases m with
    | nil => exact ⟨(List.append_nil p).symm, (List.cons.inj hm).2⟩
    | cons c m =>
      cases (List.cons.inj hm).1
      exact absurd ht hp.not_comma
  · cases m with
    | nil => exact ⟨List.append_nil t, (List.cons.inj hm).2.symm⟩
    | cons c m =>
      cases (List.cons.inj hm).1
      exact absurd hp ht.not_comma

theorem join_injective (hps : ∀ p ∈ ps, Balanced p) (hts : ∀ t ∈ ts, Balanced t) (hp : ps ≠ [])
    (ht : ts ≠ []) (h : join ps = join ts) : ps = ts := by
  induction ps generalizing ts with
  | nil => exact absurd rfl hp
  | cons p ps ih =>
    cases ts with
    | nil => exact absurd rfl ht
    | cons t ts =>
      have hbp := hps p List.mem_cons_self
      have hbt := hts t List.mem_cons_self
      cases ps with
      | nil =>
        cases ts with
        | nil => exact congrArg (· :: []) h
        | cons u us =>
          have h : p = t ++ ',' :: join (u :: us) := h
          exact absurd (h ▸ hbp) hbt.not_comma
      | cons q qs =>
        cases ts with
        | nil =>
          have h : p ++ ',' :: join (q :: qs) = t := h
          exact absurd (h ▸ hbt) hbp.not_comma
        | cons u us =>
          obtain ⟨rfl, hrest⟩ := balanced_head hbp hbt h
          rw [ih (fun p hp => hps p (List.mem_cons_of_mem _ hp))
            (fun t ht => hts t (List.mem_cons_of_mem _ ht)) (List.cons_ne_nil _ _)
            (List.cons_ne_nil _ _) hrest]

/-! ## The split -/

/-- The depth that the splitting reader has behind a text, if it does not split it. -/
def walk : (depth : Int) → Text → Option Int
  | depth, [] => some depth
  | depth, c :: s =>
    if c = '<' ∨ c = '(' then walk (depth + 1) s
    else if c = '>' ∨ c = ')' then walk (depth - 1) s
    else if c = ',' ∧ depth = 0 then none
    else walk depth s

theorem walk_append (depth : Int) (s s' : Text) :
    walk depth (s ++ s') = (walk depth s).bind fun depth => walk depth s' := by
  induction s generalizing depth with
  | nil => rfl
  | cons c s ih =>
    rw [List.cons_append, walk, walk]
    split
    · exact ih _
    · split
      · exact ih _
      · split
        · rfl
        · exact ih _

theorem walk_chars (depth : Int) (h : ∀ c ∈ s, isNameChar c = true) :
    walk depth s = some depth := by
  induction s with
  | nil => rfl
  | cons c s ih =>
    obtain ⟨h1, h2, h3, h4, h5, -⟩ := isNameChar_spec (h c List.mem_cons_self)
    rw [walk, if_neg (by simp [h1, h2]), if_neg (by simp [h3, h4]), if_neg (by simp [h5])]
    exact ih fun c hc => h c (List.mem_cons_of_mem _ hc)

theorem splitFrom_walk (h : walk depth w = some depth') (cur s : Text) :
    splitFrom depth cur (w ++ s) = splitFrom depth' (cur ++ w) s := by
  induction w generalizing depth cur with
  | nil =>
    cases h
    rw [List.append_nil]
    rfl
  | cons c w ih =>
    rw [walk] at h
    rw [List.cons_append, splitFrom]
    have hcur : cur ++ c :: w = cur ++ [c] ++ w := by simp
    rw [hcur]
    split
    · rename_i hc
      rw [if_pos hc] at h
      exact ih h _
    · rename_i hc
      rw [if_neg hc] at h
      split
      · rename_i hc'
        rw [if_pos hc'] at h
        exact ih h _
      · rename_i hc'
        rw [if_neg hc'] at h
        split at h
        · cases h
        · rename_i hcomma
          rw [if_neg hcomma]
          exact ih h _

theorem exists_of_walk_none (h : walk depth w = none) :
    ∃ u v, w = u ++ ',' :: v ∧ walk depth u = some 0 := by
  induction w generalizing depth with
  | nil => cases h
  | cons c w ih =>
    rw [walk] at h
    split at h
    · rename_i hc
      obtain ⟨u, v, rfl, hu⟩ := ih h
      exact ⟨c :: u, v, rfl, by rw [walk, if_pos hc, hu]⟩
    · rename_i hc
      split at h
      · rename_i hc'
        obtain ⟨u, v, rfl, hu⟩ := ih h
        exact ⟨c :: u, v, rfl, by rw [walk, if_neg hc, if_pos hc', hu]⟩
      · rename_i hc'
        split at h
        · rename_i hcomma
          obtain ⟨rfl, rfl⟩ := hcomma
          exact ⟨[], w, rfl, rfl⟩
        · rename_i hcomma
          obtain ⟨u, v, rfl, hu⟩ := ih h
          exact ⟨c :: u, v, rfl, by rw [walk, if_neg hc, if_neg hc', if_neg hcomma, hu]⟩

theorem splitFrom_head (depth : Int) (cur s : Text) :
    ∃ p ps, splitFrom depth cur s = p :: ps ∧ cur <+: p := by
  induction s generalizing depth cur with
  | nil => exact ⟨cur, [], rfl, List.prefix_rfl⟩
  | cons c s ih =>
    rw [splitFrom]
    have hstep : ∀ depth, ∃ p ps, splitFrom depth (cur ++ [c]) s = p :: ps ∧ cur <+: p := by
      intro depth
      obtain ⟨p, ps, heq, hp⟩ := ih depth (cur ++ [c])
      exact ⟨p, ps, heq, (List.prefix_append cur [c]).trans hp⟩
    split
    · exact hstep _
    · split
      · exact hstep _
      · split
        · exact ⟨cur, _, rfl, List.prefix_rfl⟩
        · exact hstep _

theorem splitFrom_comma (cur s : Text) : splitFrom 0 cur (',' :: s) = cur :: splitFrom 0 [] s := by
  rw [splitFrom]
  simp

theorem split_cons_iff {w s : Text} {ps : List Text} :
    splitTopLevel (w ++ ',' :: s) = w :: ps ↔ walk 0 w = some 0 ∧ splitTopLevel s = ps := by
  constructor
  · intro h
    unfold splitTopLevel at h
    cases hw : walk 0 w with
    | none =>
      obtain ⟨u, v, rfl, hu⟩ := exists_of_walk_none hw
      rw [List.append_assoc, splitFrom_walk hu, List.cons_append, splitFrom_comma,
        List.nil_append] at h
      have := congrArg List.length (List.cons.inj h).1
      simp at this
    | some depth =>
      rw [splitFrom_walk hw, List.nil_append] at h
      by_cases hdepth : depth = 0
      · subst hdepth
        rw [splitFrom_comma] at h
        exact ⟨rfl, (List.cons.inj h).2⟩
      · rw [splitFrom, if_neg (by decide), if_neg (by decide), if_neg fun hc => hdepth hc.2] at h
        obtain ⟨p, qs, heq, hp⟩ := splitFrom_head depth (w ++ [',']) s
        rw [heq] at h
        have := hp.length_le
        rw [(List.cons.inj h).1, List.length_append, List.length_singleton] at this
        omega
  · rintro ⟨hw, rfl⟩
    rw [splitTopLevel, splitFrom_walk hw, splitFrom_comma]
    rfl

theorem split_single_iff {w : Text} : splitTopLevel w = [w] ↔ walk 0 w ≠ none := by
  constructor
  · intro h hw
    obtain ⟨u, v, rfl, hu⟩ := exists_of_walk_none hw
    rw [splitTopLevel, splitFrom_walk hu, splitFrom_comma, List.nil_append] at h
    have := congrArg List.length (List.cons.inj h).1
    simp at this
  · intro hw
    obtain ⟨depth, hw⟩ := Option.ne_none_iff_exists'.mp hw
    have h := splitFrom_walk hw [] []
    rw [List.append_nil] at h
    exact h

theorem join_splitFrom (depth : Int) (cur s : Text) : join (splitFrom depth cur s) = cur ++ s := by
  induction s generalizing depth cur with
  | nil => exact (List.append_nil cur).symm
  | cons c s ih =>
    rw [splitFrom]
    have hstep : ∀ depth, join (splitFrom depth (cur ++ [c]) s) = cur ++ c :: s := by
      intro depth
      rw [ih]
      simp
    split
    · exact hstep _
    · split
      · exact hstep _
      · split
        · rename_i hcomma
          obtain ⟨p, ps, heq, -⟩ := splitFrom_head depth [] s
          have hjoin := ih depth []
          rw [heq] at hjoin ⊢
          rw [join_cons, hjoin, hcomma.1]
          rfl
        · exact hstep _

mutual

theorem walk_toCanonical : (t : Ty) → t.Proper → ∀ depth depth',
    walk depth t.toCanonical = some depth' ↔ t.Whole depth ∧ depth' = depth - t.arrows
  | .named name kind, h => by
    intro depth depth'
    rw [Ty.toCanonical, walk_chars depth (IsName.chars h), Ty.Whole, Ty.arrows]
    simp [eq_comm]
  | .inst base kind args, h => by
    intro depth depth'
    have hargs := walk_join args h.2.2 (depth + 1)
    rw [Ty.toCanonical, walk_append, walk_chars depth h.1.chars, Ty.Whole, Ty.arrows]
    show walk (depth + 1) (join (canonicals args) ++ ['>']) = _ ↔ _
    rw [walk_append, Option.bind_eq_some_iff]
    have hclose : ∀ d, walk d ['>'] = some (d - 1) := fun d => rfl
    simp only [hargs, hclose, Option.some.injEq]
    constructor
    · rintro ⟨d, ⟨hw, rfl⟩, rfl⟩
      exact ⟨hw, by omega⟩
    · rintro ⟨hw, rfl⟩
      exact ⟨_, ⟨hw, rfl⟩, by omega⟩
  | .array elem, h => by
    intro depth depth'
    have helem := walk_toCanonical elem h depth
    have hclose : ∀ d, walk d ['[', ']'] = some d := fun d => rfl
    rw [Ty.toCanonical, walk_append, Option.bind_eq_some_iff, Ty.Whole, Ty.arrows]
    simp only [helem, hclose, Option.some.injEq]
    constructor
    · rintro ⟨d, ⟨hw, rfl⟩, rfl⟩
      exact ⟨hw, rfl⟩
    · rintro ⟨hw, rfl⟩
      exact ⟨_, ⟨hw, rfl⟩, rfl⟩
  | .fn params ret owned, h => by
    intro depth depth'
    have hparams := walk_join params h.1 (depth + 1)
    have hret := walk_toCanonical ret h.2
    rw [Ty.toCanonical, Ty.Whole, Ty.arrows]
    show walk (depth + 1) (join (canonicals params) ++ _) = _ ↔ _
    rw [walk_append, Option.bind_eq_some_iff]
    have harrow : ∀ d, walk d (')' :: ' ' :: '-' :: '>' :: ' ' ::
        ((if owned = true ∨ (!ret.sretCanonicalDiscriminates) = true then ['#'] else []) ++
          ret.toCanonical)) = walk (d - 1 - 1) ret.toCanonical := by
      intro d
      show walk (d - 1 - 1) (_ ++ _) = _
      split <;> rfl
    simp only [hparams, harrow, hret]
    constructor
    · rintro ⟨d, ⟨hw, rfl⟩, hwr, rfl⟩
      rw [show depth + 1 - (arrowsOf params : Int) - 1 - 1 = depth - arrowsOf params - 1 by
        omega] at hwr
      exact ⟨⟨hw, hwr⟩, by push_cast; omega⟩
    · rintro ⟨⟨hw, hwr⟩, rfl⟩
      refine ⟨_, ⟨hw, rfl⟩, ?_, by push_cast; omega⟩
      rwa [show depth + 1 - (arrowsOf params : Int) - 1 - 1 = depth - arrowsOf params - 1 by omega]

theorem walk_join : (ts : List Ty) → ProperList ts → ∀ depth depth',
    walk depth (join (canonicals ts)) = some depth' ↔
      WholeList depth ts ∧ depth' = depth - arrowsOf ts
  | [], _ => by
    intro depth depth'
    show some depth = some depth' ↔ _
    simp [WholeList, arrowsOf, eq_comm]
  | [t], h => by
    intro depth depth'
    have ht := walk_toCanonical t h.1 depth depth'
    show walk depth t.toCanonical = _ ↔ _
    rw [ht]
    simp [WholeList, arrowsOf]
  | t :: u :: us, h => by
    intro depth depth'
    have ht := walk_toCanonical t h.1 depth
    have hrest := walk_join (u :: us) h.2
    show walk depth (t.toCanonical ++ ',' :: join (canonicals (u :: us))) = _ ↔ _
    rw [walk_append, Option.bind_eq_some_iff]
    have hcomma : ∀ d : Int, walk d (',' :: join (canonicals (u :: us))) =
        if d = 0 then none else walk d (join (canonicals (u :: us))) := by
      intro d
      rw [walk]
      simp
    simp only [ht, hcomma]
    rw [WholeList, arrowsOf]
    constructor
    · rintro ⟨d, ⟨hw, rfl⟩, hrest'⟩
      split at hrest'
      · cases hrest'
      · rename_i hd
        obtain ⟨hwr, rfl⟩ := (hrest _ _).mp hrest'
        exact ⟨⟨hw, fun _ => hd, hwr⟩, by push_cast; omega⟩
    · rintro ⟨⟨hw, hd, hwr⟩, rfl⟩
      refine ⟨_, ⟨hw, rfl⟩, ?_⟩
      rw [if_neg (hd (List.cons_ne_nil _ _))]
      exact (hrest _ _).mpr ⟨hwr, by push_cast; omega⟩

end

mutual

theorem whole_of_arrows : (t : Ty) → t.arrows = 0 → ∀ depth ≥ 0, t.Whole depth
  | .named .., _ => fun _ _ => trivial
  | .inst base kind args, h => fun depth hdepth => wholeList_of_arrows args h (depth + 1) (by omega)
  | .array elem, h => whole_of_arrows elem h
  | .fn params ret owned, h => by
    rw [Ty.arrows] at h
    omega

theorem wholeList_of_arrows : (ts : List Ty) → arrowsOf ts = 0 → ∀ depth > 0, WholeList depth ts
  | [], _ => fun _ _ => trivial
  | t :: ts, h => by
    intro depth hdepth
    rw [arrowsOf] at h
    have ht : t.arrows = 0 := by omega
    refine ⟨whole_of_arrows t ht depth (by omega), fun _ => by omega, ?_⟩
    exact wholeList_of_arrows ts (by omega) _ (by omega)

end

theorem splitTopLevel_iff : (ts : List Ty) → ProperList ts → ts ≠ [] →
    (splitTopLevel (join (canonicals ts)) = canonicals ts ↔ SplitsRight ts)
  | [], _, hne => absurd rfl hne
  | [t], h, _ => by
    show splitTopLevel t.toCanonical = [t.toCanonical] ↔ t.Whole 0
    rw [split_single_iff, Option.ne_none_iff_exists']
    simp only [walk_toCanonical t h.1]
    exact ⟨fun ⟨_, hw, _⟩ => hw, fun hw => ⟨_, hw, rfl⟩⟩
  | t :: u :: us, h, _ => by
    have ih := splitTopLevel_iff (u :: us) h.2 (List.cons_ne_nil _ _)
    show splitTopLevel (t.toCanonical ++ ',' :: join (canonicals (u :: us))) =
      t.toCanonical :: canonicals (u :: us) ↔ t.arrows = 0 ∧ SplitsRight (u :: us)
    rw [split_cons_iff, ih, walk_toCanonical t h.1]
    refine and_congr_left fun _ => ⟨fun hw => by omega, fun ha => ⟨?_, by omega⟩⟩
    exact whole_of_arrows t ha 0 (Int.le_refl 0)

/-! ## Ends of names -/

theorem exists_trim (s : Text) :
    ∃ a b, s = a ++ (trim s ++ b) ∧ (∀ c ∈ a, isBlank c = true) ∧ ∀ c ∈ b, isBlank c = true := by
  refine ⟨s.takeWhile isBlank, ((s.dropWhile isBlank).reverse.takeWhile isBlank).reverse, ?_,
    fun c => List.mem_takeWhile_imp, fun c hc => ?_⟩
  · rw [trim, ← List.reverse_append, List.takeWhile_append_dropWhile, List.reverse_reverse,
      List.takeWhile_append_dropWhile]
  · exact List.mem_takeWhile_imp (List.mem_reverse.mp hc)

theorem balanced_blank (h : ∀ c ∈ s, isBlank c = true) : Balanced s := by
  induction s with
  | nil => rfl
  | cons c s ih =>
    have hc := h c List.mem_cons_self
    unfold isBlank at hc
    have hc := of_decide_eq_true hc
    rw [Balanced, Obligation.scan, if_neg (by rintro (rfl | rfl) <;> simp at hc),
      if_neg (by rintro (rfl | ⟨rfl, -⟩) <;> simp at hc), if_neg (by rintro ⟨rfl, -⟩; simp at hc),
      decide_eq_false (by rintro rfl; simp at hc)]
    exact ih fun c hc => h c (List.mem_cons_of_mem _ hc)

theorem balanced_of_trim (h : Balanced (trim s)) : Balanced s := by
  obtain ⟨a, b, hs, ha, hb⟩ := exists_trim s
  rw [hs]
  exact (balanced_blank ha).append (h.append (balanced_blank hb))

theorem balanced_of_strip (h : Balanced (stripOwned s)) : Balanced s := by
  unfold stripOwned at h
  split at h
  · exact Balanced.append (s := ['#']) rfl (balanced_of_trim h)
  · exact h

/-- The first character is part of a name or opens the parameters, the last one is not blank. -/
structure Ends (s : Text) : Prop where
  head : ∃ c s', s = c :: s' ∧ isBlank c = false ∧ c ≠ '#' ∧ c ≠ '<'
  last : ∃ s' c, s = s' ++ [c] ∧ isBlank c = false

theorem Ends.trim (h : Ends s) : trim s = s := by
  obtain ⟨c, s', hs, hc, -⟩ := h.head
  obtain ⟨s'', d, hs', hd⟩ := h.last
  rw [Obligation.trim]
  have hdrop : s.dropWhile isBlank = s := by rw [hs, List.dropWhile_cons, hc]; rfl
  have hrev : s.reverse.dropWhile isBlank = s.reverse := by
    rw [hs', List.reverse_append, List.reverse_singleton, List.singleton_append,
      List.dropWhile_cons, hd]
    rfl
  rw [hdrop, hrev, List.reverse_reverse]

theorem Ends.strip (h : Ends s) : stripOwned (Obligation.trim s) = s := by
  rw [h.trim]
  obtain ⟨c, s', hs, -, hc, -⟩ := h.head
  rw [hs, stripOwned]
  rintro _ heq
  exact hc (List.cons.inj heq).1

theorem IsName.ends (h : IsName s) : Ends s := by
  constructor
  · obtain ⟨c, s', rfl⟩ := List.exists_cons_of_ne_nil h.nonempty
    have hc := isNameChar_spec (h.chars c List.mem_cons_self)
    exact ⟨c, s', rfl, hc.2.2.2.2.2.2.2.2.2, hc.2.2.2.2.2.2.2.2.1, hc.2.1⟩
  · refine ⟨s.dropLast, s.getLast h.nonempty, (List.dropLast_append_getLast _).symm, ?_⟩
    exact (isNameChar_spec (h.chars _ (List.getLast_mem _))).2.2.2.2.2.2.2.2.2

theorem Ends.append (h : Ends s) (hlast : ∃ u c, s' = u ++ [c] ∧ isBlank c = false) :
    Ends (s ++ s') := by
  obtain ⟨c, v, rfl, hc⟩ := h.head
  obtain ⟨u, d, rfl, hd⟩ := hlast
  exact ⟨⟨c, v ++ (u ++ [d]), rfl, hc⟩, ⟨c :: v ++ u, d, by simp, hd⟩⟩

theorem toCanonical_fn (params : List Ty) (ret : Ty) (owned : Bool) :
    (Ty.fn params ret owned).toCanonical = ('(' :: (join (canonicals params) ++
      (')' :: ' ' :: '-' :: '>' :: ' ' ::
        (if owned ∨ !ret.sretCanonicalDiscriminates then ['#'] else [])))) ++ ret.toCanonical := by
  rw [Ty.toCanonical]
  simp only [List.cons_append, List.append_assoc]

theorem ends_toCanonical : (t : Ty) → t.Proper → Ends t.toCanonical
  | .named name kind, h => IsName.ends h
  | .inst base kind args, h =>
    h.1.ends.append ⟨'<' :: join (canonicals args), '>', rfl, rfl⟩
  | .array elem, h => (ends_toCanonical elem h).append ⟨['['], ']', rfl, rfl⟩
  | .fn params ret owned, h => by
    obtain ⟨s', c, hs', hc⟩ := (ends_toCanonical ret h.2).last
    refine ⟨⟨'(', _, rfl, rfl, by decide, by decide⟩, ?_⟩
    rw [toCanonical_fn, hs', ← List.append_assoc]
    exact ⟨_, c, rfl, hc⟩

theorem element_some : (t : Ty) → t.Proper → t.element = some elem →
    elem.Proper ∧ t.toCanonical = elem.toCanonical ++ ['[', ']']
  | .named name kind, _, he => by cases he
  | .inst base kind args, _, he => by cases he
  | .array elem, h, he => by
    cases he
    exact ⟨h, rfl⟩
  | .fn params ret owned, h, he => by
    rw [Ty.element, Option.map_eq_some_iff] at he
    obtain ⟨ret', hret, rfl⟩ := he
    obtain ⟨hd, hc⟩ := element_some ret h.2 hret
    refine ⟨⟨h.1, hd⟩, ?_⟩
    have hsret : ret.sretCanonicalDiscriminates = false := by
      cases ret with
      | named name kind => cases hret
      | inst base kind args => cases hret
      | array elem => rfl
      | fn params ret owned => rfl
    rw [toCanonical_fn, toCanonical_fn, if_pos (by simp [hsret]), if_pos (by simp), hc,
      List.append_assoc]

theorem element_none : (t : Ty) → t.Proper → t.element = none →
    t.toCanonical.getLast? ≠ some ']'
  | .named name kind, h, _ => by
    obtain ⟨s', c, hs', -⟩ := (IsName.ends h).last
    have hc := (isNameChar_spec ((IsName.chars h) c (by rw [hs']; simp))).2.2.2.2.2.2.2.1
    rw [Ty.toCanonical, hs', List.getLast?_concat]
    exact fun h => hc (Option.some.inj h)
  | .inst base kind args, _, _ => by
    have hs : (Ty.inst base kind args).toCanonical =
      (base ++ '<' :: join (canonicals args)) ++ ['>'] := by simp [Ty.toCanonical]
    rw [hs, List.getLast?_concat]
    decide
  | .array elem, _, he => by cases he
  | .fn params ret owned, h, he => by
    rw [Ty.element, Option.map_eq_none_iff] at he
    have hret := element_none ret h.2 he
    obtain ⟨s', c, hs', -⟩ := (ends_toCanonical ret h.2).last
    rw [hs', List.getLast?_concat] at hret
    rwa [toCanonical_fn, hs', ← List.append_assoc, List.getLast?_concat]

/-! ## Joints -/

/-- No angle bracket is opened right behind an array. -/
def Joint (s : Text) : Prop := s.IsChain fun a b => a = ']' → b ≠ '<'

theorem Joint.append (h : Joint s) (h' : Joint s') (hhead : ∀ c ∈ s'.head?, c ≠ '<') :
    Joint (s ++ s') :=
  List.IsChain.append h h' fun _ _ c hc _ => hhead c hc

theorem Joint.cons (h : Joint s) (hhead : ∀ c ∈ s.head?, c ≠ '<') (c : Char) : Joint (c :: s) :=
  Joint.append (s := [c]) (List.isChain_singleton c) h hhead

theorem joint_chars (h : ∀ c ∈ s, isNameChar c = true) : Joint s := by
  induction s with
  | nil => exact List.isChain_nil
  | cons c s ih =>
    refine Joint.cons (ih fun c hc => h c (List.mem_cons_of_mem _ hc)) (fun d hd => ?_) c
    exact (isNameChar_spec (h d (List.mem_cons_of_mem _ (List.mem_of_mem_head? hd)))).2.1

theorem Ends.head_ne (h : Ends s) (c : Char) (hc : c ∈ s.head?) : c ≠ '<' := by
  obtain ⟨d, s', rfl, -, -, hd⟩ := h.head
  cases hc
  exact hd

theorem joint_arrow : Joint [')', ' ', '-', '>', ' ', '#'] := by
  simp [Joint]

mutual

theorem joint_toCanonical : (t : Ty) → t.Proper → Joint t.toCanonical
  | .named name kind, h => joint_chars (IsName.chars h)
  | .inst base kind args, h => by
    have hargs := joint_join args h.2.2
    have hrest : Joint ('<' :: (join (canonicals args) ++ ['>'])) := by
      refine Joint.cons (hargs.append (List.isChain_singleton _) ?_) ?_ '<'
      · rintro c (_ | _)
        decide
      · intro c hc
        cases hj : join (canonicals args) with
        | nil =>
          rw [hj] at hc
          cases hc
          decide
        | cons d s =>
          rw [hj] at hc
          exact join_head args h.2.2 c (hj ▸ hc)
    refine List.IsChain.append (joint_chars h.1.chars) hrest fun c hc d _ hbracket => ?_
    have := isNameChar_spec (h.1.chars c (List.mem_of_mem_getLast? hc))
    exact absurd hbracket this.2.2.2.2.2.2.2.1
  | .array elem, h => by
    refine (joint_toCanonical elem h).append ?_ ?_
    · exact Joint.cons (List.isChain_singleton _) (by rintro c (_ | _); decide) _
    · rintro c (_ | _)
      decide
  | .fn params ret owned, h => by
    have hret := joint_toCanonical ret h.2
    have hhead := (ends_toCanonical ret h.2).head_ne
    rw [toCanonical_fn]
    refine Joint.append (Joint.cons ((joint_join params h.1).append ?_ ?_) ?_ _) hret hhead
    · split
      · exact joint_arrow
      · have harrow : Joint ([')', ' ', '-', '>', ' '] ++ ['#']) := joint_arrow
        exact harrow.left_of_append
    · rintro c (_ | _)
      decide
    · intro c hc
      cases hj : join (canonicals params) with
      | nil =>
        rw [hj] at hc
        cases hc
        decide
      | cons d s =>
        rw [hj] at hc
        exact join_head params h.1 c (hj ▸ hc)

theorem joint_join : (ts : List Ty) → ProperList ts → Joint (join (canonicals ts))
  | [], _ => List.isChain_nil
  | [t], h => joint_toCanonical t h.1
  | t :: u :: us, h => by
    have hrest := joint_join (u :: us) h.2
    refine (joint_toCanonical t h.1).append
      (Joint.cons hrest (join_head (u :: us) h.2) ',') ?_
    rintro c (_ | _)
    decide

theorem join_head : (ts : List Ty) → ProperList ts →
    ∀ c ∈ (join (canonicals ts)).head?, c ≠ '<'
  | [], _ => fun c hc => by cases hc
  | [t], h => (ends_toCanonical t h.1).head_ne
  | t :: u :: us, h => by
    intro c hc
    have hne := (ends_toCanonical t h.1).head
    obtain ⟨d, s, hs, -, -, hd⟩ := hne
    have hc : c ∈ (t.toCanonical ++ ',' :: join (canonicals (u :: us))).head? := hc
    rw [hs] at hc
    cases hc
    exact hd

end

/-! ## The reader -/

theorem canonicals_length : (ts : List Ty) → (canonicals ts).length = ts.length
  | [] => rfl
  | _ :: ts => congrArg (· + 1) (canonicals_length ts)

theorem split_angle (h : s.dropWhile (· ≠ '<') = c :: rest) :
    s = s.takeWhile (· ≠ '<') ++ '<' :: rest := by
  have hc : c = '<' := by
    have hhead := List.head?_dropWhile_not (fun c : Char => decide (c ≠ '<')) s
    rw [h] at hhead
    simpa using hhead
  subst hc
  rw [← h, List.takeWhile_append_dropWhile]

/-- What is read is found, or is an array of what is read, or an instance of a template that is
found, of arguments that are read. -/
theorem resolve_cases {w : World} {m : CanonicalMap}
    (h : resolve w (fuel + 1) m s = .ok (t, m')) :
    (m.find (trim s) = some t ∧ m' = m) ∨
    (m.find (trim s) = none ∧ ∃ elem s', trim s = s' ++ ['[', ']'] ∧
      resolve w fuel m s' = .ok (elem, m') ∧ t = .array elem) ∨
    (m.find (trim s) = none ∧ ∃ base inner template args m₁,
      trim s = base ++ '<' :: (inner ++ ['>']) ∧ '<' ∉ base ∧ m.find base = some template ∧
      template.isClass = true ∧
      resolveArgList (resolve w fuel) m (splitTopLevel inner) = .ok (args, m₁) ∧
      w.instantiate m₁ template.toCanonical (canonicals args) = some (t, m')) := by
  rw [resolve] at h
  generalize trim s = s at h ⊢
  dsimp only at h
  split at h
  · cases h
  split at h
  · next hit =>
    cases h
    exact .inl ⟨hit, rfl⟩
  next hmiss =>
  split at h
  · next hbrackets =>
    obtain ⟨⟨elem, m₁⟩, helem, h⟩ := Except.bind_eq_ok.mp h
    dsimp only at h
    split at h
    · cases h
      refine .inr (.inl ⟨hmiss, elem, _, ?_, helem, rfl⟩)
      rw [← hbrackets.2, List.take_append_drop]
    · cases h
  split at h
  · cases h
  next c rest hangle =>
  have hs := split_angle hangle
  split at h
  · cases h
  next hclose =>
  have hclose := Classical.not_not.mp hclose
  obtain ⟨inner, rfl⟩ : ∃ inner, rest = inner ++ ['>'] := by
    rcases List.eq_nil_or_concat' rest with rfl | ⟨inner, d, rfl⟩
    · rw [hs, List.getLast?_concat] at hclose
      cases hclose
    · rw [hs, ← List.cons_append, ← List.append_assoc, List.getLast?_concat] at hclose
      exact ⟨inner, by rw [Option.some.inj hclose]⟩
  split at h
  · cases h
  next template hbase =>
  split at h
  · next hclass =>
    obtain ⟨⟨args, m₁⟩, hargs, h⟩ := Except.bind_eq_ok.mp h
    rw [List.dropLast_concat] at hargs
    dsimp only at h
    split at h
    · cases h
    · next found hmake =>
      cases h
      refine .inr (.inr ⟨hmiss, _, inner, template, args, m₁, hs, fun hmem => ?_, hbase, hclass,
        hargs, hmake⟩)
      have := List.mem_takeWhile_imp hmem
      simp at this
  · cases h

theorem resolveArgList_cons
    {read : CanonicalMap → Text → Except Error (Ty × CanonicalMap)}
    (h : resolveArgList read m (p :: ps) = .ok (args, m')) :
    ∃ t m₁ args', read m (stripOwned (trim p)) = .ok (t, m₁) ∧
      resolveArgList read m₁ ps = .ok (args', m') ∧ args = t :: args' := by
  obtain ⟨⟨t, m₁⟩, ht, h⟩ := Except.bind_eq_ok.mp h
  obtain ⟨⟨args', m₂⟩, hargs, h⟩ := Except.bind_eq_ok.mp h
  cases h
  exact ⟨t, m₁, args', ht, hargs, rfl⟩

theorem resolveArgList_balanced
    {read : CanonicalMap → Text → Except Error (Ty × CanonicalMap)}
    (hread : ∀ {m s t m'}, read m s = .ok (t, m') → Balanced s ∧ Balanced t.toCanonical)
    (h : resolveArgList read m ps = .ok (args, m')) :
    (∀ p ∈ ps, Balanced p) ∧ (∀ s ∈ canonicals args, Balanced s) ∧ args.length = ps.length := by
  induction ps generalizing m args with
  | nil =>
    cases h
    exact ⟨fun _ hp => absurd hp List.not_mem_nil, fun _ hs => absurd hs List.not_mem_nil, rfl⟩
  | cons p ps ih =>
    obtain ⟨t, m₁, args', ht, hargs, rfl⟩ := resolveArgList_cons h
    obtain ⟨hp, hbt⟩ := hread ht
    obtain ⟨hps, hbargs, hlen⟩ := ih hargs
    refine ⟨List.forall_mem_cons.mpr ⟨balanced_of_trim (balanced_of_strip hp), hps⟩, ?_,
      congrArg (· + 1) hlen⟩
    exact List.forall_mem_cons.mpr ⟨hbt, hbargs⟩

theorem resolve_balanced {w : World} {m : CanonicalMap} (h : resolve w fuel m s = .ok (t, m')) :
    Balanced s ∧ Balanced t.toCanonical := by
  induction fuel generalizing m s t m' with
  | zero => cases h
  | succ fuel ih =>
    suffices Balanced (trim s) ∧ Balanced t.toCanonical from ⟨balanced_of_trim this.1, this.2⟩
    rcases resolve_cases h with ⟨hit, rfl⟩ | ⟨-, elem, s', hs, helem, rfl⟩ |
      ⟨-, base, inner, template, args, m₁, hs, -, hbase, -, hargs, hmake⟩
    · exact m'.balanced _ _ hit
    · obtain ⟨hs', hbelem⟩ := ih helem
      exact ⟨hs ▸ hs'.array, hbelem.array⟩
    · obtain ⟨hps, hbargs, -⟩ := resolveArgList_balanced ih hargs
      obtain ⟨hbbase, hbtemplate⟩ := m.balanced _ _ hbase
      have hjoin : join (splitTopLevel inner) = inner := join_splitFrom 0 [] inner
      refine ⟨?_, ?_⟩
      · rw [hs, ← hjoin]
        exact hbbase.inst hps
      · rcases w.named _ _ _ _ _ hmake with heq | ⟨defaults, hdefaults, heq⟩
        · rwa [heq]
        · rw [heq]
          refine hbtemplate.inst fun s hs => ?_
          exact (List.mem_append.mp hs).elim (hbargs s) (hdefaults s)

theorem resolve_hit {w : World} {m : CanonicalMap} {t : Ty} (h : t.Proper)
    (hit : m.find t.toCanonical = some r) :
    resolve w (fuel + 1) m t.toCanonical = .ok (r, m) := by
  have hends := ends_toCanonical t h
  rw [resolve, hends.trim]
  dsimp only
  obtain ⟨c, s, hs, -⟩ := hends.head
  rw [if_neg (by rw [hs]; exact List.cons_ne_nil _ _), hit]

theorem resolve_array {w : World} {m : CanonicalMap} {t elem : Ty} (h : t.Proper)
    (hlib : w.stdlibModule = true) (hmiss : m.find t.toCanonical = none)
    (he : t.element = some elem) (helem : resolve w fuel m elem.toCanonical = .ok (r, m')) :
    resolve w (fuel + 1) m t.toCanonical = .ok (.array r, m') := by
  obtain ⟨hd, hs⟩ := element_some t h he
  have hends := ends_toCanonical t h
  have hlen : t.toCanonical.length = elem.toCanonical.length + 2 := by rw [hs]; simp
  have hpos : 0 < elem.toCanonical.length := by
    obtain ⟨c, s, hs, -⟩ := (ends_toCanonical elem hd).head
    rw [hs]
    exact Nat.succ_pos _
  rw [resolve, hends.trim]
  dsimp only
  rw [if_neg (fun h0 => by rw [h0] at hlen; cases hlen), hmiss]
  dsimp only
  have hdrop : t.toCanonical.drop (t.toCanonical.length - 2) = ['[', ']'] := by
    rw [hlen, Nat.add_sub_cancel, hs, List.drop_left]
  have htake : t.toCanonical.take (t.toCanonical.length - 2) = elem.toCanonical := by
    rw [hlen, Nat.add_sub_cancel, hs, List.take_left]
  rw [if_pos ⟨by omega, hdrop⟩, htake, helem, Except.ok_bind]
  dsimp only
  rw [if_pos (.inr hlib)]

theorem resolve_inst {w : World} {m : CanonicalMap} {args args' : List Ty} {template : Ty}
    (h : (Ty.inst base kind args).Proper)
    (hmiss : m.find (Ty.inst base kind args).toCanonical = none)
    (hmap : m.find base = some template) (hclass : template.isClass = true)
    (hargs : resolveArgList (resolve w fuel) m (splitTopLevel (join (canonicals args))) =
      .ok (args', m₁))
    (hmake : w.instantiate m₁ template.toCanonical (canonicals args') = some found) :
    resolve w (fuel + 1) m (Ty.inst base kind args).toCanonical = .ok found := by
  have hends := ends_toCanonical _ h
  have hlast := element_none _ h rfl
  have hall : ∀ c ∈ base, decide (c ≠ '<') = true := fun c hc =>
    decide_eq_true (isNameChar_spec (h.1.chars c hc)).2.1
  have hs : (Ty.inst base kind args).toCanonical =
      base ++ '<' :: (join (canonicals args) ++ ['>']) := rfl
  have hdrop : (Ty.inst base kind args).toCanonical.dropWhile (· ≠ '<') =
      '<' :: (join (canonicals args) ++ ['>']) := by
    rw [hs, List.dropWhile_append_of_pos hall]
    rfl
  have htake : (Ty.inst base kind args).toCanonical.takeWhile (· ≠ '<') = base := by
    rw [hs, List.takeWhile_append_of_pos hall]
    exact List.append_nil base
  have hclose : (Ty.inst base kind args).toCanonical.getLast? = some '>' := by
    rw [hs, ← List.cons_append, ← List.append_assoc, List.getLast?_concat]
  rw [resolve, hends.trim]
  dsimp only
  rw [if_neg (by rw [hs]; simp), hmiss]
  dsimp only
  rw [if_neg, hdrop, htake]
  · dsimp only
    rw [if_neg (by rw [hclose]; simp), hmap]
    dsimp only
    rw [if_pos hclass, List.dropLast_concat, hargs, Except.ok_bind]
    dsimp only
    rw [hmake]
  · rintro ⟨-, hbrackets⟩
    refine hlast ?_
    have := List.take_append_drop ((Ty.inst base kind args).toCanonical.length - 2)
      (Ty.inst base kind args).toCanonical
    rw [hbrackets] at this
    rw [← this, show ['[', ']'] = ['['] ++ [']'] from rfl, ← List.append_assoc,
      List.getLast?_concat]

/-! ## What is read -/

theorem IsName.not_mem (h : IsName n) (hc : isNameChar c = false) : c ∉ n := by
  intro hmem
  rw [h.chars c hmem] at hc
  cases hc

theorem not_angle {m : CanonicalMap} (h : (Ty.fn params ret owned).Proper)
    (hs : (Ty.fn params ret owned).toCanonical = base ++ '<' :: s)
    (hmap : m.find base = some template) : template.isClass = false := by
  have hhead : base.head? = some '(' := by
    cases base with
    | nil => cases hs
    | cons c base =>
      rw [Ty.toCanonical, List.cons_append, List.cons.injEq] at hs
      rw [← hs.1]
      rfl
  have hjoint := joint_toCanonical _ h
  rw [hs] at hjoint
  refine Bool.eq_false_iff.mpr fun hclass => ?_
  have hlast := m.paren _ _ hmap hhead hclass
  obtain ⟨b, rfl⟩ : ∃ b, base = b ++ [']'] := by
    rcases List.eq_nil_or_concat' base with rfl | ⟨b, d, rfl⟩
    · cases hhead
    · rw [List.getLast?_concat] at hlast
      exact ⟨b, by rw [Option.some.inj hlast]⟩
  have hpair := List.IsChain.infix hjoint (⟨b, s, by simp⟩ : [']', '<'] <:+: _)
  simp at hpair

theorem angle_injective {a b x y : Text} (ha : '<' ∉ a) (hb : '<' ∉ b)
    (h : a ++ '<' :: x = b ++ '<' :: y) : a = b ∧ x = y := by
  rcases List.append_eq_append_iff.mp h with ⟨m, rfl, hm⟩ | ⟨m, rfl, hm⟩
  · cases m with
    | nil => exact ⟨by simp, by simpa using hm⟩
    | cons c m =>
      cases (List.cons.inj hm).1
      simp at hb
  · cases m with
    | nil => exact ⟨by simp, by simpa using hm.symm⟩
    | cons c m =>
      cases (List.cons.inj hm).1
      simp at ha

/-- A made type of the name of an instance is that instance: its template and its arguments are
those of the name. -/
theorem names_of_made {w : World} {names args : List Text} (hplain : '<' ∉ template)
    (hbase : '<' ∉ base) (hnames : ∀ s ∈ names, Balanced s) (hargs : ∀ s ∈ args, Balanced s)
    (hne : args ≠ []) (hlen : names.length = args.length)
    (hmake : w.instantiate m template names = some (r, m'))
    (hr : r.toCanonical = instCanonical base args) : template = base ∧ names = args := by
  rcases w.named _ _ _ _ _ hmake with heq | ⟨defaults, hdefaults, heq⟩
  · rw [heq] at hr
    exact absurd (by rw [hr]; simp [instCanonical]) hplain
  · rw [hr] at heq
    obtain ⟨rfl, hinner⟩ := angle_injective hbase hplain heq
    have hlist : args = names ++ defaults := by
      refine join_injective hargs (fun s hs => ?_) hne ?_ (List.append_cancel_right hinner)
      · exact (List.mem_append.mp hs).elim (hnames s) (hdefaults s)
      · intro h0
        rw [(List.append_eq_nil_iff.mp h0).1] at hlen
        exact hne (List.length_eq_zero_iff.mp hlen.symm)
    have hdefaults : defaults = [] := by
      refine List.length_eq_zero_iff.mp ?_
      rw [hlist, List.length_append] at hlen
      omega
    rw [hdefaults, List.append_nil] at hlist
    exact ⟨rfl, hlist.symm⟩

theorem turns_of_pieces {w : World} {args args' : List Ty} (h : ProperList args)
    (ih : ∀ {m t r m'}, t.Proper → resolve w fuel m t.toCanonical = .ok (r, m') →
      r.toCanonical = t.toCanonical → Resolves w m t m')
    (hargs : resolveArgList (resolve w fuel) m (canonicals args) = .ok (args', m'))
    (hsame : canonicals args' = canonicals args) : Turns (Resolves w) m args m' := by
  induction args generalizing m args' with
  | nil =>
    cases hargs
    exact .nil
  | cons t ts iht =>
    obtain ⟨r, m₁, rs, hr, hrs, rfl⟩ := resolveArgList_cons hargs
    obtain ⟨hrt, hrest⟩ := List.cons.inj hsame
    rw [(ends_toCanonical t h.1).strip] at hr
    exact .cons (ih h.1 hr hrt) (iht h.2 hrs hrest)

/-- What is read under its own name meets the condition. -/
theorem resolves_of_ok {w : World} {m : CanonicalMap} {t r : Ty} (h : t.Proper)
    (hr : resolve w fuel m t.toCanonical = .ok (r, m')) (hname : r.toCanonical = t.toCanonical) :
    Resolves w m t m' := by
  induction fuel generalizing m t r m' with
  | zero => cases hr
  | succ fuel ih =>
    have hcases := resolve_cases hr
    rw [(ends_toCanonical t h).trim] at hcases
    rcases hcases with ⟨hit, rfl⟩ | ⟨hmiss, elem', s', hs, helem, rfl⟩ |
      ⟨hmiss, base, inner, template, args', m₁, hs, hangle, hmap, hclass, hargs, hmake⟩
    · exact .hit hit hname
    · cases he : t.element with
      | none =>
        have hlast := element_none t h he
        rw [hs, show ['[', ']'] = ['['] ++ [']'] from rfl, ← List.append_assoc,
          List.getLast?_concat] at hlast
        exact absurd rfl hlast
      | some elem =>
        obtain ⟨hd, htext⟩ := element_some t h he
        obtain rfl := List.append_cancel_right (hs.symm.trans htext)
        exact .array hmiss he (ih hd helem (List.append_cancel_right (hname.trans htext)))
    · cases t with
      | named n k =>
        have hn : n = base ++ '<' :: (inner ++ ['>']) := hs
        exact absurd (by rw [hn]; simp) (IsName.not_mem (c := '<') h rfl)
      | array elem =>
        have hlast := congrArg List.getLast? hs
        rw [Ty.toCanonical, ← List.cons_append, ← List.append_assoc, List.getLast?_concat,
          show ['[', ']'] = ['['] ++ [']'] from rfl, ← List.append_assoc,
          List.getLast?_concat] at hlast
        cases hlast
      | fn params ret owned =>
        rw [not_angle h hs hmap] at hclass
        cases hclass
      | inst b k args =>
        obtain ⟨hb, hne, hdargs⟩ := h
        have hbangle : '<' ∉ b := hb.not_mem (by decide)
        obtain ⟨rfl, hinner⟩ := angle_injective hbangle hangle hs
        obtain rfl := List.append_cancel_right hinner
        obtain ⟨hps, hbargs, hlen⟩ := resolveArgList_balanced resolve_balanced hargs
        have hnonempty : canonicals args ≠ [] := fun h0 => by
          rw [← List.length_eq_zero_iff, canonicals_length, List.length_eq_zero_iff] at h0
          exact hne h0
        have hpieces : splitTopLevel (join (canonicals args)) = canonicals args := by
          refine join_injective hps (balanced_canonicals args hdargs) ?_ hnonempty
            (join_splitFrom 0 [] _)
          obtain ⟨p, ps, heq, -⟩ := splitFrom_head 0 [] (join (canonicals args))
          rw [splitTopLevel, heq]
          exact List.cons_ne_nil _ _
        rw [hpieces] at hargs hlen
        obtain ⟨htemplate, hsame⟩ := names_of_made (m.plain _ _ hmap hangle) hbangle hbargs
          (balanced_canonicals args hdargs) hnonempty (by rw [canonicals_length, hlen]) hmake hname
        rw [htemplate, hsame] at hmake
        exact .inst hmiss ((splitTopLevel_iff args hdargs hne).mp hpieces) hmap htemplate hclass
          (turns_of_pieces hdargs ih hargs hsame) hmake hname

theorem length_lt_inst {args : List Ty} (ha : a ∈ args) (base : Text) (kind : Kind) :
    a.toCanonical.length < (Ty.inst base kind args).toCanonical.length := by
  have hle : a.toCanonical.length ≤ (join (canonicals args)).length := by
    induction args with
    | nil => exact absurd ha List.not_mem_nil
    | cons t ts ih =>
      cases ts with
      | nil =>
        rw [List.mem_singleton] at ha
        subst ha
        exact Nat.le_refl _
      | cons u us =>
        show _ ≤ (t.toCanonical ++ ',' :: join (canonicals (u :: us))).length
        rw [List.length_append, List.length_cons]
        rcases List.mem_cons.mp ha with rfl | ha
        · omega
        · have := ih ha
          omega
  rw [Ty.toCanonical, List.length_append, List.length_cons, List.length_append]
  omega

theorem pieces_of_turns {w : World} {args : List Ty} (h : ProperList args)
    (ih : ∀ {m t m'}, t ∈ args → t.Proper → Resolves w m t m' →
      ∃ r, resolve w fuel m t.toCanonical = .ok (r, m') ∧ r.toCanonical = t.toCanonical)
    (hturns : Turns (Resolves w) m args m') :
    ∃ args', resolveArgList (resolve w fuel) m (canonicals args) = .ok (args', m') ∧
      canonicals args' = canonicals args := by
  induction hturns with
  | nil => exact ⟨[], rfl, rfl⟩
  | @cons m t m₁ ts m' ht _ iht =>
    obtain ⟨r, hr, hc⟩ := ih List.mem_cons_self h.1 ht
    obtain ⟨rs, hrs, hsame⟩ := iht h.2 fun hmem => ih (List.mem_cons_of_mem _ hmem)
    refine ⟨r :: rs, ?_, by rw [canonicals, canonicals, hc, hsame]⟩
    rw [canonicals, resolveArgList, (ends_toCanonical t h.1).strip, hr, Except.ok_bind]
    dsimp only
    rw [hrs, Except.ok_bind]

/-- A type that meets the condition is read, under its own name. -/
theorem ok_of_resolves {w : World} (hlib : w.stdlibModule = true) {m : CanonicalMap} {t : Ty}
    (h : t.Proper) (hres : Resolves w m t m') (hfuel : t.toCanonical.length < fuel) :
    ∃ r, resolve w fuel m t.toCanonical = .ok (r, m') ∧ r.toCanonical = t.toCanonical := by
  induction fuel generalizing m t m' with
  | zero => omega
  | succ fuel ih =>
    cases hres with
    | hit hit hname => exact ⟨_, resolve_hit h hit, hname⟩
    | array hmiss he helem =>
      obtain ⟨hd, hs⟩ := element_some t h he
      obtain ⟨r, hr, hname⟩ := ih hd helem (by
        rw [hs, List.length_append] at hfuel
        simp only [List.length_cons, List.length_nil] at hfuel
        omega)
      exact ⟨.array r, resolve_array h hlib hmiss he hr, by rw [Ty.toCanonical, hname, hs]⟩
    | inst hmiss hsplit hmap htemplate hclass hturns hmake hname =>
      obtain ⟨args', hargs, hsame⟩ := pieces_of_turns h.2.2 (fun hmem hd hres => ih hd hres
        (Nat.lt_of_lt_of_le (length_lt_inst hmem _ _) (Nat.lt_succ_iff.mp hfuel))) hturns
      rw [← (splitTopLevel_iff _ h.2.2 h.2.1).mpr hsplit] at hargs
      refine ⟨_, resolve_inst h hmiss hmap hclass hargs ?_, hname⟩
      rw [htemplate, hsame, hmake]

/-- What may be registered under a key: balanced names, and a plain one under a plain key. -/
def Registrable (key : Text) (t : Ty) : Prop :=
  Balanced key ∧ Balanced t.toCanonical ∧ key.head? ≠ some '(' ∧
    ('<' ∉ key → '<' ∉ t.toCanonical)

instance (s : Text) : Decidable (Balanced s) := inferInstanceAs (Decidable (_ = _))

instance (key : Text) (t : Ty) : Decidable (Registrable key t) :=
  inferInstanceAs (Decidable (_ ∧ _ ∧ _ ∧ _))

def CanonicalMap.register (m : CanonicalMap) (key : Text) (t : Ty) (h : Registrable key t) :
    CanonicalMap where
  find s := if s = key then some t else m.find s
  balanced s u hu := by
    split at hu
    · next hs =>
      cases hu
      exact ⟨hs ▸ h.1, h.2.1⟩
    · exact m.balanced s u hu
  paren s u hu hhead := by
    split at hu
    · next hs => exact absurd (hs ▸ hhead) h.2.2.1
    · exact m.paren s u hu hhead
  plain s u hu hs := by
    split at hu
    · next hkey =>
      cases hu
      exact h.2.2.2 (hkey ▸ hs)
    · exact m.plain s u hu hs

def int32 : Ty := .named ['i', 'n', 't', '3', '2'] .primitive

/-- Nothing but `int32` is known. -/
def onlyInt32 : CanonicalMap :=
  CanonicalMap.register ⟨fun _ => none, nofun, nofun, nofun⟩ int32.toCanonical int32 (by decide)

/-- A template called `Box`, of the package `app` or of none. -/
def box (package : Text) : Ty := .named (package ++ ['B', 'o', 'x']) .klass

/-- Every template makes every instance, and registers it. -/
def makesAll : World where
  stdlibModule := true
  instantiate m template args :=
    let r := Ty.named (instCanonical template args) .klass
    if h : Registrable (instCanonical template args) r then some (r, m.register _ r h) else none
  named m template args r m' h := by
    dsimp only at h
    split at h
    · cases h
      exact .inr ⟨[], fun _ hs => absurd hs List.not_mem_nil, by rw [List.append_nil]; rfl⟩
    · cases h

/-- `Box` is known as the class of no package. -/
def withBox : CanonicalMap :=
  onlyInt32.register ['B', 'o', 'x'] (box []) (by decide)

def arrayBox : Ty := .inst ['B', 'o', 'x'] .klass [.array int32]

/-- `Box<Box<int32[]>,int32>`: the outer instance is made where the inner one is registered. -/
def boxes : Ty := .inst ['B', 'o', 'x'] .klass [arrayBox, int32]

def withArrayBox : CanonicalMap :=
  withBox.register arrayBox.toCanonical (.named arrayBox.toCanonical .klass) (by decide)

theorem isName_int32 : IsName int32.toCanonical :=
  ⟨List.cons_ne_nil _ _, by simp [int32, Ty.toCanonical, isNameChar]⟩

theorem isName_box : IsName ['B', 'o', 'x'] := ⟨List.cons_ne_nil _ _, by simp [isNameChar]⟩

theorem boxes_proper : boxes.Proper :=
  ⟨isName_box, List.cons_ne_nil _ _,
    ⟨isName_box, List.cons_ne_nil _ _, isName_int32, trivial⟩, isName_int32, trivial⟩

/-- The class `Box` of no package is read as `app.Box`, which was registered under the short
name after it. -/
example : ∃ r m', (box []).toCanonical = ['B', 'o', 'x'] ∧
    resolveCanonicalType makesAll
      (withBox.register ['B', 'o', 'x'] (box ['a', 'p', 'p', '.']) (by decide))
      (box []).toCanonical = .ok (r, m') ∧ r.toCanonical ≠ (box []).toCanonical :=
  ⟨_, _, rfl, rfl, by decide⟩

end Cajeta.Compile.Obligation
