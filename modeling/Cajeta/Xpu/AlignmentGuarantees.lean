import Cajeta.Lib.Result
import Cajeta.Xpu.AlignmentProof
import Mathlib.Algebra.BigOperators.Group.Finset.Basic
import Mathlib.Algebra.Order.BigOperators.Group.Finset
import Mathlib.Data.Fintype.BigOperators
import Mathlib.Tactic.FinCases

/-!
# Proven alignment is sound

In every execution of an expression graph, loops included, each value has the low zeros that the
proof reports for it. The proof ends on every graph.
-/

namespace Cajeta.Xpu.Alignment
open LowZeros While

/-- A word of some width. -/
abbrev Word := (w : Nat) × BitVec w

/-- The value that each expression has at present, if it has been computed. -/
abbrev Env (n : Nat) := Fin n → Option Word

def Opcode.eval : Opcode → BitVec w → BitVec w → BitVec w
  | .add, a, b => a + b
  | .sub, a, b => a - b
  | .or, a, b => a ||| b
  | .xor, a, b => a ^^^ b
  | .and, a, b => a &&& b
  | .mul, a, b => a * b
  | .shl, a, b => a <<< b.toNat
  | .udiv, a, b => a.udiv b
  | .sdiv, a, b => a.sdiv b
  | .urem, a, b => a.umod b
  | .srem, a, b => a.srem b
  | .lshr, a, b => a >>> b.toNat
  | .ashr, a, b => a.sshiftRight b.toNat

def MinMax.eval : MinMax → BitVec w → BitVec w → BitVec w
  | .umin, a, b => if a.ule b then a else b
  | .umax, a, b => if a.ule b then b else a
  | .smin, a, b => if a.sle b then a else b
  | .smax, a, b => if a.sle b then b else a

/-- What an index adds to an address of `w` bits. -/
def Index.offset (w : Nat) : Index n → Word → BitVec w
  | .field _ offset, _ => .ofNat w offset
  | .element _ stride, ⟨_, x⟩ => x.signExtend w * stride.setWidth w

/-- The values an expression may come to where its operands have the values of `env`. The arguments
and what is computed elsewhere may come to anything. -/
inductive Eval (env : Env n) : Value n → Word → Prop where
  | constantInt : Eval env (.constantInt w bits) ⟨w, bits⟩
  | argument : Eval env .argument x
  | other : Eval env .other x
  | binary : env l = some ⟨w, a⟩ → env r = some ⟨w, b⟩ → Eval env (.binary op l r) ⟨w, op.eval a b⟩
  | zext : env v = some ⟨w, a⟩ → Eval env (.cast .zext w' v) ⟨w', a.setWidth w'⟩
  | sext : env v = some ⟨w, a⟩ → Eval env (.cast .sext w' v) ⟨w', a.signExtend w'⟩
  | trunc : env v = some ⟨w, a⟩ → Eval env (.cast .trunc w' v) ⟨w', a.setWidth w'⟩
  | castOther : Eval env (.cast .other w v) x
  | selectTrue : env t = some x → Eval env (.select c t f) x
  | selectFalse : env f = some x → Eval env (.select c t f) x
  | phi : v ∈ incoming → env v = some x → Eval env (.phi incoming) x
  | gep : env pointer = some ⟨w, a⟩ →
      List.Forall₂ (fun i x => env (Index.operand i) = some x) indices xs →
      Eval env (.gep pointer indices)
        ⟨w, (List.zipWith (Index.offset w) indices xs).foldl (· + ·) a⟩
  | minMax : env l = some ⟨w, a⟩ → env r = some ⟨w, b⟩ → Eval env (.minMax op l r) ⟨w, op.eval a b⟩

/-- Some expressions are computed, all from the values of before; the others stay. -/
def Step (graph : Graph n) (env env' : Env n) : Prop :=
  ∀ v, env' v = env v ∨ ∃ x, env' v = some x ∧ Eval env (graph.value v) x

structure Execution (graph : Graph n) where
  env : Nat → Env n
  start : ∀ v, env 0 v = none
  step : ∀ i, Step graph (env i) (env (i + 1))

/-- What `computeKnownBits` answers is so in the execution, for the values without a rule. -/
def Execution.Known {graph : Graph n} (e : Execution graph) : Prop :=
  ∀ i v w (x : BitVec w), (graph.value v).interior = false → graph.isIntOrPtrTy v = true →
    e.env i v = some ⟨w, x⟩ → Zeros (graph.minTrailingZeros v) x

def Execution.BaseAligned {graph : Graph n} (e : Execution graph) (base : Option (Fin n))
    (baseAlign : BitVec 64) : Prop :=
  ∀ i v w (x : BitVec w), base = some v → e.env i v = some ⟨w, x⟩ → baseAlign ≠ 0 →
    baseAlign.toNat ∣ x.toNat

namespace TrailingZeroProof

/-! ## Termination -/

/-- The pushes that are still to come. -/
def pending (p : TrailingZeroProof n) (val : Val n) : Nat :=
  ∑ v : Fin n, if (val v).isSome then 0 else (p.graph.value v).pushed.length

theorem pending_update (p : TrailingZeroProof n) {val : Val n} {v : Fin n} (h : val v = none)
    (k : Nat) : p.pending (Function.update val v (some k)) + (p.graph.value v).pushed.length =
      p.pending val := by
  rw [pending, pending, ← Finset.add_sum_erase _ _ (Finset.mem_univ v),
    ← Finset.add_sum_erase _ _ (Finset.mem_univ v)]
  rw [Function.update_self, h]
  have hsame : ∀ u ∈ Finset.univ.erase v, (if (Function.update val v (some k) u).isSome then 0
      else (p.graph.value u).pushed.length) =
      if (val u).isSome then 0 else (p.graph.value u).pushed.length := by
    intro u hu
    rw [Function.update_of_ne (Finset.ne_of_mem_erase hu)]
  rw [Finset.sum_congr rfl hsame]
  simp only [Option.isSome_some, if_true, Option.isSome_none, Bool.false_eq_true, if_false]
  omega

structure Filled (p : TrailingZeroProof n) (c : Collected n) : Prop where
  order : ∀ v ∈ c.order, (p.graph.value v).interior = true
  val : ∀ v k, c.val v = some k →
    v ∈ c.order ∨ ((p.graph.value v).interior = false ∧ k ≤ p.leaf v)
  le : ∀ v k, c.val v = some k → k ≤ kAll

theorem leaf_le (p : TrailingZeroProof n) (v : Fin n) : p.leaf v ≤ kAll := by
  rw [leaf]
  split
  · exact Nat.min_le_left _ _
  · exact Nat.zero_le _

theorem le_update {val : Val n} (h : ∀ v k, val v = some k → k ≤ kAll) (hk : k ≤ kAll) (v : Fin n) :
    ∀ u l, Function.update val v (some k) u = some l → l ≤ kAll := by
  intro u l hu
  rcases eq_or_ne u v with rfl | hne
  · rw [Function.update_self] at hu
    cases hu
    exact hk
  · rw [Function.update_of_ne hne] at hu
    exact h u l hu

theorem Filled.meet_interior {p : TrailingZeroProof n} {c : Collected n} (h : p.Filled c)
    (hin : (p.graph.value v).interior = true) :
    p.Filled ⟨Function.update c.val v (some kAll), c.order ++ [v]⟩ where
  order := by
    intro u hu
    rcases List.mem_append.mp hu with hu | hu
    · exact h.order u hu
    · rw [List.mem_singleton.mp hu]
      exact hin
  val := by
    intro u k hu
    rcases eq_or_ne u v with rfl | hne
    · exact .inl (List.mem_append_right _ (List.mem_singleton_self _))
    · dsimp only at hu
      rw [Function.update_of_ne hne] at hu
      exact (h.val u k hu).imp_left (List.mem_append_left _)
  le := le_update h.le (Nat.le_refl _) v

theorem Filled.meet_leaf {p : TrailingZeroProof n} {c : Collected n} (h : p.Filled c)
    (hout : (p.graph.value v).interior = false) :
    p.Filled { c with val := Function.update c.val v (some (p.leaf v)) } where
  order := h.order
  val := by
    intro u k hu
    rcases eq_or_ne u v with rfl | hne
    · dsimp only at hu
      rw [Function.update_self] at hu
      cases hu
      exact .inr ⟨hout, Nat.le_refl _⟩
    · dsimp only at hu
      rw [Function.update_of_ne hne] at hu
      exact h.val u k hu
  le := le_update h.le (p.leaf_le v) v

theorem collect_ok (p : TrailingZeroProof n) (fuel : Nat) (root : Fin n)
    (hfuel : p.pending (fun _ => none) + 1 < fuel) :
    ∃ c, p.collect fuel root = .ok c ∧ p.Filled c := by
  refine loop_ok (I := fun s => p.Filled s.2) (fun s => p.pending s.2.val + s.1.length)
    (fun s hs => ?_) ?_ hfuel
  · obtain ⟨work, c⟩ := s
    cases work with
    | nil => exact .inr ⟨c, rfl, hs⟩
    | cons v work =>
      refine .inl ?_
      dsimp only [collectStep]
      split
      · refine ⟨_, rfl, hs, ?_⟩
        simp only [List.length_cons]
        omega
      · next hskip =>
        have hnone : c.val v = none := by
          rw [← Option.not_isSome_iff_eq_none]
          exact fun h => hskip (.inr (.inr h))
        split
        · next hin =>
          refine ⟨_, rfl, hs.meet_interior hin, ?_⟩
          have := p.pending_update hnone kAll
          simp only [List.length_append, List.length_reverse, List.length_cons]
          omega
        · next hout =>
          refine ⟨_, rfl, hs.meet_leaf (Bool.eq_false_iff.mpr hout), ?_⟩
          have := p.pending_update hnone (p.leaf v)
          simp only [List.length_cons]
          omega
  · constructor
    · exact fun _ h => absurd h List.not_mem_nil
    · intro v k h
      cases h
    · intro v k h
      cases h

/-- The zeros that can still be taken back. -/
def total (val : Val n) : Nat := ∑ v, (val v).getD 0

theorem total_le {val : Val n} (h : ∀ v k, val v = some k → k ≤ kAll) : total val ≤ n * kAll := by
  have hall : ∀ v ∈ Finset.univ, (val v).getD 0 ≤ kAll := by
    intro v _
    cases hv : val v with
    | none => exact Nat.zero_le _
    | some k => exact h v k hv
  have hsum := Finset.sum_le_card_nsmul Finset.univ (fun v => (val v).getD 0) kAll hall
  rw [Finset.card_univ, Fintype.card_fin] at hsum
  exact hsum

theorem total_update {val : Val n} {v : Fin n} (h : k < (val v).getD 0) :
    total (Function.update val v (some k)) < total val := by
  refine Finset.sum_lt_sum (fun u _ => ?_) ⟨v, Finset.mem_univ v, ?_⟩
  · rcases eq_or_ne u v with rfl | hne
    · rw [Function.update_self]
      exact Nat.le_of_lt h
    · rw [Function.update_of_ne hne]
  · rw [Function.update_self]
    exact h

theorem lower_cases (p : TrailingZeroProof n) (acc : Val n × Bool) (v : Fin n) :
    (p.lower acc v = acc ∧ (acc.1 v).getD 0 ≤ p.transfer acc.1 v) ∨
    (p.transfer acc.1 v < (acc.1 v).getD 0 ∧
      p.lower acc v = (Function.update acc.1 v (some (p.transfer acc.1 v)), true)) := by
  rw [lower]
  split
  · next h => exact .inr ⟨h, rfl⟩
  · next h => exact .inl ⟨rfl, Nat.le_of_not_lt h⟩

theorem fold_lower (p : TrailingZeroProof n) (order : List (Fin n)) (acc : Val n × Bool) :
    (order.foldl p.lower acc = acc ∧ ∀ v ∈ order, (acc.1 v).getD 0 ≤ p.transfer acc.1 v) ∨
    ((order.foldl p.lower acc).2 = true ∧ total (order.foldl p.lower acc).1 < total acc.1) := by
  induction order generalizing acc with
  | nil => exact .inl ⟨rfl, fun _ h => absurd h List.not_mem_nil⟩
  | cons v order ih =>
    rw [List.foldl_cons]
    rcases p.lower_cases acc v with ⟨hsame, hle⟩ | ⟨hlt, hlower⟩
    · rw [hsame]
      rcases ih acc with ⟨hfold, hall⟩ | hdown
      · exact .inl ⟨hfold, List.forall_mem_cons.mpr ⟨hle, hall⟩⟩
      · exact .inr hdown
    · have hfirst : total (p.lower acc v).1 < total acc.1 := by
        rw [hlower]
        exact total_update hlt
      rcases ih (p.lower acc v) with ⟨hfold, -⟩ | ⟨hchanged, hdown⟩
      · rw [hfold]
        exact .inr ⟨by rw [hlower], hfirst⟩
      · exact .inr ⟨hchanged, hdown.trans hfirst⟩

theorem filled_fold {p : TrailingZeroProof n} {todo : List (Fin n)} (acc : Val n × Bool)
    (h : p.Filled ⟨acc.1, order⟩) (hsub : ∀ v ∈ todo, v ∈ order) :
    p.Filled ⟨(todo.foldl p.lower acc).1, order⟩ := by
  induction todo generalizing acc with
  | nil => exact h
  | cons v todo ih =>
    obtain ⟨hv, hsub⟩ := List.forall_mem_cons.mp hsub
    refine ih _ ?_ hsub
    rcases p.lower_cases acc v with ⟨hsame, -⟩ | ⟨hlt, hlower⟩
    · rw [hsame]
      exact h
    · rw [hlower]
      have hle : p.transfer acc.1 v ≤ kAll := by
        cases hold : acc.1 v with
        | none =>
          rw [hold] at hlt
          exact absurd hlt (Nat.not_lt_zero _)
        | some k =>
          rw [hold] at hlt
          exact hlt.le.trans (h.le v k hold)
      refine ⟨h.order, fun u k hu => ?_, le_update h.le hle v⟩
      rcases eq_or_ne u v with rfl | hne
      · exact .inl hv
      · dsimp only at hu
        rw [Function.update_of_ne hne] at hu
        exact h.val u k hu

/-- What the fixpoint is: no interior value has more zeros than its rule gives it. -/
structure Solved (p : TrailingZeroProof n) (val : Val n) : Prop where
  interior : ∀ v k, val v = some k → (p.graph.value v).interior = true → k ≤ p.transfer val v
  leaf : ∀ v k, val v = some k → (p.graph.value v).interior = false → k ≤ p.leaf v

theorem solve_ok (p : TrailingZeroProof n) (fuel : Nat) {c : Collected n} (h : p.Filled c)
    (hfuel : total c.val < fuel) :
    ∃ val, loop () (p.pass c.order) fuel c.val = .ok val ∧ p.Solved val := by
  refine loop_ok (I := fun val => p.Filled ⟨val, c.order⟩) total (fun val hval => ?_) h hfuel
  have hfilled := filled_fold (val, false) hval fun v hv => hv
  rw [pass]
  rcases p.fold_lower c.order (val, false) with ⟨hfold, hall⟩ | ⟨hchanged, hdown⟩
  · rw [hfold]
    refine .inr ⟨val, rfl, fun v k hv hin => ?_, fun v k hv hout => ?_⟩
    · rcases hval.val v k hv with hmem | ⟨hleaf, -⟩
      · have := hall v hmem
        dsimp only at this
        rwa [hv] at this
      · rw [hin] at hleaf
        cases hleaf
    · rcases hval.val v k hv with hmem | ⟨-, hle⟩
      · have hin := hval.order v hmem
        rw [hout] at hin
        cases hin
      · exact hle
  · refine .inl ⟨(c.order.foldl p.lower (val, false)).1, ?_, hfilled, hdown⟩
    dsimp only
    rw [if_pos hchanged]

/-! ## Soundness -/

/-- The values of an environment have the zeros that are reported, and constants their value. -/
structure Sound (p : TrailingZeroProof n) (val : Val n) (env : Env n) : Prop where
  zeros : ∀ v w (x : BitVec w), env v = some ⟨w, x⟩ → Zeros (p.get val v) x
  constantInt : ∀ v w (bits : BitVec w) x, p.graph.value v = .constantInt w bits →
    env v = some x → x = ⟨w, bits⟩

theorem zeros_constantInt (bits : BitVec w) :
    Zeros (if bits = 0 then kAll else min kAll (countrZero w bits.toNat)) bits := by
  split
  · next h =>
    rw [h]
    exact dvd_zero _
  · exact (pow_dvd_pow 2 (Nat.min_le_right _ _)).trans (pow_countrZero_dvd _ _)

theorem zeros_stride (stride : BitVec 64) : Zeros (scaleTz stride) stride := by
  rw [scaleTz]
  split
  · next h =>
    rw [h]
    exact dvd_zero _
  · exact pow_countrZero_dvd _ _

theorem get_constantInt {p : TrailingZeroProof n} {val : Val n}
    (h : p.graph.value v = .constantInt w bits) :
    p.get val v = if bits = 0 then kAll else min kAll (countrZero w bits.toNat) := by
  rw [get, h]

theorem get_of_not_constantInt {p : TrailingZeroProof n} {val : Val n}
    (h : (p.graph.value v).isConstantInt = false) :
    p.get val v = if some v = p.base then p.baseBits else (val v).getD 0 := by
  rw [get]
  split
  · next hv =>
    rw [hv] at h
    cases h
  · rfl

theorem foldl_min_le (f : α → Nat) (xs : List α) (m : Nat) :
    xs.foldl (fun tz x => min tz (f x)) m ≤ m ∧
      ∀ x ∈ xs, xs.foldl (fun tz x => min tz (f x)) m ≤ f x := by
  induction xs generalizing m with
  | nil => exact ⟨Nat.le_refl _, fun _ h => absurd h List.not_mem_nil⟩
  | cons x xs ih =>
    obtain ⟨hle, hall⟩ := ih (min m (f x))
    exact ⟨hle.trans (Nat.min_le_left _ _), List.forall_mem_cons.mpr
      ⟨hle.trans (Nat.min_le_right _ _), hall⟩⟩

theorem zeros_gep {p : TrailingZeroProof n} {val : Val n} {env : Env n} {w : Nat}
    {indices : List (Index n)} {xs : List Word} (hs : p.Sound val env)
    (hstruct : ∀ i ∈ indices, i.isStruct = false)
    (hxs : List.Forall₂ (fun i x => env (Index.operand i) = some x) indices xs) {a : BitVec w}
    (ha : Zeros k a) :
    Zeros (indices.foldl (fun tz i => match i with
        | .field .. => tz
        | .element v stride => min tz (min kAll (p.get val v + scaleTz stride))) k)
      ((List.zipWith (Index.offset w) indices xs).foldl (· + ·) a) := by
  induction hxs generalizing a k with
  | nil => exact ha
  | @cons i x indices xs hx _ ih =>
    obtain ⟨hi, hrest⟩ := List.forall_mem_cons.mp hstruct
    rw [List.zipWith_cons_cons, List.foldl_cons, List.foldl_cons]
    cases i with
    | field v offset => cases hi
    | element v stride =>
      obtain ⟨w', x⟩ := x
      refine ih hrest ((ha.mono (Nat.min_le_left _ _)).add ?_)
      have hmul := ((hs.zeros v w' x hx).signExtend w).mul ((zeros_stride stride).setWidth w)
      exact hmul.mono ((Nat.min_le_right _ _).trans (Nat.min_le_right _ _))

/-- Each rule of the algebra: the value has the zeros that the rule gives it. -/
theorem zeros_transfer {p : TrailingZeroProof n} {val : Val n} {env : Env n}
    (hs : p.Sound val env) {x : BitVec w} (heval : Eval env (p.graph.value v) ⟨w, x⟩)
    (hin : (p.graph.value v).interior = true) : Zeros (p.transfer val v) x := by
  rw [transfer]
  generalize p.graph.value v = e at heval hin
  cases heval with
  | constantInt => cases hin
  | argument => cases hin
  | other => cases hin
  | castOther => cases hin
  | @binary l _ a r b op hl hr =>
    have ha := hs.zeros l w a hl
    have hb := hs.zeros r w b hr
    have hmin := ha.mono (Nat.min_le_left _ (p.get val r))
    have hmin' := hb.mono (Nat.min_le_right (p.get val l) _)
    cases op with
    | add => exact hmin.add hmin'
    | sub => exact hmin.sub hmin'
    | or => exact hmin.or hmin'
    | xor => exact hmin.xor hmin'
    | and =>
      dsimp only
      rcases Nat.le_total (p.get val l) (p.get val r) with hle | hle
      · rw [Nat.max_eq_right hle]
        exact hb.and_right
      · rw [Nat.max_eq_left hle]
        exact ha.and_left
    | mul => exact (ha.mul hb).mono (Nat.min_le_right _ _)
    | shl =>
      dsimp only
      have hshift := ha.shiftLeft b.toNat
      split
      · next hr' =>
        cases hs.constantInt r _ _ _ hr' hr
        exact hshift.mono ((Nat.min_le_right _ _).trans
          (Nat.add_le_add_left (Nat.min_le_left _ _) _))
      · exact hshift.mono (Nat.le_add_right _ _)
    | udiv => cases hin
    | sdiv => cases hin
    | urem => cases hin
    | srem => cases hin
    | lshr => cases hin
    | ashr => cases hin
  | zext h => exact (hs.zeros _ _ _ h).setWidth _
  | sext h => exact (hs.zeros _ _ _ h).signExtend _
  | trunc h => exact (hs.zeros _ _ _ h).setWidth _
  | selectTrue h => exact (hs.zeros _ _ _ h).mono (Nat.min_le_left _ _)
  | selectFalse h => exact (hs.zeros _ _ _ h).mono (Nat.min_le_right _ _)
  | phi hmem h => exact (hs.zeros _ _ _ h).mono ((foldl_min_le (p.get val) _ kAll).2 _ hmem)
  | gep hp hxs =>
    refine zeros_gep hs (fun i hi => ?_) hxs (hs.zeros _ _ _ hp)
    have := List.all_eq_true.mp hin i hi
    simpa using this
  | @minMax l _ a r b op hl hr =>
    have ha := (hs.zeros l w a hl).mono (Nat.min_le_left _ (p.get val r))
    have hb := (hs.zeros r w b hr).mono (Nat.min_le_right (p.get val l) _)
    have hone : op.eval a b = a ∨ op.eval a b = b := by
      cases op <;> rw [MinMax.eval] <;> split <;> simp
    rcases hone with h | h
    · rw [h]
      exact ha
    · rw [h]
      exact hb

end TrailingZeroProof

theorem Value.exists_of_isConstantInt {v : Value n} (h : v.isConstantInt = true) :
    ∃ w bits, v = .constantInt w bits := by
  cases v with
  | constantInt w bits => exact ⟨w, bits, rfl⟩
  | argument | other => cases h
  | binary | cast | select | phi | gep | minMax => cases h

section
variable {graph : Graph n} {base : Option (Fin n)} {baseAlign : BitVec 64}

theorem zeros_base (h : baseAlign ≠ 0 → baseAlign.toNat ∣ x.toNat) :
    Zeros (baseBits baseAlign) x := by
  rw [baseBits]
  split
  · next hne => exact (pow_countrZero_dvd _ _).trans (h hne)
  · exact zeros_zero x

theorem zeros_step {val : Val n}
    (hval : TrailingZeroProof.Solved ⟨graph, base, baseBits baseAlign⟩ val) (e : Execution graph)
    (hknown : e.Known) (hbase : e.BaseAligned base baseAlign)
    (hs : TrailingZeroProof.Sound ⟨graph, base, baseBits baseAlign⟩ val (e.env i))
    (h : e.env (i + 1) v = some ⟨w, x⟩) (heval : Eval (e.env i) (graph.value v) ⟨w, x⟩) :
    Zeros (TrailingZeroProof.get ⟨graph, base, baseBits baseAlign⟩ val v) x := by
  cases hconst : (graph.value v).isConstantInt with
  | true =>
    obtain ⟨w', bits, hv⟩ := Value.exists_of_isConstantInt hconst
    rw [TrailingZeroProof.get_constantInt hv]
    rw [hv] at heval
    cases heval
    exact TrailingZeroProof.zeros_constantInt x
  | false =>
    rw [TrailingZeroProof.get_of_not_constantInt hconst]
    split
    · next hb => exact zeros_base (hbase (i + 1) v w x hb.symm h)
    · cases hv : val v with
      | none => exact zeros_zero x
      | some k =>
        cases hin : (graph.value v).interior with
        | true =>
          exact (TrailingZeroProof.zeros_transfer hs heval hin).mono (hval.interior v k hv hin)
        | false =>
          refine Zeros.mono ?_ (hval.leaf v k hv hin)
          rw [TrailingZeroProof.leaf]
          split
          · next hty => exact (hknown (i + 1) v w x hin hty h).mono (Nat.min_le_right _ _)
          · exact zeros_zero x

theorem sound_run {val : Val n}
    (hval : TrailingZeroProof.Solved ⟨graph, base, baseBits baseAlign⟩ val) (e : Execution graph)
    (hknown : e.Known) (hbase : e.BaseAligned base baseAlign) (i : Nat) :
    TrailingZeroProof.Sound ⟨graph, base, baseBits baseAlign⟩ val (e.env i) := by
  induction i with
  | zero =>
    constructor
    · intro v w x h
      cases (e.start v).symm.trans h
    · intro v w bits x _ h
      cases (e.start v).symm.trans h
  | succ i ih =>
    constructor
    · intro v w x h
      rcases e.step i v with hsame | ⟨y, hy, heval⟩
      · exact ih.zeros v w x (hsame.symm.trans h)
      · cases hy.symm.trans h
        exact zeros_step hval e hknown hbase ih h heval
    · intro v w bits x hv h
      rcases e.step i v with hsame | ⟨y, hy, heval⟩
      · exact ih.constantInt v w bits x hv (hsame.symm.trans h)
      · cases hy.symm.trans h
        rw [hv] at heval
        cases heval
        rfl

/-- With enough fuel the proof ends, for each value of the graph. In every execution where the base
is aligned the value has the zeros that are reported, and the alignment. -/
theorem proven_sound (graph : Graph n) (base : Option (Fin n)) (baseAlign : BitVec 64) :
    ∃ enough, ∀ fuel, enough < fuel → ∀ v, ∃ tz,
      TrailingZeroProof.of ⟨graph, base, baseBits baseAlign⟩ fuel v = .ok tz ∧
      ∃ align, provenAlignment graph fuel v base baseAlign = .ok align ∧
        ∀ e : Execution graph, e.Known → e.BaseAligned base baseAlign →
          ∀ i w (x : BitVec w), e.env i v = some ⟨w, x⟩ → 2 ^ tz ∣ x.toNat ∧ align ∣ x.toNat := by
  let p : TrailingZeroProof n := ⟨graph, base, baseBits baseAlign⟩
  refine ⟨p.pending (fun _ => none) + 1 + n * kAll, fun fuel hfuel v => ?_⟩
  obtain ⟨c, hcollect, hfilled⟩ := p.collect_ok fuel v (by omega)
  obtain ⟨val, hsolve, hsolved⟩ := p.solve_ok fuel hfilled
    ((TrailingZeroProof.total_le hfilled.le).trans_lt (by omega))
  have hof : p.of fuel v = .ok (p.get val v) := by
    rw [TrailingZeroProof.of, hcollect, Except.ok_bind, hsolve, Except.ok_bind]
  refine ⟨_, hof, _, by rw [provenAlignment, hof, Except.ok_bind], ?_⟩
  intro e hknown hbase i w x hx
  have hzeros := (sound_run hsolved e hknown hbase i).zeros v w x hx
  exact ⟨hzeros, hzeros.mono (Nat.min_le_left _ _)⟩

end

/-- A loop over a buffer, 16 bytes a round: the base, 0, the counter, 16, the next counter and the
address. -/
def loopGraph : Graph 6 where
  value
    | 0 => .argument
    | 1 => .constantInt 64 0
    | 2 => .phi [1, 4]
    | 3 => .constantInt 64 16
    | 4 => .binary .add 2 3
    | 5 => .gep 0 [.element 2 1]
  isIntOrPtrTy _ := true
  minTrailingZeros _ := 0

example : provenAlignment loopGraph 40 5 (some 0) 4096 = .ok 16 := by decide

/-- Two rounds of the loop, with the buffer at 4096. -/
def loopEnv (i : Nat) : Env 6
  | 0 => if i < 1 then none else some ⟨64, 4096⟩
  | 1 => if i < 1 then none else some ⟨64, 0⟩
  | 2 => if i < 2 then none else if i < 4 then some ⟨64, 0⟩ else some ⟨64, 16⟩
  | 3 => if i < 1 then none else some ⟨64, 16⟩
  | 4 => if i < 3 then none else some ⟨64, 16⟩
  | 5 => if i < 3 then none else if i < 5 then some ⟨64, 4096⟩ else some ⟨64, 4112⟩

theorem Eval.gep_element {env : Env n} {x : BitVec w'} (ha : env pointer = some ⟨w, a⟩)
    (hx : env v = some ⟨w', x⟩) : Eval env (.gep pointer [.element v stride])
      ⟨w, a + x.signExtend w * stride.setWidth w⟩ := by
  have hall : List.Forall₂ (fun i x => env (Index.operand i) = some x) [.element v stride]
    [⟨w', x⟩] := .cons hx .nil
  exact .gep ha hall

def loopRun : Execution loopGraph where
  env := loopEnv
  start v := by fin_cases v <;> rfl
  step i v := by
    match i, v with
    | 0, 0 => exact .inr ⟨_, rfl, .argument⟩
    | 0, 1 | 0, 3 => exact .inr ⟨_, rfl, .constantInt⟩
    | 1, 2 => exact .inr ⟨_, rfl, .phi List.mem_cons_self rfl⟩
    | 2, 4 => exact .inr ⟨_, rfl, .binary (a := 0) (b := 16) rfl rfl⟩
    | 2, 5 => exact .inr ⟨_, rfl, Eval.gep_element (v := 2) (a := 4096#64) (x := 0#64) rfl rfl⟩
    | 3, 2 => exact .inr ⟨_, rfl, .phi (List.mem_cons_of_mem _ List.mem_cons_self) rfl⟩
    | 4, 5 => exact .inr ⟨_, rfl, Eval.gep_element (v := 2) (a := 4096#64) (x := 16#64) rfl rfl⟩
    | 0, 2 | 0, 4 | 0, 5 => exact .inl rfl
    | 1, 0 | 1, 1 | 1, 3 | 1, 4 | 1, 5 => exact .inl rfl
    | 2, 0 | 2, 1 | 2, 2 | 2, 3 => exact .inl rfl
    | 3, 0 | 3, 1 | 3, 3 | 3, 4 | 3, 5 => exact .inl rfl
    | 4, 0 | 4, 1 | 4, 2 | 4, 3 | 4, 4 => exact .inl rfl
    | i + 5, 0 | i + 5, 1 | i + 5, 2 | i + 5, 3 | i + 5, 4 | i + 5, 5 => exact .inl rfl

theorem loopRun_known : loopRun.Known := fun _ _ _ _ _ _ _ => zeros_zero _

theorem loopRun_aligned : loopRun.BaseAligned (some 0) 4096 := by
  intro i v w x hv hx _
  cases hv
  rcases i with _ | i
  · cases hx
  · cases hx
    exact dvd_refl _

theorem proven_sound_loop : ∃ enough, ∀ fuel, enough < fuel → ∃ align,
    provenAlignment loopGraph fuel 5 (some 0) 4096 = .ok align ∧
      ∀ i w (x : BitVec w), loopRun.env i 5 = some ⟨w, x⟩ → align ∣ x.toNat := by
  obtain ⟨enough, h⟩ := proven_sound loopGraph (some 0) 4096
  refine ⟨enough, fun fuel hfuel => ?_⟩
  obtain ⟨_, _, align, halign, hrun⟩ := h fuel hfuel 5
  exact ⟨align, halign, fun i w x hx => (hrun loopRun loopRun_known loopRun_aligned i w x hx).2⟩

end Cajeta.Xpu.Alignment
