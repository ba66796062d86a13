import Cajeta.Transform.GradInlining
import Cajeta.Lib.EndlessRuns
import Mathlib.Data.Finite.Prod
import Mathlib.Data.Fintype.Option
import Mathlib.Data.Fintype.Pi
import Mathlib.Data.Set.Finite.Lattice
import Mathlib.Data.Set.Finite.Range

/-!
# The builder ends with its helpers

The ranks of the nodes that the builder adds are those of the reading of the body, which needs no
graph. So what the builder enters is what the reading enters. There are finitely many expressions
and ranks of names to enter, and the builder comes back exactly when it is never at one of them
inside itself.
-/

namespace Cajeta.Transform

/-! ## Scopes -/

namespace Scope

def All (P : β → Prop) (s : Scope β) : Prop := ∀ n v, s n = some v → P v

def map (f : β → γ) (s : Scope β) : Scope γ := fun n => (s n).map f

theorem All.bind {P : β → Prop} {s : Scope β} (h : s.All P) (hv : P v) : (s.bind n v).All P := by
  intro m w hw
  by_cases hm : m = n
  · subst hm
    rw [Scope.bind, Function.update_self] at hw
    exact Option.some.inj hw ▸ hv
  · rw [Scope.bind, Function.update_of_ne hm] at hw
    exact h m w hw

theorem All.erase {P : β → Prop} {s : Scope β} (h : s.All P) : (s.erase n).All P := by
  intro m w hw
  by_cases hm : m = n
  · subst hm
    rw [Scope.erase, Function.update_self] at hw
    cases hw
  · rw [Scope.erase, Function.update_of_ne hm] at hw
    exact h m w hw

theorem map_bind (f : β → γ) (s : Scope β) (n : String) (v : β) :
    (s.bind n v).map f = (s.map f).bind n (f v) := by
  funext m
  by_cases hm : m = n <;> simp [Scope.bind, map, hm]

theorem map_erase (f : β → γ) (s : Scope β) (n : String) :
    (s.erase n).map f = (s.map f).erase n := by
  funext m
  by_cases hm : m = n <;> simp [Scope.erase, map, hm]

end Scope

namespace Entered

/-- What is open or put aside in a helper. -/
structure All (P : β → Prop) (e : Entered β) : Prop where
  scope : e.scope.All P
  shadowed : ∀ p ∈ e.shadowed, P p.2

def map (f : β → γ) (e : Entered β) : Entered γ where
  scope := e.scope.map f
  shadowed := e.shadowed.map fun p => (p.1, f p.2)
  added := e.added

theorem All.enter {P : β → Prop} {e : Entered β} (h : e.All P) (hv : P v) :
    (e.enter n v).All P := by
  unfold Entered.enter
  split
  · next old hold =>
    refine ⟨h.scope.bind hv, fun p hp => ?_⟩
    rcases List.mem_append.mp hp with hp | hp
    · exact h.shadowed p hp
    · rw [List.mem_singleton.mp hp]
      exact h.scope n old hold
  · exact ⟨h.scope.bind hv, h.shadowed⟩

theorem map_enter (f : β → γ) (e : Entered β) (n : String) (v : β) :
    (e.enter n v).map f = (e.map f).enter n (f v) := by
  cases h : e.scope n <;>
    simp [Entered.enter, map, Scope.map_bind, Scope.map, h]

theorem All.leave {P : β → Prop} {e : Entered β} (h : e.All P) {s : Scope β} (hs : s.All P) :
    (e.leave s).All P := by
  have hshadowed : ∀ (l : List (String × β)) (s : Scope β), s.All P → (∀ p ∈ l, P p.2) →
      (l.foldl (fun s p => s.bind p.1 p.2) s).All P := by
    intro l
    induction l with
    | nil => exact fun s hs _ => hs
    | cons p l ih =>
      exact fun s hs hl => ih _ (hs.bind (hl p List.mem_cons_self))
        fun q hq => hl q (List.mem_cons_of_mem _ hq)
  have hadded : ∀ (l : List String) (s : Scope β), s.All P → (l.foldl Scope.erase s).All P := by
    intro l
    induction l with
    | nil => exact fun s hs => hs
    | cons n l ih => exact fun s hs => ih _ hs.erase
  exact hadded _ _ (hshadowed _ _ hs h.shadowed)

theorem map_leave (f : β → γ) (e : Entered β) (s : Scope β) :
    (e.leave s).map f = (e.map f).leave (s.map f) := by
  have hshadowed : ∀ (l : List (String × β)) (s : Scope β),
      (l.foldl (fun s p => s.bind p.1 p.2) s).map f =
        (l.map fun p => (p.1, f p.2)).foldl (fun s p => s.bind p.1 p.2) (s.map f) := by
    intro l
    induction l with
    | nil => exact fun s => rfl
    | cons p l ih => exact fun s => by rw [List.foldl_cons, ih, Scope.map_bind]; rfl
  have hadded : ∀ (l : List String) (s : Scope β),
      (l.foldl Scope.erase s).map f = l.foldl Scope.erase (s.map f) := by
    intro l
    induction l with
    | nil => exact fun s => rfl
    | cons n l ih => exact fun s => by rw [List.foldl_cons, ih, Scope.map_erase]; rfl
  rw [leave, hadded, hshadowed]
  rfl

end Entered

namespace Scope

theorem All.enter {P : β → Prop} {s : Scope β} (h : s.All P) {ps : List (String × β)}
    (hps : ∀ p ∈ ps, P p.2) : (s.enter ps).All P := by
  have hfold : ∀ (ps : List (String × β)) (e : Entered β), e.All P → (∀ p ∈ ps, P p.2) →
      (ps.foldl (fun e p => e.enter p.1 p.2) e).All P := by
    intro ps
    induction ps with
    | nil => exact fun e he _ => he
    | cons p ps ih =>
      exact fun e he hps => ih _ (he.enter (hps p List.mem_cons_self))
        fun q hq => hps q (List.mem_cons_of_mem _ hq)
  exact hfold ps _ ⟨h, fun p hp => by cases hp⟩ hps

theorem map_enter (f : β → γ) (s : Scope β) (ps : List (String × β)) :
    (s.enter ps).map f = (s.map f).enter (ps.map fun p => (p.1, f p.2)) := by
  have hfold : ∀ (ps : List (String × β)) (e : Entered β),
      (ps.foldl (fun e p => e.enter p.1 p.2) e).map f =
        (ps.map fun p => (p.1, f p.2)).foldl (fun e p => e.enter p.1 p.2) (e.map f) := by
    intro ps
    induction ps with
    | nil => exact fun e => rfl
    | cons p ps ih => exact fun e => by rw [List.foldl_cons, ih, Entered.map_enter]; rfl
  exact hfold ps _

end Scope

namespace Inlining

/-! ## Coming back -/

/-- It has come back with an error. -/
def Refuses (x : Lowering α) : Prop := ∃ err, x = ExceptT.mk (some (.error err))

/-- It has come back. -/
def Returns (x : Lowering α) : Prop := ∃ r, x = ExceptT.mk (some r)

theorem refuses_throw (err : String) : Refuses (throw err : Lowering α) := ⟨err, rfl⟩

theorem Refuses.returns {x : Lowering α} (h : Refuses x) : Returns x := h.imp' _ fun _ h => h

theorem returns_pure (a : α) : Returns (pure a : Lowering α) := ⟨.ok a, rfl⟩

theorem Refuses.bind {x : Lowering α} (h : Refuses x) (k : α → Lowering β) : Refuses (x >>= k) := by
  obtain ⟨err, rfl⟩ := h
  exact ⟨err, rfl⟩

theorem pure_bind_lowering (a : α) (k : α → Lowering β) : (pure a >>= k : Lowering β) = k a := rfl

theorem Returns.cases_bind {x : Lowering α} {k : α → Lowering β} (h : Returns (x >>= k)) :
    Refuses x ∧ Refuses (x >>= k) ∨ ∃ a, x = pure a ∧ Returns (k a) := by
  obtain ⟨r, h⟩ := h
  match x with
  | none => cases h
  | some (.error err) => exact .inl ⟨⟨err, rfl⟩, err, rfl⟩
  | some (.ok a) => exact .inr ⟨a, rfl, r, h⟩

def Dag.ranks (d : Dag) : Scope Bool := d.bindings.map d.isTensor

structure Dag.Sound (env : Env) (d : Dag) : Prop where
  bindings : d.bindings.All (· < d.nodes.length)
  param : ∀ p i, d.paramIdx p = some i →
    i < d.nodes.length ∧ d.isTensor i = (env.paramIsTensor p).getD false

/-- What lowering makes of a graph: one that is sound, with the nodes there were. -/
structure Grown (env : Env) (d d' : Dag) : Prop where
  sound : d'.Sound env
  nodes : d.nodes <+: d'.nodes

namespace Grown

theorem trans (h : Grown env d d') (h' : Grown env d' d'') : Grown env d d'' :=
  ⟨h'.sound, h.nodes.trans h'.nodes⟩

theorem length_le (h : Grown env d d') : d.nodes.length ≤ d'.nodes.length := h.nodes.length_le

theorem isTensor (h : Grown env d d') (hi : i < d.nodes.length) :
    d'.isTensor i = d.isTensor i := by
  obtain ⟨rest, hrest⟩ := h.nodes
  rw [Dag.isTensor, ← hrest, List.getElem?_append_left hi, Dag.isTensor]

theorem ranks (h : Grown env d d') (hd : d.Sound env) (hb : d'.bindings = d.bindings) :
    d'.ranks = d.ranks := by
  funext n
  rw [Dag.ranks, hb, Scope.map, Dag.ranks, Scope.map]
  cases hn : d.bindings n with
  | none => rfl
  | some i => exact congrArg some (h.isTensor (hd.bindings n i hn))

theorem refl (hd : d.Sound env) : Grown env d d := ⟨hd, List.prefix_rfl⟩

theorem push (hd : d.Sound env) (nd : AdNode) : Grown env d (d.push nd).2 := by
  have hprefix : d.nodes <+: (d.push nd).2.nodes := List.prefix_append ..
  refine ⟨⟨fun n i hi => ?_, fun p i hi => ?_⟩, hprefix⟩
  · exact (hd.bindings n i hi).trans_le hprefix.length_le
  · obtain ⟨hlt, hrank⟩ := hd.param p i hi
    refine ⟨hlt.trans_le hprefix.length_le, ?_⟩
    rw [← hrank, Dag.isTensor, Dag.push, List.getElem?_append_left hlt, Dag.isTensor]

end Grown

theorem isTensor_push (d : Dag) (nd : AdNode) :
    (d.push nd).2.isTensor (d.push nd).1 = nd.isTensor := by
  rw [Dag.isTensor, Dag.push, List.getElem?_concat_length]
  rfl

theorem length_push (d : Dag) (nd : AdNode) : (d.push nd).1 < (d.push nd).2.nodes.length := by
  simp [Dag.push]

theorem Grown.withBindings {d : Dag} (hd : d.Sound env) {s : Scope Nat}
    (hs : s.All (· < d.nodes.length)) : Grown env d { d with bindings := s } :=
  ⟨⟨hs, hd.param⟩, List.prefix_rfl⟩

theorem internParam_spec {d : Dag} (hd : d.Sound env) (hr : env.paramIsTensor name = some rank) :
    Grown env d (d.internParam name rank).2 ∧
      (d.internParam name rank).2.bindings = d.bindings ∧
      (d.internParam name rank).1 < (d.internParam name rank).2.nodes.length ∧
      (d.internParam name rank).2.isTensor (d.internParam name rank).1 = rank := by
  unfold Dag.internParam
  cases hi : d.paramIdx name with
  | some i =>
    obtain ⟨hlt, hrank⟩ := hd.param name i hi
    rw [hr] at hrank
    exact ⟨.refl hd, rfl, hlt, hrank⟩
  | none =>
    let nd : AdNode := { valueExpr := name, isInputParam := true, isTensor := rank }
    have hgrown := Grown.push hd nd
    refine ⟨⟨⟨hgrown.sound.bindings, fun p i hp => ?_⟩, hgrown.nodes⟩, rfl, length_push d nd,
      isTensor_push d nd⟩
    change Function.update d.paramIdx name (some d.nodes.length) p = some i at hp
    by_cases hname : p = name
    · subst hname
      rw [Function.update_self] at hp
      cases hp
      refine ⟨length_push d nd, (isTensor_push d nd).trans ?_⟩
      rw [hr]
      rfl
    · rw [Function.update_of_ne hname] at hp
      exact hgrown.sound.param p i hp

/-! ## One expression -/

/-- The graph inside a helper whose parameters are bound to nodes. -/
def Dag.entered (d : Dag) (ps : List String) (is : List Nat) : Dag :=
  { d with bindings := (d.bindings.enter (ps.zip is)).scope }

/-- The graph after a helper. -/
def Dag.left (d : Dag) (inner : Entered Nat) : Dag :=
  { d with bindings := inner.leave d.bindings }

theorem buildNode_refused (d : Dag) (h : e.operands env = none) :
    ∃ err, ∀ fuel, buildNode env (fuel + 1) e d = throw err := by
  cases e with
  | identifier name => cases h
  | literal raw => cases h
  | binary op left right =>
    rw [Expression.operands] at h
    simp only [buildNode]
    cases hp : op.prim with
    | none => exact ⟨_, fun _ => rfl⟩
    | some p => simp [hp] at h
  | unary op operand =>
    cases op with
    | negative => cases h
    | other => exact ⟨_, fun _ => rfl⟩
  | call recv op typeArgs args =>
    rw [Expression.operands] at h
    simp only [buildNode]
    split
    · next hmath =>
      rw [if_pos hmath] at h
      split
      · exact ⟨_, fun _ => rfl⟩
      · next hlen =>
        rw [if_neg hlen] at h
        cases h
    next hmath =>
    rw [if_neg hmath] at h
    split
    · next htensor =>
      rw [if_pos htensor] at h
      split
      · exact ⟨_, fun _ => rfl⟩
      · next hlen =>
        rw [if_neg hlen] at h
        cases h
    next htensor =>
    rw [if_neg htensor] at h
    cases ht : env.resolveCall recv op args.length with
    | notFound => exact ⟨_, fun _ => rfl⟩
    | noGrad q t => simp [ht] at h
    | inlined ps body => simp [ht] at h
  | other => exact ⟨_, fun _ => rfl⟩

theorem buildNode_helper (d : Dag) (fuel : Nat) (h : e.operands env = some ops)
    (hh : e.helper env = some (ps, body)) :
    buildNode env (fuel + 1) e d = visitAll (buildNode env fuel) ops d >>= fun r =>
      buildNode env fuel body (r.2.entered ps r.1) >>= fun r' =>
        pure (r'.1, r'.2.left (r.2.bindings.enter (ps.zip r.1))) := by
  cases e with
  | call recv op typeArgs args =>
    rw [Expression.operands] at h
    rw [Expression.helper] at hh
    rw [buildNode]
    split at hh
    · cases hh
    next hmath =>
    rw [if_neg hmath] at h ⊢
    split at hh
    · cases hh
    next htensor =>
    rw [if_neg htensor] at h ⊢
    cases ht : env.resolveCall recv op args.length with
    | notFound => simp [ht] at h
    | noGrad q t => simp [ht] at hh
    | inlined ps' body' =>
      simp only [ht, Option.some.injEq] at h
      subst h
      cases body' with
      | none => simp [ht] at hh
      | some body' =>
        simp only [ht] at hh
        split at hh
        · cases hh
        · next hlen =>
          cases hh
          simp only [if_neg hlen]
          rfl
  | _ => cases hh

/-- A node over operands: it is refused where it has no rank, and else added with its rank. -/
structure Makes (env : Env) (e : Expression) (is : List Nat) (d : Dag)
    (x : Lowering (Nat × Dag)) : Prop where
  refused : e.rank env d.ranks (is.map d.isTensor) = none → Refuses x
  made : ∀ b, e.rank env d.ranks (is.map d.isTensor) = some b → ∃ r d', x = pure (r, d') ∧
    Grown env d d' ∧ d'.bindings = d.bindings ∧ r < d'.nodes.length ∧ d'.isTensor r = b

theorem Makes.push (hd : d.Sound env) (nd : AdNode)
    (hrank : e.rank env d.ranks (is.map d.isTensor) = some nd.isTensor) :
    Makes env e is d (pure (d.push nd)) := by
  refine ⟨fun h => ?_, fun b h => ?_⟩
  · rw [hrank] at h
    cases h
  · rw [hrank] at h
    cases h
    exact ⟨_, _, rfl, .push hd nd, rfl, length_push d nd, isTensor_push d nd⟩

theorem Makes.throw (err : String) (hrank : e.rank env d.ranks (is.map d.isTensor) = none) :
    Makes env e is d (MonadExcept.throw err) := by
  refine ⟨fun _ => refuses_throw err, fun b h => ?_⟩
  rw [hrank] at h
  cases h

theorem makes_identifier (is : List Nat) (fuel : Nat) (name : String) (hd : d.Sound env) :
    Makes env (.identifier name) is d (buildNode env (fuel + 1) (.identifier name) d) := by
  rw [buildNode]
  cases hb : d.bindings name with
  | some i =>
    have hscope : d.ranks name = some (d.isTensor i) := by
      rw [Dag.ranks, Scope.map, hb]
      rfl
    refine ⟨fun h => (by cases h), fun b h => ?_⟩
    rw [Expression.rank, hscope] at h
    cases h
    exact ⟨i, d, rfl, .refl hd, rfl, hd.bindings name i hb, rfl⟩
  | none =>
    have hscope : d.ranks name = none := by
      rw [Dag.ranks, Scope.map, hb]
      rfl
    cases hr : env.paramIsTensor name with
    | some rank =>
      obtain ⟨hgrown, hbind, hlt, hrank⟩ := internParam_spec hd hr
      refine ⟨fun h => (by cases h), fun b h => ?_⟩
      rw [Expression.rank, hscope, hr] at h
      cases h
      exact ⟨_, _, rfl, hgrown, hbind, hlt, hrank⟩
    | none => exact .push hd _ (by rw [Expression.rank, hscope, hr]; rfl)

/-- An expression that enters no helper is lowered by making its node over its operands. -/
theorem buildNode_node (d : Dag) (h : e.operands env = some ops) (hh : e.helper env = none) :
    ∃ k, (∀ fuel, buildNode env (fuel + 1) e d = visitAll (buildNode env fuel) ops d >>= k) ∧
      ∀ is d', d'.Sound env → Makes env e is d' (k (is, d')) := by
  cases e with
  | identifier name =>
    cases h
    exact ⟨fun r => buildNode env 1 (.identifier name) r.2, fun _ => rfl,
      fun is d' hd => makes_identifier is 0 name hd⟩
  | literal raw =>
    cases h
    exact ⟨fun r => pure (r.2.push { valueExpr := raw }), fun _ => rfl,
      fun is d' hd => .push hd _ rfl⟩
  | binary op left right =>
    rw [Expression.operands] at h
    cases hp : op.prim with
    | none => simp [hp] at h
    | some p =>
      simp only [hp, Option.isSome_some, if_true, Option.some.injEq] at h
      subst h
      simp only [buildNode, hp]
      exact ⟨_, fun _ => rfl, fun is d' hd => .push hd _ rfl⟩
  | unary op operand =>
    cases op with
    | negative =>
      cases h
      exact ⟨_, fun _ => rfl, fun is d' hd => .push hd _ rfl⟩
    | other => cases h
  | call recv op typeArgs args =>
    rw [Expression.operands] at h
    rw [Expression.helper] at hh
    simp only [buildNode]
    split at h
    · next hmath =>
      split at h
      · cases h
      next hlen =>
      cases h
      simp only [if_pos hmath, if_neg hlen]
      exact ⟨_, fun _ => rfl, fun is d' hd => .push hd _ (by rw [Expression.rank, if_pos hmath])⟩
    next hmath =>
    rw [if_neg hmath] at hh
    simp only [if_neg hmath]
    split at h
    · next htensor =>
      split at h
      · cases h
      next hlen =>
      cases h
      simp only [if_pos htensor, if_neg hlen]
      refine ⟨_, fun _ => rfl, fun is d' hd => ?_⟩
      dsimp only
      cases hm : rankMismatch op typeArgs (is.map d'.isTensor) with
      | some err =>
        exact .throw err (by rw [Expression.rank, if_neg hmath, if_pos htensor, hm]; rfl)
      | none =>
        exact .push hd _ (by rw [Expression.rank, if_neg hmath, if_pos htensor, hm]; rfl)
    next htensor =>
    rw [if_neg htensor] at hh
    simp only [if_neg htensor]
    cases ht : env.resolveCall recv op args.length with
    | notFound => simp [ht] at h
    | noGrad q t =>
      simp only [ht, Option.some.injEq] at h
      subst h
      exact ⟨_, fun _ => rfl, fun is d' hd =>
        .push hd _ (by rw [Expression.rank, if_neg hmath, if_neg htensor, ht])⟩
    | inlined ps body =>
      simp only [ht, Option.some.injEq] at h
      subst h
      have hrank : ∀ (is : List Nat) (d' : Dag),
        (Expression.call recv op typeArgs args).rank env d'.ranks
          (is.map d'.isTensor) = none := by
        intro is d'
        rw [Expression.rank, if_neg hmath, if_neg htensor, ht]
      cases body with
      | none => exact ⟨_, fun _ => rfl, fun is d' _ => .throw _ (hrank is d')⟩
      | some body =>
        simp only [ht] at hh
        split at hh
        · next hlen =>
          simp only [if_pos hlen]
          exact ⟨_, fun _ => rfl, fun is d' _ => .throw _ (hrank is d')⟩
        · cases hh
  | other => cases h

namespace Ranks

theorem nil_eq (h : Ranks env [] Γ r) : r = some ([], Γ) := by
  cases h
  rfl

theorem cons_none (es : List Expression) (h : Ranks env [e] Γ none) :
    Ranks env (e :: es) Γ none := by
  generalize hr : none = r at h
  cases h with
  | refused ho => exact .refused ho
  | operand ho h => exact .operand ho h
  | mismatch ho h hh hrank => exact .mismatch ho h hh hrank
  | body ho h hh hb => exact .body ho h hh hb
  | node _ _ _ _ hes | inlined _ _ _ _ hes =>
    rw [hes.nil_eq] at hr
    cases hr

theorem cons (h : Ranks env [e] Γ (some ([b], Γ'))) (hes : Ranks env es Γ' r) :
    Ranks env (e :: es) Γ (r.map fun p => (b :: p.1, p.2)) := by
  generalize hr : some ([b], Γ') = r' at h
  cases h with
  | refused | operand | mismatch | body => cases hr
  | node ho h hh hrank hnil =>
    rw [hnil.nil_eq] at hr
    cases hr
    exact .node ho h hh hrank hes
  | inlined ho h hh hb hnil =>
    rw [hnil.nil_eq] at hr
    cases hr
    exact .inlined ho h hh hb hes

theorem uncons (h : Ranks env (e :: es) Γ (some (rs, Γ''))) : ∃ b Γ' rs',
    Ranks env [e] Γ (some ([b], Γ')) ∧ Ranks env es Γ' (some (rs', Γ'')) := by
  generalize hr : some (rs, Γ'') = r at h
  cases h with
  | refused | operand | mismatch | body => cases hr
  | node ho h hh hrank hes =>
    obtain ⟨p, rfl, hp⟩ := Option.map_eq_some_iff.mp hr.symm
    cases hp
    exact ⟨_, _, _, .node ho h hh hrank .nil, hes⟩
  | inlined ho h hh hb hes =>
    obtain ⟨p, rfl, hp⟩ := Option.map_eq_some_iff.mp hr.symm
    cases hp
    exact ⟨_, _, _, .inlined ho h hh hb .nil, hes⟩

theorem unique (h : Ranks env es Γ r) (h' : Ranks env es Γ r') : r = r' := by
  induction h generalizing r' with
  | nil => exact h'.nil_eq.symm
  | refused ho => cases h' <;> grind
  | operand ho h ih => cases h' <;> grind
  | mismatch ho h hh hr ih => cases h' <;> grind
  | node ho h hh hr hes ih ihes => cases h' <;> grind
  | body ho h hh hb ih ihb => cases h' <;> grind
  | inlined ho h hh hb hes ih ihb ihes => cases h' <;> grind

end Ranks

/-! ## The builder reads the ranks -/

structure Reads (env : Env) (e : Expression) (d : Dag) (x : Lowering (Nat × Dag)) : Prop where
  refused : Refuses x → Ranks env [e] d.ranks none
  made : ∀ r d', x = pure (r, d') → Grown env d d' ∧ r < d'.nodes.length ∧
    Ranks env [e] d.ranks (some ([d'.isTensor r], d'.ranks))

structure ReadsAll (env : Env) (es : List Expression) (d : Dag) (x : Lowering (List Nat × Dag)) :
    Prop where
  refused : Refuses x → Ranks env es d.ranks none
  made : ∀ is d', x = pure (is, d') → Grown env d d' ∧ (∀ i ∈ is, i < d'.nodes.length) ∧
    Ranks env es d.ranks (some (is.map d'.isTensor, d'.ranks))

theorem Refuses.cases_bind {x : Lowering α} {k : α → Lowering β} (h : Refuses (x >>= k)) :
    Refuses x ∨ ∃ a, x = pure a ∧ Refuses (k a) := by
  obtain ⟨err, h⟩ := h
  match x with
  | none => cases h
  | some (.error err) => exact .inl ⟨err, rfl⟩
  | some (.ok a) => exact .inr ⟨a, rfl, err, h⟩

theorem eq_pure_of_bind {x : Lowering α} {k : α → Lowering β} (h : x >>= k = pure b) :
    ∃ a, x = pure a ∧ k a = pure b := by
  match x with
  | none => cases h
  | some (.error err) => cases h
  | some (.ok a) => exact ⟨a, rfl, h⟩

theorem pure_inj {a b : α} (h : (pure a : Lowering α) = pure b) : a = b := by
  cases h
  rfl

theorem not_refuses_pure (a : α) : ¬Refuses (pure a : Lowering α) := by
  rintro ⟨err, h⟩
  cases h

theorem visitAll_reads {visit : Expression → Dag → Lowering (Nat × Dag)}
    (hvisit : ∀ e d, d.Sound env → Reads env e d (visit e d)) (es : List Expression)
    (hd : d.Sound env) : ReadsAll env es d (visitAll visit es d) := by
  induction es generalizing d with
  | nil =>
    refine ⟨fun h => absurd h (not_refuses_pure _), fun is d' h => ?_⟩
    cases pure_inj h
    exact ⟨.refl hd, fun i hi => absurd hi List.not_mem_nil, .nil⟩
  | cons e es ih =>
    rw [visitAll]
    refine ⟨fun h => ?_, fun is d' h => ?_⟩
    · rcases h.cases_bind with h | ⟨⟨i, d₁⟩, hi, h⟩
      · exact ((hvisit e d hd).refused h).cons_none es
      · obtain ⟨hgrown, -, hread⟩ := (hvisit e d hd).made i d₁ hi
        rcases h.cases_bind with h | ⟨a, -, h⟩
        · exact hread.cons ((ih hgrown.sound).refused h)
        · exact absurd h (not_refuses_pure _)
    · obtain ⟨⟨i, d₁⟩, hi, h⟩ := eq_pure_of_bind h
      obtain ⟨⟨is', d₂⟩, his, h⟩ := eq_pure_of_bind h
      cases pure_inj h
      obtain ⟨hgrown, hlt, hread⟩ := (hvisit e d hd).made i d₁ hi
      obtain ⟨hgrown', hall, hreads⟩ := (ih hgrown.sound).made is' d' his
      refine ⟨hgrown.trans hgrown', ?_, ?_⟩
      · intro j hj
        rcases List.mem_cons.mp hj with rfl | hj
        · exact hlt.trans_le hgrown'.length_le
        · exact hall j hj
      · rw [List.map_cons, hgrown'.isTensor hlt]
        exact hread.cons hreads

theorem enter_map (d : Dag) (ps : List String) (is : List Nat) :
    (d.bindings.enter (ps.zip is)).map d.isTensor =
      d.ranks.enter (ps.zip (is.map d.isTensor)) := by
  rw [Scope.map_enter, List.zip_map_right]
  rfl

theorem map_congr {e : Entered Nat} {f g : Nat → Bool} (h : e.All fun i => f i = g i) :
    e.map f = e.map g := by
  have hscope : e.scope.map f = e.scope.map g := by
    funext n
    cases hn : e.scope n with
    | none => rw [Scope.map, Scope.map, hn]; rfl
    | some i => rw [Scope.map, Scope.map, hn]; exact congrArg some (h.scope n i hn)
  have hshadowed : (e.shadowed.map fun p => (p.1, f p.2)) = e.shadowed.map fun p => (p.1, g p.2) :=
    List.map_congr_left fun p hp => congrArg (Prod.mk p.1) (h.shadowed p hp)
  rw [Entered.map, Entered.map, hscope, hshadowed]

theorem leave_ranks {inner : Entered Nat} (hinner : inner.All (· < d.nodes.length))
    (h : Grown env d d') :
    (d'.left inner).ranks = (inner.map d.isTensor).leave d'.ranks := by
  have hmap : inner.map d'.isTensor = inner.map d.isTensor :=
    map_congr ⟨fun n i hi => h.isTensor (hinner.scope n i hi),
      fun p hp => h.isTensor (hinner.shadowed p hp)⟩
  rw [← hmap]
  exact Entered.map_leave d'.isTensor inner d'.bindings

theorem enter_all {d : Dag} {ps : List String} {is : List Nat} (hd : d.Sound env)
    (hlt : ∀ i ∈ is, i < d.nodes.length) :
    (d.bindings.enter (ps.zip is)).All (· < d.nodes.length) :=
  hd.bindings.enter fun _ hp => hlt _ (List.of_mem_zip hp).2

theorem grown_entered {d : Dag} {ps : List String} {is : List Nat} (hd : d.Sound env)
    (hlt : ∀ i ∈ is, i < d.nodes.length) : Grown env d (d.entered ps is) :=
  .withBindings hd (enter_all hd hlt).scope

theorem entered_ranks (d : Dag) (ps : List String) (is : List Nat) :
    (d.entered ps is).ranks = (d.ranks.enter (ps.zip (is.map d.isTensor))).scope := by
  rw [← enter_map]
  rfl

theorem buildNode_reads (env : Env) (fuel : Nat) (e : Expression) (d : Dag) (hd : d.Sound env) :
    Reads env e d (buildNode env fuel e d) := by
  induction fuel generalizing e d with
  | zero =>
    refine ⟨fun ⟨err, h⟩ => (by cases e <;> cases h), fun r d' h => (by cases e <;> cases h)⟩
  | succ fuel ih =>
    cases ho : e.operands env with
    | none =>
      refine ⟨fun _ => .refused ho, fun r d' h => ?_⟩
      obtain ⟨err, herr⟩ := buildNode_refused d ho
      rw [herr fuel] at h
      cases h
    | some ops =>
      have hops := visitAll_reads (ih · ·) ops hd
      cases hh : e.helper env with
      | none =>
        obtain ⟨k, hk, hmakes⟩ := buildNode_node d ho hh
        rw [hk fuel]
        refine ⟨fun h => ?_, fun r d' h => ?_⟩
        · rcases h.cases_bind with h | ⟨⟨is, d₁⟩, his, h⟩
          · exact .operand ho (hops.refused h)
          · obtain ⟨hgrown, -, hranks⟩ := hops.made is d₁ his
            cases hr : e.rank env d₁.ranks (is.map d₁.isTensor) with
            | none => exact .mismatch ho hranks hh hr
            | some b =>
              obtain ⟨r, d', hpure, -⟩ := (hmakes is d₁ hgrown.sound).made b hr
              rw [hpure] at h
              exact absurd h (not_refuses_pure _)
        · obtain ⟨⟨is, d₁⟩, his, h⟩ := eq_pure_of_bind h
          obtain ⟨hgrown, -, hranks⟩ := hops.made is d₁ his
          cases hr : e.rank env d₁.ranks (is.map d₁.isTensor) with
          | none =>
            have hrefused := (hmakes is d₁ hgrown.sound).refused hr
            rw [h] at hrefused
            exact absurd hrefused (not_refuses_pure _)
          | some b =>
            obtain ⟨r', d'', hpure, hgrown', hbind, hlt, hb⟩ :=
              (hmakes is d₁ hgrown.sound).made b hr
            rw [h] at hpure
            cases pure_inj hpure
            refine ⟨hgrown.trans hgrown', hlt, ?_⟩
            rw [hb, hgrown'.ranks hgrown.sound hbind]
            exact .node ho hranks hh hr .nil
      | some helper =>
        obtain ⟨ps, body⟩ := helper
        rw [buildNode_helper d fuel ho hh]
        refine ⟨fun h => ?_, fun r d' h => ?_⟩
        · rcases h.cases_bind with h | ⟨⟨is, d₁⟩, his, h⟩
          · exact .operand ho (hops.refused h)
          · obtain ⟨hgrown, hlt, hranks⟩ := hops.made is d₁ his
            have hbody := ih body (d₁.entered ps is) (grown_entered hgrown.sound hlt).sound
            rcases h.cases_bind with h | ⟨a, -, h⟩
            · have hread := hbody.refused h
              rw [entered_ranks] at hread
              exact .body ho hranks hh hread
            · exact absurd h (not_refuses_pure _)
        · obtain ⟨⟨is, d₁⟩, his, h⟩ := eq_pure_of_bind h
          obtain ⟨⟨r', d₂⟩, hr, h⟩ := eq_pure_of_bind h
          cases pure_inj h
          obtain ⟨hgrown, hlt, hranks⟩ := hops.made is d₁ his
          have hentered : Grown env d₁ (d₁.entered ps is) := grown_entered hgrown.sound hlt
          obtain ⟨hgrown', hlt', hread⟩ := (ih body _ hentered.sound).made _ _ hr
          rw [entered_ranks] at hread
          have hinner : (d₁.bindings.enter (ps.zip is)).All (· < d₁.nodes.length) :=
            enter_all hgrown.sound hlt
          have hleave := leave_ranks hinner (hentered.trans hgrown')
          rw [enter_map] at hleave
          refine ⟨(hgrown.trans (hentered.trans hgrown')).trans
            (.withBindings hgrown'.sound ?_), hlt', ?_⟩
          · have hall : (d₁.bindings.enter (ps.zip is)).All (· < d₂.nodes.length) :=
              ⟨fun n i hi => (hinner.scope n i hi).trans_le hgrown'.length_le,
                fun p hp => (hinner.shadowed p hp).trans_le hgrown'.length_le⟩
            exact hall.leave hgrown'.sound.bindings
          · rw [hleave]
            exact .inlined ho hranks hh hread .nil

/-! ## Coming back -/

theorem visitAll_returns_mono {visit visit' : Expression → Dag → Lowering (Nat × Dag)}
    (h : ∀ e d, Returns (visit e d) → visit' e d = visit e d) (es : List Expression) (d : Dag)
    (hr : Returns (visitAll visit es d)) : visitAll visit' es d = visitAll visit es d := by
  induction es generalizing d with
  | nil => rfl
  | cons e es ih =>
    rw [visitAll] at hr
    rw [visitAll, visitAll]
    rcases hr.cases_bind with ⟨hrefuses, -⟩ | ⟨⟨i, d₁⟩, hi, hr⟩
    · rw [h e d hrefuses.returns]
      obtain ⟨err, herr⟩ := hrefuses
      rw [herr]
      rfl
    · rw [h e d (hi ▸ returns_pure _), hi, pure_bind_lowering, pure_bind_lowering]
      dsimp only
      rcases hr.cases_bind with ⟨hrefuses, -⟩ | ⟨⟨is, d₂⟩, his, hr⟩
      · rw [ih d₁ hrefuses.returns]
      · rw [ih d₁ (his ▸ returns_pure _)]

theorem buildNode_mono (fuel : Nat) (e : Expression) (d : Dag)
    (hr : Returns (buildNode env fuel e d)) :
    buildNode env (fuel + 1) e d = buildNode env fuel e d := by
  induction fuel generalizing e d with
  | zero => obtain ⟨r, hr⟩ := hr; cases e <;> cases hr
  | succ fuel ih =>
    have hall := visitAll_returns_mono (fun e d h => ih e d h)
    cases ho : e.operands env with
    | none =>
      obtain ⟨err, herr⟩ := buildNode_refused d ho
      rw [herr, herr]
    | some ops =>
      cases hh : e.helper env with
      | none =>
        obtain ⟨k, hk, -⟩ := buildNode_node d ho hh
        rw [hk] at hr
        rw [hk, hk]
        rcases hr.cases_bind with ⟨hrefuses, -⟩ | ⟨a, ha, -⟩
        · rw [hall ops d hrefuses.returns]
        · rw [hall ops d (ha ▸ returns_pure _)]
      | some helper =>
        obtain ⟨ps, body⟩ := helper
        rw [buildNode_helper d fuel ho hh] at hr
        rw [buildNode_helper d fuel ho hh, buildNode_helper d (fuel + 1) ho hh]
        rcases hr.cases_bind with ⟨hrefuses, -⟩ | ⟨⟨is, d₁⟩, his, hr⟩
        · rw [hall ops d hrefuses.returns]
          obtain ⟨err, herr⟩ := hrefuses
          rw [herr]
          rfl
        · rw [hall ops d (his ▸ returns_pure _), his, pure_bind_lowering, pure_bind_lowering]
          dsimp only
          rcases hr.cases_bind with ⟨hrefuses, -⟩ | ⟨a, ha, -⟩
          · rw [ih _ _ hrefuses.returns]
          · rw [ih _ _ (ha ▸ returns_pure _)]

theorem buildNode_le (hle : fuel ≤ fuel') (hr : Returns (buildNode env fuel e d)) :
    buildNode env fuel' e d = buildNode env fuel e d := by
  induction hle with
  | refl => rfl
  | step _ ih => rw [buildNode_mono _ e d (ih ▸ hr), ih]

theorem visitAll_le (hle : fuel ≤ fuel') (hr : Returns (visitAll (buildNode env fuel) es d)) :
    visitAll (buildNode env fuel') es d = visitAll (buildNode env fuel) es d :=
  visitAll_returns_mono (fun _ _ h => buildNode_le hle h) es d hr

/-- Operands come back together when each comes back once those before it are accepted. -/
theorem visitAll_returns (hd : d.Sound env)
    (h : ∀ before x after d', es = before ++ x :: after →
      (∃ rs, Ranks env before d.ranks (some (rs, d'.ranks))) → d'.Sound env →
      ∃ fuel, Returns (buildNode env fuel x d')) :
    ∃ fuel, Returns (visitAll (buildNode env fuel) es d) := by
  induction es generalizing d with
  | nil => exact ⟨0, returns_pure _⟩
  | cons e es ih =>
    obtain ⟨fuel, r, hr⟩ := h [] e es d rfl ⟨[], .nil⟩ hd
    have hreads := buildNode_reads env fuel e d hd
    cases r with
    | error err =>
      refine ⟨fuel, .error err, ?_⟩
      rw [visitAll, hr]
      rfl
    | ok a =>
      obtain ⟨i, d₁⟩ := a
      obtain ⟨hgrown, -, hread⟩ := hreads.made i d₁ hr
      obtain ⟨fuel', hall⟩ := ih hgrown.sound fun before x after d' hes hbefore hd' => by
        obtain ⟨rs, hrs⟩ := hbefore
        exact h (e :: before) x after d' (by rw [hes]; rfl) ⟨_, hread.cons hrs⟩ hd'
      refine ⟨max fuel fuel', ?_⟩
      have hhead : buildNode env (max fuel fuel') e d = pure (i, d₁) :=
        (buildNode_le (Nat.le_max_left ..) ⟨_, hr⟩).trans hr
      rw [visitAll, hhead, pure_bind_lowering]
      dsimp only
      rw [visitAll_le (Nat.le_max_right ..) hall]
      obtain ⟨r', hr'⟩ := hall
      rw [hr']
      cases r' with
      | error err => exact ⟨.error err, rfl⟩
      | ok b => exact ⟨.ok _, rfl⟩

theorem Returns.cases {x : Lowering α} (h : Returns x) : Refuses x ∨ ∃ a, x = pure a := by
  obtain ⟨r, rfl⟩ := h
  cases r with
  | error err => exact .inl ⟨err, rfl⟩
  | ok a => exact .inr ⟨a, rfl⟩

theorem returns_of_acc (hacc : Acc (fun y x => Enters env x y) p) :
    ∀ d : Dag, d.Sound env → d.ranks = p.2 → ∃ fuel, Returns (buildNode env fuel p.1 d) := by
  induction hacc with
  | intro p _ ih =>
    obtain ⟨e, Γ⟩ := p
    intro d hd hΓ
    obtain rfl : d.ranks = Γ := hΓ
    cases ho : e.operands env with
    | none =>
      obtain ⟨err, herr⟩ := buildNode_refused d ho
      exact ⟨1, .error err, herr 0⟩
    | some ops =>
      obtain ⟨fuel, hops⟩ := visitAll_returns hd
        fun before x after d' (hes : ops = before ++ x :: after) hbefore hd' => by
          obtain ⟨rs, hrs⟩ := hbefore
          exact ih (x, d'.ranks) (.operand (hes ▸ ho) hrs) d' hd' rfl
      have hreads := visitAll_reads (buildNode_reads env fuel) ops hd
      cases hh : e.helper env with
      | none =>
        obtain ⟨k, hk, hmakes⟩ := buildNode_node d ho hh
        refine ⟨fuel + 1, ?_⟩
        rw [hk]
        rcases hops.cases with hrefuses | ⟨⟨is, d₁⟩, his⟩
        · exact (hrefuses.bind k).returns
        · rw [his, pure_bind_lowering]
          obtain ⟨hgrown, -, -⟩ := hreads.made is d₁ his
          have hmake := hmakes is d₁ hgrown.sound
          cases hr : e.rank env d₁.ranks (is.map d₁.isTensor) with
          | none => exact (hmake.refused hr).returns
          | some b =>
            obtain ⟨r, d', hpure, -⟩ := hmake.made b hr
            exact hpure ▸ returns_pure _
      | some helper =>
        obtain ⟨ps, body⟩ := helper
        rcases hops.cases with hrefuses | ⟨⟨is, d₁⟩, his⟩
        · refine ⟨fuel + 1, ?_⟩
          rw [buildNode_helper d fuel ho hh]
          exact (hrefuses.bind _).returns
        · obtain ⟨hgrown, hlt, hranks⟩ := hreads.made is d₁ his
          obtain ⟨fuel', hbody⟩ := ih (body, _) (.helper ho hranks hh) (d₁.entered ps is)
            (grown_entered hgrown.sound hlt).sound (entered_ranks d₁ ps is)
          refine ⟨max fuel fuel' + 1, ?_⟩
          rw [buildNode_helper d _ ho hh, visitAll_le (Nat.le_max_left ..) hops, his,
            pure_bind_lowering]
          dsimp only
          rw [buildNode_le (Nat.le_max_right ..) hbody]
          rcases hbody.cases with hrefuses | ⟨a, ha⟩
          · exact (hrefuses.bind _).returns
          · rw [ha]
            exact returns_pure _

theorem visitAll_split (fuel : Nat) (hd : d.Sound env) (before : List Expression)
    (hr : Returns (visitAll (buildNode env fuel) (before ++ x :: after) d))
    (h : Ranks env before d.ranks (some (rs, Γ))) :
    ∃ d' : Dag, d'.Sound env ∧ d'.ranks = Γ ∧ Returns (buildNode env fuel x d') := by
  induction before generalizing d rs with
  | nil =>
    cases h.nil_eq
    rw [List.nil_append, visitAll] at hr
    refine ⟨d, hd, rfl, ?_⟩
    rcases hr.cases_bind with ⟨hrefuses, -⟩ | ⟨a, ha, -⟩
    · exact hrefuses.returns
    · exact ha ▸ returns_pure a
  | cons e before ih =>
    rw [List.cons_append, visitAll] at hr
    have hreads := buildNode_reads env fuel e d hd
    rcases hr.cases_bind with ⟨hrefuses, -⟩ | ⟨⟨i, d₁⟩, hi, hr⟩
    · cases ((hreads.refused hrefuses).cons_none before).unique h
    · obtain ⟨hgrown, -, hread⟩ := hreads.made i d₁ hi
      obtain ⟨b, Γ', rs', hhead, hrest⟩ := h.uncons
      cases hread.unique hhead
      refine ih hgrown.sound ?_ hrest
      rcases hr.cases_bind with ⟨hrefuses, -⟩ | ⟨a, ha, -⟩
      · exact hrefuses.returns
      · exact ha ▸ returns_pure a

theorem acc_of_returns (fuel : Nat) (hd : d.Sound env) (hr : Returns (buildNode env fuel e d)) :
    Acc (fun y x => Enters env x y) (e, d.ranks) := by
  induction fuel generalizing e d with
  | zero => obtain ⟨r, hr⟩ := hr; cases e <;> cases hr
  | succ fuel ih =>
    have hall : ∀ ops, e.operands env = some ops →
        Returns (visitAll (buildNode env fuel) ops d) := by
      intro ops ho
      have hsplit : ∃ k, buildNode env (fuel + 1) e d =
          visitAll (buildNode env fuel) ops d >>= k := by
        cases hh : e.helper env with
        | none =>
          obtain ⟨k, hk, -⟩ := buildNode_node d ho hh
          exact ⟨k, hk fuel⟩
        | some helper => exact ⟨_, buildNode_helper d fuel ho hh⟩
      obtain ⟨k, hk⟩ := hsplit
      rw [hk] at hr
      rcases hr.cases_bind with ⟨hrefuses, -⟩ | ⟨a, ha, -⟩
      · exact hrefuses.returns
      · exact ha ▸ returns_pure a
    refine .intro _ fun y hy => ?_
    cases hy with
    | operand ho h =>
      obtain ⟨d', hd', rfl, hx⟩ := visitAll_split fuel hd _ (hall _ ho) h
      exact ih hd' hx
    | helper ho h hh =>
      have hreads := fun ops => visitAll_reads (buildNode_reads env fuel) ops hd
      rcases (hall _ ho).cases with hrefuses | ⟨⟨is, d₁⟩, his⟩
      · cases ((hreads _).refused hrefuses).unique h
      · obtain ⟨hgrown, hlt, hranks⟩ := (hreads _).made is d₁ his
        cases hranks.unique h
        rw [buildNode_helper d fuel ho hh, his, pure_bind_lowering] at hr
        rw [← entered_ranks]
        refine ih (grown_entered hgrown.sound hlt).sound ?_
        rcases hr.cases_bind with ⟨hrefuses, -⟩ | ⟨a, ha, -⟩
        · exact hrefuses.returns
        · exact ha ▸ returns_pure a

theorem sound_empty (env : Env) : Dag.Sound env {} :=
  ⟨fun n v h => (by cases h), fun p i h => (by cases h)⟩

theorem buildDag_isSome (env : Env) (fuel : Nat) (body : Expression) :
    (∃ r, buildDag env fuel body = some r) ↔ Returns (buildNode env fuel body {}) := by
  unfold buildDag
  constructor
  · rintro ⟨r, hr⟩
    obtain ⟨r', hr', -⟩ := Option.map_eq_some_iff.mp hr
    exact ⟨r', hr'⟩
  · rintro ⟨r, hr⟩
    exact ⟨_, congrArg (Option.map _) hr⟩

/-! ## What can be entered -/

def Expression.children : Expression → List Expression
  | .binary _ left right => [left, right]
  | .unary _ operand => [operand]
  | .call _ _ _ args => args
  | .identifier _ | .literal _ | .other => []

theorem operands_subset {e : Expression} (h : e.operands env = some ops) (hx : x ∈ ops) :
    x ∈ e.children := by
  cases e with
  | identifier | literal | other => simp_all [Expression.operands]
  | binary op left right =>
    rw [Expression.operands] at h
    split at h
    · cases h
      exact hx
    · cases h
  | unary op operand =>
    cases op <;> cases h
    exact hx
  | call recv op typeArgs args =>
    rw [Expression.operands] at h
    repeat' split at h
    all_goals cases h
    · exact hx
    · exact List.mem_of_mem_take hx
    all_goals exact hx

theorem sizeOf_children {e : Expression} (hx : x ∈ e.children) : sizeOf x < sizeOf e := by
  cases e with
  | identifier | literal | other => cases hx
  | binary op left right =>
    rcases List.mem_pair.mp hx with rfl | rfl <;> simp +arith
  | unary op operand =>
    rw [List.mem_singleton.mp hx]
    simp +arith
  | call recv op typeArgs args =>
    have hlt := List.sizeOf_lt_of_mem (show x ∈ args from hx)
    simp only [Expression.call.sizeOf_spec]
    omega

theorem exists_finite_closure (e : Expression) :
    ∃ S : Set Expression, S.Finite ∧ e ∈ S ∧ ∀ x ∈ S, ∀ y ∈ x.children, y ∈ S := by
  induction h : sizeOf e using Nat.strong_induction_on generalizing e with
  | h n ih =>
    subst h
    choose! S hfin hmem hclosed using fun y (hy : y ∈ e.children) =>
      ih (sizeOf y) (sizeOf_children hy) y rfl
    refine ⟨insert e (⋃ y ∈ {y | y ∈ e.children}, S y), ?_, Set.mem_insert .., ?_⟩
    · exact (Set.Finite.biUnion (List.finite_toSet _) hfin).insert e
    · intro x hx y hy
      rcases Set.mem_insert_iff.mp hx with rfl | hx
      · exact Set.mem_insert_of_mem _ (Set.mem_biUnion hy (hmem y hy))
      · obtain ⟨z, hz, hxz⟩ := Set.mem_iUnion₂.mp hx
        exact Set.mem_insert_of_mem _ (Set.mem_biUnion hz (hclosed z hz x hxz y hy))

/-- Only these names are bound. -/
def NamesIn (N : Finset String) (s : Scope β) : Prop := ∀ n, n ∉ N → s n = none

theorem finite_namesIn (N : Finset String) : {s : Scope Bool | NamesIn N s}.Finite := by
  refine (Set.finite_range fun (g : N → Option Bool) (n : String) =>
    if h : n ∈ N then g ⟨n, h⟩ else none).subset fun s hs => ⟨fun n => s n, ?_⟩
  funext n
  dsimp only
  split
  · rfl
  · next hn => exact (hs n hn).symm

theorem NamesIn.bind {s : Scope β} (h : NamesIn N s) (hn : n ∈ N) : NamesIn N (s.bind n v) := by
  intro m hm
  have hne : m ≠ n := fun heq => hm (heq ▸ hn)
  exact (Function.update_of_ne hne _ _).trans (h m hm)

theorem NamesIn.erase {s : Scope β} (h : NamesIn N s) : NamesIn N (s.erase n) := by
  intro m hm
  by_cases heq : m = n
  · rw [heq]
    exact Function.update_self ..
  · exact (Function.update_of_ne heq _ _).trans (h m hm)

/-- Inside a helper only these names are bound or put aside. -/
structure EnteredIn (N : Finset String) (e : Entered β) : Prop where
  scope : NamesIn N e.scope
  shadowed : ∀ p ∈ e.shadowed, p.1 ∈ N

theorem EnteredIn.enter {e : Entered β} (h : EnteredIn N e) (hn : n ∈ N) :
    EnteredIn N (e.enter n v) := by
  unfold Entered.enter
  split
  · refine ⟨h.scope.bind hn, fun p hp => ?_⟩
    rcases List.mem_append.mp hp with hp | hp
    · exact h.shadowed p hp
    · rw [List.mem_singleton.mp hp]
      exact hn
  · exact ⟨h.scope.bind hn, h.shadowed⟩

theorem NamesIn.enter {s : Scope β} (h : NamesIn N s) {ps : List (String × β)}
    (hps : ∀ p ∈ ps, p.1 ∈ N) : EnteredIn N (s.enter ps) := by
  have hfold : ∀ (ps : List (String × β)) (e : Entered β), EnteredIn N e → (∀ p ∈ ps, p.1 ∈ N) →
      EnteredIn N (ps.foldl (fun e p => e.enter p.1 p.2) e) := by
    intro ps
    induction ps with
    | nil => exact fun e he _ => he
    | cons p ps ih =>
      exact fun e he hps => ih _ (he.enter (hps p List.mem_cons_self))
        fun q hq => hps q (List.mem_cons_of_mem _ hq)
  exact hfold ps _ ⟨h, fun p hp => by cases hp⟩ hps

theorem EnteredIn.leave {e : Entered β} (h : EnteredIn N e) {s : Scope β} (hs : NamesIn N s) :
    NamesIn N (e.leave s) := by
  have hshadowed : ∀ (l : List (String × β)) (s : Scope β), NamesIn N s → (∀ p ∈ l, p.1 ∈ N) →
      NamesIn N (l.foldl (fun s p => s.bind p.1 p.2) s) := by
    intro l
    induction l with
    | nil => exact fun s hs _ => hs
    | cons p l ih =>
      exact fun s hs hl => ih _ (hs.bind (hl p List.mem_cons_self))
        fun q hq => hl q (List.mem_cons_of_mem _ hq)
  have hadded : ∀ (l : List String) (s : Scope β), NamesIn N s →
      NamesIn N (l.foldl Scope.erase s) := by
    intro l
    induction l with
    | nil => exact fun s hs => hs
    | cons m l ih => exact fun s hs => ih _ hs.erase
  exact hadded _ _ (hshadowed _ _ hs h.shadowed)

def Env.helperBodies (env : Env) : List Expression :=
  env.helpers.flatMap fun h => match h.target with
    | .inlined _ (some body) => [body]
    | _ => []

/-- The parameters of the helpers. -/
def Env.helperParams (env : Env) : Finset String :=
  (env.helpers.flatMap fun h => match h.target with
    | .inlined paramNames _ => paramNames
    | _ => []).toFinset

theorem helper_mem {e : Expression} (h : e.helper env = some (ps, body)) :
    ∃ hp ∈ env.helpers, hp.target = .inlined ps (some body) := by
  cases e with
  | call recv op typeArgs args =>
    rw [Expression.helper] at h
    split at h
    · cases h
    split at h
    · cases h
    split at h
    next paramNames body' htarget =>
      split at h
      · cases h
      cases h
      unfold Env.resolveCall at htarget
      cases hfind : env.helpers.find? fun h =>
        h.recv = recv ∧ h.op = op ∧ h.arity = args.length with
      | none =>
        rw [hfind] at htarget
        cases htarget
      | some hp =>
        rw [hfind] at htarget
        exact ⟨hp, List.mem_of_find?_eq_some hfind, htarget⟩
    · cases h
  | _ => cases h

theorem helperBodies_of_helper {e : Expression} (h : e.helper env = some (ps, body)) :
    body ∈ env.helperBodies := by
  obtain ⟨hp, hmem, htarget⟩ := helper_mem h
  rw [Env.helperBodies, List.mem_flatMap]
  exact ⟨hp, hmem, by rw [htarget]; exact List.mem_singleton_self body⟩

theorem helperParams_of_helper {e : Expression} (h : e.helper env = some (ps, body)) (hn : n ∈ ps) :
    n ∈ env.helperParams := by
  obtain ⟨hp, hmem, htarget⟩ := helper_mem h
  rw [Env.helperParams, List.mem_toFinset, List.mem_flatMap]
  exact ⟨hp, hmem, by rw [htarget]; exact hn⟩

theorem NamesIn.enter_helper {e : Expression} {Γ : Scope Bool} (hΓ : NamesIn env.helperParams Γ)
    (h : e.helper env = some (ps, body)) (rs : List Bool) :
    EnteredIn env.helperParams (Γ.enter (ps.zip rs)) :=
  hΓ.enter fun _ hp => helperParams_of_helper h (List.of_mem_zip hp).1

theorem Ranks.namesIn (h : Ranks env es Γ r) (hΓ : NamesIn env.helperParams Γ) :
    ∀ p, r = some p → NamesIn env.helperParams p.2 := by
  induction h with
  | nil =>
    rintro _ ⟨⟩
    exact hΓ
  | refused | operand | mismatch | body => nofun
  | node _ _ _ _ _ ih ihes =>
    intro p hp
    obtain ⟨q, hq, rfl⟩ := Option.map_eq_some_iff.mp hp
    exact ihes (ih hΓ _ rfl) q hq
  | inlined _ _ hh _ _ ih ihb ihes =>
    intro p hp
    obtain ⟨q, hq, rfl⟩ := Option.map_eq_some_iff.mp hp
    have hentered := (ih hΓ _ rfl).enter_helper hh
    exact ihes ((hentered _).leave (ihb (hentered _).scope _ rfl)) q hq

theorem finite_entered (env : Env) (body : Expression) :
    {s | Relation.ReflTransGen (Enters env) (body, fun _ => none) s}.Finite := by
  choose S hfin hmem hclosed using exists_finite_closure
  let E : Set Expression := ⋃ e ∈ {e | e ∈ body :: env.helperBodies}, S e
  have hE : E.Finite := (List.finite_toSet _).biUnion fun e _ => hfin e
  have hlower : ∀ e ∈ E, ∀ y ∈ e.children, y ∈ E := by
    intro e he y hy
    obtain ⟨z, hz, hez⟩ := Set.mem_iUnion₂.mp he
    exact Set.mem_biUnion hz (hclosed z e hez y hy)
  refine (hE.prod (finite_namesIn env.helperParams)).subset fun s hs => ?_
  induction hs with
  | refl => exact ⟨Set.mem_biUnion List.mem_cons_self (hmem body), fun _ _ => rfl⟩
  | tail _ hstep ih =>
    cases hstep with
    | operand ho hranks =>
      exact ⟨hlower _ ih.1 _ (operands_subset ho List.mem_append_cons_self),
        hranks.namesIn ih.2 _ rfl⟩
    | helper ho hranks hh =>
      refine ⟨Set.mem_biUnion (List.mem_cons_of_mem _ (helperBodies_of_helper hh)) (hmem _), ?_⟩
      exact (NamesIn.enter_helper (hranks.namesIn ih.2 _ rfl) hh _).scope

/-- The builder of a body comes back exactly when nothing is come to again while it is being
lowered, with the same ranks of the names in scope. -/
theorem buildDag_returns_iff (env : Env) (body : Expression) :
    (∃ fuel r, buildDag env fuel body = some r) ↔ ¬Reenters env body := by
  simp only [buildDag_isSome]
  rw [Reenters, ← EndlessRuns.acc_iff_no_return (finite_entered env body)]
  exact ⟨fun ⟨fuel, hr⟩ => acc_of_returns fuel (sound_empty env) hr,
    fun h => returns_of_acc h {} (sound_empty env) rfl⟩

/-- A call of the helper `f`. -/
def callSelf : Expression := .call "" "f" "" [.identifier "x"]

/-- A helper `f` of a scalar `x` that returns `f(x)`. -/
def selfCalling : Env where
  paramIsTensor name := if name = "x" then some false else none
  helpers := [⟨"", "f", 1, .inlined ["x"] (some callSelf)⟩]
  sourceText _ := ""

theorem identifier_accepted (env : Env) (fuel : Nat) (name : String) (d : Dag) :
    ¬Refuses (visitAll (buildNode env fuel) [.identifier name] d) := by
  intro h
  rcases h.cases_bind with ⟨err, h⟩ | ⟨a, -, h⟩
  · cases fuel with
    | zero => cases h
    | succ fuel =>
      rw [buildNode] at h
      split at h
      · cases h
      · split at h <;> cases h
  · exact not_refuses_pure _ h

theorem selfCalling_endless : ¬∃ fuel r, buildDag selfCalling fuel callSelf = some r := by
  have hnever : ∀ fuel d, ¬Returns (buildNode selfCalling fuel callSelf d) := by
    intro fuel
    induction fuel with
    | zero => rintro d ⟨r, hr⟩; cases hr
    | succ fuel ih =>
      intro d hr
      have hops : callSelf.operands selfCalling = some [.identifier "x"] := rfl
      have hbody : callSelf.helper selfCalling = some (["x"], callSelf) := rfl
      rw [buildNode_helper d fuel hops hbody] at hr
      rcases hr.cases_bind with ⟨hrefuses, -⟩ | ⟨a, -, hr⟩
      · exact identifier_accepted _ _ _ _ hrefuses
      · rcases hr.cases_bind with ⟨hrefuses, -⟩ | ⟨b, hb, -⟩
        · exact ih _ hrefuses.returns
        · exact ih _ (hb ▸ returns_pure b)
  rintro ⟨fuel, r, hr⟩
  exact hnever fuel {} ((buildDag_isSome selfCalling fuel callSelf).mp ⟨r, hr⟩)

end Inlining

end Cajeta.Transform
