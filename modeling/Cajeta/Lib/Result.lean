import Mathlib.Data.List.Forall2
import Mathlib.Tactic.Common

/-!
# Guarded computations

Inversion lemmas for `Except` programs written as a sequence of guards. A successful run is the
conjunction of what each guard demands, so a specification of such a program is read off with
`simp only` and one `obtain`.
-/

namespace Except

theorem bind_eq_ok {x : Except ε α} {k : α → Except ε β} :
    x >>= k = .ok b ↔ ∃ a, x = .ok a ∧ k a = .ok b := by
  cases x <;> simp [bind, Except.bind]

theorem ok_bind {k : α → Except ε β} : (Except.ok a >>= k) = k a := rfl

theorem pure_eq_ok {a b : α} : (pure a : Except ε α) = .ok b ↔ a = b := by
  simp [pure, Except.pure]

/-- The guard that refuses with `e` unless `c` holds. -/
def require (c : Prop) [Decidable c] (e : ε) : Except ε Unit := if c then .ok () else .error e

theorem require_eq_ok {c : Prop} [Decidable c] {e : ε} {u : Unit} :
    require c e = .ok u ↔ c := by
  unfold require; split <;> simp_all

/-- The answer, or the refusal `e` when there is none. -/
def orThrow (x : Option α) (e : ε) : Except ε α := x.elim (.error e) .ok

theorem orThrow_eq_ok {x : Option α} {e : ε} : orThrow x e = .ok a ↔ x = some a := by
  cases x <;> simp [orThrow]

/-- Rewrites the text of a refusal. -/
def wrap (x : Except ε α) (f : ε → ε') : Except ε' α := x.mapError f

theorem wrap_eq_ok {x : Except ε α} {f : ε → ε'} : wrap x f = .ok a ↔ x = .ok a := by
  cases x <;> simp [wrap, Except.mapError]

theorem mapM_of_forall₂ {f : α → Except ε β} {xs : List α} {ys : List β}
    (h : List.Forall₂ (fun x y => f x = .ok y) xs ys) : xs.mapM f = .ok ys := by
  induction h with
  | nil => rfl
  | cons hx _ ih => rw [List.mapM_cons, hx, ok_bind, ih]; rfl

theorem mapM_range {f : Nat → Except ε β} {ys : List β}
    (h : ∀ i (hi : i < ys.length), f i = .ok ys[i]) : (List.range ys.length).mapM f = .ok ys := by
  refine mapM_of_forall₂ (List.forall₂_iff_get.mpr ⟨List.length_range, fun i _ hi => ?_⟩)
  rw [List.get_eq_getElem, List.getElem_range, List.get_eq_getElem]
  exact h i hi

theorem forM_eq_ok {f : α → Except ε Unit} {xs : List α} :
    xs.forM f = .ok () ↔ ∀ x ∈ xs, f x = .ok () := by
  rw [List.forM_eq_forM]
  induction xs with
  | nil => simp [pure_eq_ok]
  | cons x xs ih =>
    rw [List.forM_cons, bind_eq_ok, List.forall_mem_cons, ← ih]
    exact ⟨fun ⟨_, hx, hxs⟩ => ⟨hx, hxs⟩, fun ⟨hx, hxs⟩ => ⟨(), hx, hxs⟩⟩

theorem exists_of_forM_eq_error {f : α → Except ε Unit} {xs : List α} (h : xs.forM f = .error e) :
    ∃ x ∈ xs, f x = .error e := by
  rw [List.forM_eq_forM] at h
  induction xs with
  | nil => cases h
  | cons x xs ih =>
    rw [List.forM_cons] at h
    cases hx : f x with
    | ok u =>
      rw [hx, ok_bind] at h
      obtain ⟨y, hy, hfy⟩ := ih h
      exact ⟨y, List.mem_cons_of_mem _ hy, hfy⟩
    | error e' =>
      rw [hx] at h
      cases h
      exact ⟨x, List.mem_cons_self, hx⟩

end Except

/-!
## With a state

`EStateM` keeps the state a refusal was reached in, so what was remembered on the way is not lost.
-/

namespace EStateM

/-- The failure that a run ended with, if any. -/
def failureOf : EStateM.Result ε σ α → Option ε
  | .ok _ _ => none
  | .error e _ => some e

theorem bind_eq_ok {x : EStateM ε σ α} {k : α → EStateM ε σ β} {s s'' : σ} :
    (x >>= k) s = .ok b s'' ↔ ∃ a s', x s = .ok a s' ∧ k a s' = .ok b s'' := by
  change EStateM.bind x k s = _ ↔ _
  unfold EStateM.bind
  cases x s <;> simp

theorem bind_of_ok {x : EStateM ε σ α} {k : α → EStateM ε σ β} {s s' : σ} (h : x s = .ok a s') :
    (x >>= k) s = k a s' := by
  change EStateM.bind x k s = _
  unfold EStateM.bind
  rw [h]

theorem bind_of_error {x : EStateM ε σ α} {k : α → EStateM ε σ β} {s s' : σ}
    (h : x s = .error e s') : (x >>= k) s = .error e s' := by
  change EStateM.bind x k s = _
  unfold EStateM.bind
  rw [h]

theorem pure_eq_ok {a b : α} {s s' : σ} :
    (pure a : EStateM ε σ α) s = .ok b s' ↔ a = b ∧ s = s' := by
  simp [pure, EStateM.pure]

theorem modify_eq {f : σ → σ} {s : σ} :
    (modify f : EStateM ε σ PUnit) s = .ok ⟨⟩ (f s) := rfl

/-- A computation that neither reads nor changes the state. -/
def ofResult (x : Except ε α) : EStateM ε σ α := fun s =>
  match x with
  | .ok a => .ok a s
  | .error e => .error e s

theorem ofResult_eq_ok {x : Except ε α} {s s' : σ} :
    (ofResult x : EStateM ε σ α) s = .ok a s' ↔ x = .ok a ∧ s = s' := by
  cases x <;> simp [ofResult]

/-- Rewrites the text of a refusal. -/
def wrap (x : EStateM ε σ α) (f : ε → ε') : EStateM ε' σ α := fun s =>
  match x s with
  | .ok a s' => .ok a s'
  | .error e s' => .error (f e) s'

theorem wrap_eq_ok {x : EStateM ε σ α} {f : ε → ε'} {s s' : σ} :
    wrap x f s = .ok a s' ↔ x s = .ok a s' := by
  unfold wrap
  cases x s <;> simp

/-- The state after a computation, whether it succeeded or refused. -/
def Result.state : Result ε σ α → σ
  | .ok _ s => s
  | .error _ s => s

/-- From a state with `P`, the computation ends in one with `Q`, whether it succeeds or refuses. -/
def Leads (P : σ → Prop) (x : EStateM ε σ α) (Q : σ → Prop) : Prop := ∀ s, P s → Q (x s).state

namespace Leads
variable {P Q R : σ → Prop}

/-- The rest of a computation may use the value the first part returned, and from which state. -/
theorem bind_ok {x : EStateM ε σ α} {k : α → EStateM ε σ β} (hx : Leads P x R)
    (hR : ∀ s, R s → Q s)
    (hk : ∀ s a s', P s → R s' → x s = .ok a s' → Q (k a s').state) : Leads P (x >>= k) Q := by
  intro s hs
  have hxs := hx s hs
  change Q (EStateM.bind x k s).state
  unfold EStateM.bind
  cases hrun : x s with
  | ok a s' => exact hk s a s' hs (by simpa [hrun, Result.state] using hxs) hrun
  | error e s' => exact hR s' (by simpa [hrun, Result.state] using hxs)

theorem bind {x : EStateM ε σ α} {k : α → EStateM ε σ β} (hx : Leads P x R)
    (hR : ∀ s, R s → Q s) (hk : ∀ a, Leads R (k a) Q) : Leads P (x >>= k) Q :=
  hx.bind_ok hR fun _ a s' _ hs' _ => hk a s' hs'

theorem pure {a : α} : Leads P (Pure.pure a : EStateM ε σ α) P := fun _ hs => hs

theorem ofResult {x : Except ε α} : Leads P (EStateM.ofResult x : EStateM ε σ α) P := by
  intro s hs
  cases x <;> exact hs

theorem wrap {x : EStateM ε σ α} {f : ε → ε'} (hx : Leads P x Q) :
    Leads P (EStateM.wrap x f) Q := by
  intro s hs
  have hxs := hx s hs
  unfold EStateM.wrap
  cases hrun : x s <;> simpa [hrun, Result.state] using hxs

theorem mono {x : EStateM ε σ α} (hx : Leads P x R) (hR : ∀ s, R s → Q s) : Leads P x Q :=
  fun s hs => hR _ (hx s hs)

end Leads
end EStateM
