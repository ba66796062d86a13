/-!
# While loops

A loop is the iteration of a body that either goes on with a new state or is done. It runs on fuel;
the rule below says how much is enough: a measure that goes down while an invariant holds.
-/

namespace While

/-- What one round of a loop comes to. -/
inductive Next (σ : Type u) (β : Type v) where
  | again (s : σ)
  | done (b : β)

/-- Repeats `body` until it is done; a loop that runs out of fuel fails with `stuck`. -/
def loop (stuck : ε) (body : σ → Except ε (Next σ β)) : (fuel : Nat) → σ → Except ε β
  | 0, _ => .error stuck
  | fuel + 1, s =>
    match body s with
    | .ok (.again s) => loop stuck body fuel s
    | .ok (.done b) => .ok b
    | .error e => .error e

theorem loop_outcome {body : σ → Except ε (Next σ β)} {I : Nat → σ → Prop}
    (Post : Except ε β → Prop)
    (round : ∀ m s, I m s → (∃ m' s', body s = .ok (.again s') ∧ I m' s' ∧ m' < m) ∨
      (∃ b, body s = .ok (.done b) ∧ Post (.ok b)) ∨ ∃ e, body s = .error e ∧ Post (.error e))
    (hs : I m s) (hfuel : m < fuel) : Post (loop stuck body fuel s) := by
  induction fuel generalizing m s with
  | zero => exact absurd hfuel (Nat.not_lt_zero _)
  | succ fuel ih =>
    rw [loop]
    rcases round m s hs with ⟨m', s', hbody, hs', hlt⟩ | ⟨b, hbody, hpost⟩ | ⟨e, hbody, hpost⟩
    · rw [hbody]
      exact ih hs' (Nat.lt_of_lt_of_le hlt (Nat.le_of_lt_succ hfuel))
    · rw [hbody]
      exact hpost
    · rw [hbody]
      exact hpost

theorem loop_ok_ranked {body : σ → Except ε (Next σ β)} {I : Nat → σ → Prop} {Post : β → Prop}
    (round : ∀ m s, I m s → (∃ m' s', body s = .ok (.again s') ∧ I m' s' ∧ m' < m) ∨
      ∃ b, body s = .ok (.done b) ∧ Post b)
    (hs : I m s) (hfuel : m < fuel) : ∃ b, loop stuck body fuel s = .ok b ∧ Post b := by
  refine loop_outcome (fun r => ∃ b, r = .ok b ∧ Post b) (fun m s hs => ?_) hs hfuel
  rcases round m s hs with hagain | ⟨b, hbody, hpost⟩
  · exact .inl hagain
  · exact .inr (.inl ⟨b, hbody, b, rfl, hpost⟩)

theorem loop_ok {body : σ → Except ε (Next σ β)} {I : σ → Prop} (size : σ → Nat)
    {Post : β → Prop}
    (round : ∀ s, I s → (∃ s', body s = .ok (.again s') ∧ I s' ∧ size s' < size s) ∨
      ∃ b, body s = .ok (.done b) ∧ Post b)
    (hs : I s) (hfuel : size s < fuel) : ∃ b, loop stuck body fuel s = .ok b ∧ Post b := by
  refine loop_ok_ranked (I := fun m s => I s ∧ size s = m) (fun m s hs => ?_) ⟨hs, rfl⟩ hfuel
  obtain ⟨hs, rfl⟩ := hs
  rcases round s hs with ⟨s', hbody, hs', hlt⟩ | hdone
  · exact .inl ⟨size s', s', hbody, ⟨hs', rfl⟩, hlt⟩
  · exact .inr hdone

theorem loop_error {body : σ → Except ε (Next σ β)} {I : σ → Prop}
    (round : ∀ s, I s → (∃ s', body s = .ok (.again s') ∧ I s') ∨ ∃ e, body s = .error e)
    (fuel : Nat) (hs : I s) : ∃ e, loop stuck body fuel s = .error e := by
  induction fuel generalizing s with
  | zero => exact ⟨stuck, rfl⟩
  | succ fuel ih =>
    rw [loop]
    rcases round s hs with ⟨s', hbody, hs'⟩ | ⟨e, hbody⟩
    · rw [hbody]
      exact ih hs'
    · rw [hbody]
      exact ⟨e, rfl⟩

theorem fold_ok {f : σ → α → Except ε σ} {I : List α → σ → Prop} (xs : List α)
    (step : ∀ done x rest s, done ++ x :: rest = xs → I done s →
      ∃ s', f s x = .ok s' ∧ I (done ++ [x]) s')
    (hs : I [] s) : ∃ s', xs.foldlM f s = .ok s' ∧ I xs s' := by
  suffices h : ∀ rest done s, done ++ rest = xs → I done s →
      ∃ s', rest.foldlM f s = .ok s' ∧ I xs s' from h xs [] s rfl hs
  intro rest
  induction rest with
  | nil =>
    intro done s hdone hs
    rw [List.append_nil] at hdone
    exact ⟨s, rfl, hdone ▸ hs⟩
  | cons x rest ih =>
    intro done s hdone hs
    obtain ⟨s', hstep, hs'⟩ := step done x rest s hdone hs
    obtain ⟨t, hrest, ht⟩ := ih (done ++ [x]) s' (by rw [← hdone, ← List.append_cons]) hs'
    refine ⟨t, ?_, ht⟩
    rw [List.foldlM_cons, hstep]
    exact hrest

end While
