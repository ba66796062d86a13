import Mathlib.Data.List.Basic
import Mathlib.Logic.Function.Basic

/-!
# Buffered delivery

A producer calls messages on channels, a buffer holds some of them back, and a consumer receives
them. A trace is faithful when what a channel has received is at every moment a prefix of what was
called on it, and when nothing is held back at an observation. The last section is the invariant of
a buffer with one queue a channel.
-/

namespace Delivery
variable {σ μ ο : Type} [DecidableEq σ]

inductive Event (σ μ ο : Type) where
  | called (s : σ) (p : μ)
  | received (s : σ) (p : μ)
  | observed (o : ο)
  deriving DecidableEq

def calledOn (s : σ) (t : List (Event σ μ ο)) : List μ :=
  t.filterMap fun
    | .called s' p => if s' = s then some p else none
    | _ => none

def receivedOn (s : σ) (t : List (Event σ μ ο)) : List μ :=
  t.filterMap fun
    | .received s' p => if s' = s then some p else none
    | _ => none

@[simp] theorem calledOn_nil (s : σ) : calledOn s ([] : List (Event σ μ ο)) = [] := rfl
@[simp] theorem receivedOn_nil (s : σ) : receivedOn s ([] : List (Event σ μ ο)) = [] := rfl

@[simp] theorem calledOn_append (s : σ) (t u : List (Event σ μ ο)) :
    calledOn s (t ++ u) = calledOn s t ++ calledOn s u := List.filterMap_append

@[simp] theorem receivedOn_append (s : σ) (t u : List (Event σ μ ο)) :
    receivedOn s (t ++ u) = receivedOn s t ++ receivedOn s u := List.filterMap_append

@[simp] theorem calledOn_called (s s' : σ) (p : μ) :
    calledOn s ([.called s' p] : List (Event σ μ ο)) = if s' = s then [p] else [] := by
  unfold calledOn
  split <;> simp_all

@[simp] theorem calledOn_observed (s : σ) (o : ο) :
    calledOn s ([.observed o] : List (Event σ μ ο)) = [] := rfl

@[simp] theorem receivedOn_called (s s' : σ) (p : μ) :
    receivedOn s ([.called s' p] : List (Event σ μ ο)) = [] := rfl

@[simp] theorem receivedOn_observed (s : σ) (o : ο) :
    receivedOn s ([.observed o] : List (Event σ μ ο)) = [] := rfl

@[simp] theorem calledOn_received (s s' : σ) (ps : List μ) :
    calledOn s (ps.map (.received s') : List (Event σ μ ο)) = [] := by
  simp [calledOn]

@[simp] theorem receivedOn_received (s s' : σ) (ps : List μ) :
    receivedOn s (ps.map (.received s') : List (Event σ μ ο)) = if s' = s then ps else [] := by
  unfold receivedOn
  split <;> simp_all [List.filterMap_map]

/-- In call order, once each, and complete whenever somebody looks. -/
structure Faithful (t : List (Event σ μ ο)) : Prop where
  inOrder : ∀ pre, pre <+: t → ∀ s, receivedOn s pre <+: calledOn s pre
  flushed : ∀ pre o, pre ++ [.observed o] <+: t → ∀ s, receivedOn s pre = calledOn s pre

variable {t : List (Event σ μ ο)}

theorem Faithful.nil : Faithful ([] : List (Event σ μ ο)) where
  inOrder pre h s := by rw [List.prefix_nil.mp h]; exact List.prefix_refl _
  flushed pre o h := by cases List.append_eq_nil_iff.mp (List.prefix_nil.mp h) |>.2

theorem Faithful.concat (ht : Faithful t) (e : Event σ μ ο)
    (horder : ∀ s, receivedOn s (t ++ [e]) <+: calledOn s (t ++ [e]))
    (hflush : ∀ o, e = .observed o → ∀ s, receivedOn s t = calledOn s t) :
    Faithful (t ++ [e]) where
  inOrder pre h := by
    rcases List.prefix_concat_iff.mp h with rfl | h
    · exact horder
    · exact ht.inOrder pre h
  flushed pre o h := by
    rcases List.prefix_concat_iff.mp h with h | h
    · obtain ⟨rfl, he⟩ := List.append_inj' h rfl
      exact hflush o (List.singleton_inj.mp he).symm
    · exact ht.flushed pre o h

/-- The trace is faithful, and `q` holds what was called and is not received yet. -/
structure Holds (t : List (Event σ μ ο)) (q : σ → List μ) : Prop where
  faithful : Faithful t
  queued : ∀ s, calledOn s t = receivedOn s t ++ q s

variable {q : σ → List μ}

namespace Holds

theorem nil : Holds ([] : List (Event σ μ ο)) fun _ => [] := ⟨.nil, fun _ => rfl⟩

theorem called (h : Holds t q) (s : σ) (p : μ) :
    Holds (t ++ [.called s p]) (Function.update q s (q s ++ [p])) where
  faithful := by
    refine h.faithful.concat _ (fun s' => ?_) nofun
    simp only [receivedOn_append, receivedOn_called, List.append_nil, calledOn_append, h.queued s',
      List.append_assoc]
    exact List.prefix_append _ _
  queued s' := by
    simp only [calledOn_append, calledOn_called, receivedOn_append, receivedOn_called,
      List.append_nil, h.queued s', List.append_assoc, List.append_cancel_left_eq]
    by_cases hs : s = s'
    · subst hs
      simp
    · simp [hs, Function.update_of_ne (Ne.symm hs)]

theorem sent (h : Holds t q) (s : σ) (ps rest : List μ) (hq : q s = ps ++ rest) :
    Holds (t ++ ps.map (.received s)) (Function.update q s rest) := by
  induction ps generalizing t q with
  | nil =>
    rw [List.nil_append] at hq
    simpa [← hq] using h
  | cons p ps ih =>
    have hone : Holds (t ++ [.received s p]) (Function.update q s (ps ++ rest)) := by
      have hsingle : ([.received s p] : List (Event σ μ ο)) = [p].map (.received s) := rfl
      refine ⟨h.faithful.concat _ (fun s' => ?_) nofun, fun s' => ?_⟩
      all_goals
        rw [hsingle]
        simp only [receivedOn_append, receivedOn_received, calledOn_append, calledOn_received,
          List.append_nil, h.queued s']
        by_cases hs : s = s'
      · subst hs
        rw [if_pos rfl, hq, List.cons_append]
        exact ⟨ps ++ rest, by simp⟩
      · rw [if_neg hs, List.append_nil]
        exact List.prefix_append _ _
      · subst hs
        rw [if_pos rfl, hq, Function.update_self]
        simp
      · rw [if_neg hs, List.append_nil, Function.update_of_ne (Ne.symm hs)]
    have hrest := ih hone (by rw [Function.update_self])
    rw [Function.update_idem] at hrest
    simpa using hrest

theorem observed (h : Holds t q) (hq : ∀ s, q s = []) (o : ο) : Holds (t ++ [.observed o]) q where
  faithful := by
    refine h.faithful.concat _ (fun s => ?_) fun _ _ s => ?_
    · simp [h.queued s]
    · rw [h.queued s, hq s, List.append_nil]
  queued s := by simp [h.queued s]

theorem direct (h : Holds t q) (s : σ) (hq : q s = []) (p : μ) :
    Holds (t ++ [.called s p, .received s p]) q := by
  have hcall := h.called s p
  rw [hq, List.nil_append] at hcall
  have hsent := hcall.sent s [p] [] (by rw [Function.update_self]; rfl)
  have hupdate : Function.update q s [] = q := by rw [← hq, Function.update_eq_self]
  rw [Function.update_idem, List.append_assoc, hupdate] at hsent
  exact hsent

end Holds
end Delivery
