import Mathlib.Data.List.Infix

/-!
# First occurrences

`find needle l` is the position of the first occurrence of `needle` in `l`, `after` what follows it.
The last section reads quoted keys: a needle of the form `"key"tail` is skipped over segments of the
text that hold no quote, so that its first occurrence is found by looking at whole segments.
`replaced` puts another text in the place of each occurrence, from left to right.
-/

namespace Substring
variable {α : Type}

/-- The text `"key"tail` for the quote `q`. -/
def quoted (q : α) (key tail : List α) : List α := q :: (key ++ q :: tail)

theorem quoted_isPrefix {q : α} {key tail u rest : List α} (hkey : q ∉ key) (hu : q ∉ u) :
    quoted q key tail <+: q :: (u ++ q :: rest) ↔ key = u ∧ tail <+: rest := by
  unfold quoted
  rw [List.cons_prefix_cons]
  simp only [true_and]
  induction key generalizing u with
  | nil =>
    cases u with
    | nil => simp [List.cons_prefix_cons]
    | cons c u =>
      have : q ≠ c := fun h => hu (h ▸ List.mem_cons_self)
      simp [List.cons_prefix_cons, this]
  | cons k key ih =>
    have hk : k ≠ q := fun h => hkey (h ▸ List.mem_cons_self)
    cases u with
    | nil => simp [List.cons_prefix_cons, hk]
    | cons c u =>
      simp only [List.cons_append, List.cons_prefix_cons, List.cons.injEq,
        ih (fun h => hkey (List.mem_cons_of_mem _ h)) (fun h => hu (List.mem_cons_of_mem _ h)),
        and_assoc]

variable [DecidableEq α]

def find (needle : List α) : List α → Option Nat
  | [] => if needle = [] then some 0 else none
  | c :: cs => if needle <+: c :: cs then some 0 else (find needle cs).map (· + 1)

/-- What follows the first occurrence. -/
def after (needle l : List α) : Option (List α) :=
  (find needle l).map fun i => l.drop (i + needle.length)

/-- What stands before the first `c`, if there is one. -/
def upTo (c : α) (l : List α) : Option (List α) :=
  if c ∈ l then some (l.takeWhile (· ≠ c)) else none

theorem after_cons (needle : List α) (c : α) (cs : List α) :
    after needle (c :: cs) =
      if needle <+: c :: cs then some ((c :: cs).drop needle.length) else after needle cs := by
  unfold after
  rw [find]
  split
  · simp
  · rw [Option.map_map]
    congr 1
    funext i
    simp only [Function.comp_apply]
    rw [Nat.add_right_comm, List.drop_succ_cons]

theorem after_append (needle l : List α) (hne : needle ≠ []) :
    after needle (needle ++ l) = some l := by
  obtain ⟨c, cs, rfl⟩ := List.exists_cons_of_ne_nil hne
  rw [List.cons_append, after_cons,
    if_pos (by rw [← List.cons_append]; exact List.prefix_append _ _),
    ← List.cons_append, List.drop_left]

theorem after_nil (hne : needle ≠ []) : after needle ([] : List α) = none := by
  simp [after, find, hne]

theorem upTo_append {c : α} {u : List α} (hu : c ∉ u) (l : List α) :
    upTo c (u ++ c :: l) = some u := by
  rw [upTo, if_pos (by simp), List.takeWhile_append_of_pos fun a ha => by
    simp only [ne_eq, decide_eq_true_eq]
    rintro rfl
    exact hu ha]
  simp

theorem after_skip {q : α} {u : List α} (hu : q ∉ u) (needle rest : List α) :
    after (q :: needle) (u ++ rest) = after (q :: needle) rest := by
  induction u with
  | nil => rfl
  | cons c u ih =>
    have hc : ¬ q :: needle <+: c :: (u ++ rest) := by
      rintro ⟨l, hl⟩
      exact hu (by rw [List.cons_append] at hl; rw [(List.cons.inj hl).1]; exact List.mem_cons_self)
    rw [List.cons_append, after_cons, if_neg hc, ih fun h => hu (List.mem_cons_of_mem _ h)]

theorem after_quoted {q : α} {key tail u : List α} (hkey : q ∉ key) (hu : q ∉ u) (rest : List α) :
    after (quoted q key tail) (q :: (u ++ q :: rest)) =
      if key = u ∧ tail <+: rest then some (rest.drop tail.length)
      else after (quoted q key tail) (q :: rest) := by
  rw [after_cons]
  simp only [quoted_isPrefix hkey hu]
  split
  · next h =>
    obtain ⟨rfl, tail', rfl⟩ := h
    congr 1
    have hsplit : q :: (key ++ q :: (tail ++ tail')) = quoted q key tail ++ tail' := by
      simp [quoted]
    rw [hsplit, List.drop_left, List.drop_left]
  · exact after_skip hu _ _

theorem after_quoted_last {q : α} {key tail u : List α} (hu : q ∉ u) :
    after (quoted q key tail) (q :: u) = none := by
  have hnot : ¬ quoted q key tail <+: q :: u := by
    rintro ⟨l, hl⟩
    refine hu ?_
    rw [← (List.cons.inj hl).2]
    simp
  have hskip := after_skip hu (key ++ q :: tail) []
  rw [List.append_nil] at hskip
  rw [after_cons, if_neg hnot]
  exact hskip.trans (after_nil (List.cons_ne_nil _ _))

/-! ## Replacement -/

/-- Where an occurrence ends the next one may begin. -/
def replaced (pat repl : List α) : List α → List α
  | [] => []
  | c :: cs =>
    if pat ≠ [] ∧ pat <+: c :: cs then repl ++ replaced pat repl ((c :: cs).drop pat.length)
    else c :: replaced pat repl cs
termination_by l => l.length
decreasing_by
  · next h =>
    have := List.length_pos_iff.mpr h.1
    simp only [List.length_drop, List.length_cons]
    omega
  · simp

def occurrences (pat : List α) : List α → Nat
  | [] => 0
  | c :: cs =>
    if pat ≠ [] ∧ pat <+: c :: cs then occurrences pat ((c :: cs).drop pat.length) + 1
    else occurrences pat cs
termination_by l => l.length
decreasing_by
  · next h =>
    have := List.length_pos_iff.mpr h.1
    simp only [List.length_drop, List.length_cons]
    omega
  · simp

@[simp] theorem replaced_nil (pat repl : List α) : replaced pat repl [] = [] := by
  rw [replaced]

@[simp] theorem occurrences_nil (pat : List α) : occurrences pat [] = 0 := by
  rw [occurrences]

theorem replaced_of_match {pat l : List α} (repl : List α) (hne : pat ≠ []) (h : pat <+: l) :
    replaced pat repl l = repl ++ replaced pat repl (l.drop pat.length) := by
  cases l with
  | nil => exact absurd (List.prefix_nil.mp h) hne
  | cons c cs => rw [replaced, if_pos ⟨hne, h⟩]

theorem replaced_of_no_match {pat cs : List α} (repl : List α) (h : ¬pat <+: c :: cs) :
    replaced pat repl (c :: cs) = c :: replaced pat repl cs := by
  rw [replaced, if_neg fun h' => h h'.2]

theorem occurrences_of_match {pat l : List α} (hne : pat ≠ []) (h : pat <+: l) :
    occurrences pat l = occurrences pat (l.drop pat.length) + 1 := by
  cases l with
  | nil => exact absurd (List.prefix_nil.mp h) hne
  | cons c cs => rw [occurrences, if_pos ⟨hne, h⟩]

theorem occurrences_of_no_match {pat cs : List α} (h : ¬pat <+: c :: cs) :
    occurrences pat (c :: cs) = occurrences pat cs := by
  rw [occurrences, if_neg fun h' => h h'.2]

theorem occurrences_of_short {pat l : List α} (h : l.length < pat.length) :
    occurrences pat l = 0 := by
  induction l with
  | nil => exact occurrences_nil pat
  | cons c cs ih =>
    rw [occurrences_of_no_match, ih]
    · exact Nat.lt_trans (Nat.lt_succ_self _) h
    · exact fun hp => absurd hp.length_le (Nat.not_le.mpr h)

@[simp] theorem occurrences_empty (l : List α) : occurrences [] l = 0 := by
  induction l with
  | nil => exact occurrences_nil []
  | cons c cs ih => rw [occurrences, if_neg fun h => h.1 rfl, ih]

theorem occurrences_replicate (c : α) (n : Nat) :
    occurrences [c] (List.replicate n c) = n := by
  induction n with
  | zero => exact occurrences_nil _
  | succ n ih =>
    have hp : [c] <+: List.replicate (n + 1) c := ⟨List.replicate n c, rfl⟩
    rw [occurrences_of_match (List.cons_ne_nil _ _) hp, List.replicate_succ]
    simp [ih]

theorem replaced_eq_self {pat l : List α} (repl : List α) (h : occurrences pat l = 0) :
    replaced pat repl l = l := by
  induction l with
  | nil => exact replaced_nil ..
  | cons c cs ih =>
    by_cases hp : pat ≠ [] ∧ pat <+: c :: cs
    · rw [occurrences_of_match hp.1 hp.2] at h
      cases h
    · rw [occurrences, if_neg hp] at h
      rw [replaced, if_neg hp, ih h]

theorem length_replaced (pat repl l : List α) :
    (replaced pat repl l).length + occurrences pat l * pat.length =
      l.length + occurrences pat l * repl.length := by
  induction l using occurrences.induct pat with
  | case1 => simp
  | case2 c cs h ih =>
    have hlen := h.2.length_le
    rw [replaced_of_match repl h.1 h.2, occurrences_of_match h.1 h.2, List.length_append,
      Nat.add_mul, Nat.add_mul]
    rw [List.length_drop] at ih
    omega
  | case3 c cs h ih =>
    rw [replaced, occurrences, if_neg h, if_neg h, List.length_cons, List.length_cons]
    omega

end Substring
