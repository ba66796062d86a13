import Mathlib.Data.List.Pairwise
import Mathlib.Data.Set.Function
import Mathlib.Order.Lattice
import Mathlib.Tactic.Common
import Mathlib.Logic.Function.Basic
import Mathlib.Data.Set.Basic

/-!
# Ordered maps

A finite map over a total order: its entries in ascending order of their keys.
-/

/-- The entries are strictly ascending in their keys. -/
structure SortedMap (K V : Type*) [LinearOrder K] where
  entries : List (K × V)
  sorted : entries.Pairwise fun a b => a.1 < b.1

namespace SortedMap
variable {K V : Type*} [LinearOrder K]

def empty : SortedMap K V := ⟨[], .nil⟩

def find? (m : SortedMap K V) (k : K) : Option V := (m.entries.find? (·.1 = k)).map (·.2)

def contains (m : SortedMap K V) (k : K) : Bool := (m.find? k).isSome

def keys (m : SortedMap K V) : List K := m.entries.map (·.1)

def size (m : SortedMap K V) : Nat := m.entries.length

/-- The entries below the key, the entry, and those above. -/
def insert (m : SortedMap K V) (k : K) (v : V) : SortedMap K V where
  entries := m.entries.filter (·.1 < k) ++ (k, v) :: m.entries.filter (k < ·.1)
  sorted := by
    refine List.pairwise_append.mpr ⟨m.sorted.filter _, List.pairwise_cons.mpr
      ⟨fun e he => ?_, m.sorted.filter _⟩, fun a ha b hb => ?_⟩
    · simpa using (List.mem_filter.mp he).2
    · have hak : a.1 < k := by simpa using (List.mem_filter.mp ha).2
      rcases List.mem_cons.mp hb with rfl | hb
      · exact hak
      · exact hak.trans (by simpa using (List.mem_filter.mp hb).2)

variable {m : SortedMap K V}

theorem find?_eq_some : m.find? k = some v ↔ (k, v) ∈ m.entries := by
  simp only [find?, Option.map_eq_some_iff]
  constructor
  · rintro ⟨⟨k', v'⟩, hfind, rfl⟩
    have hk : k' = k := by simpa using List.find?_some hfind
    exact hk ▸ List.mem_of_find?_eq_some hfind
  · intro hmem
    obtain ⟨e, he⟩ : ∃ e, m.entries.find? (·.1 = k) = some e :=
      Option.isSome_iff_exists.mp (List.find?_isSome.mpr ⟨_, hmem, by simp⟩)
    have hk : e.1 = k := by simpa using List.find?_some he
    refine ⟨e, he, ?_⟩
    by_contra hne
    -- Two entries under one key are not in strict order.
    have hdiff : e ≠ (k, v) := fun heq => hne (congrArg Prod.snd heq)
    have hlt : m.entries.Pairwise fun a b => a.1 ≠ b.1 := m.sorted.imp ne_of_lt
    have : Std.Symm fun a b : K × V => a.1 ≠ b.1 := ⟨fun _ _ => Ne.symm⟩
    exact hlt.forall (List.mem_of_find?_eq_some he) hmem hdiff hk

theorem find?_eq_none : m.find? k = none ↔ ∀ e ∈ m.entries, e.1 ≠ k := by
  simp [find?]

theorem isSome_find? : (m.find? k).isSome ↔ k ∈ m.keys := by
  simp [find?, keys]

theorem mem_entries_insert : e ∈ (m.insert k v).entries ↔ e = (k, v) ∨ e ∈ m.entries ∧ e.1 ≠ k := by
  simp only [insert, List.mem_append, List.mem_filter, List.mem_cons, decide_eq_true_eq,
    ne_iff_lt_or_gt]
  tauto

theorem find?_insert (k k' : K) (v : V) :
    (m.insert k v).find? k' = if k = k' then some v else m.find? k' := by
  refine Option.ext fun w => ?_
  rw [find?_eq_some, mem_entries_insert]
  split
  · next hk =>
    subst hk
    simp [eq_comm]
  · next hk => simp [find?_eq_some, Ne.symm hk]

theorem insert_entries {A B C : List (K × V)} (h : m.entries = A ++ B ++ C)
    (hA : ∀ e ∈ A, e.1 < k) (hB : ∀ e ∈ B, e.1 = k) (hC : ∀ e ∈ C, k < e.1) :
    (m.insert k v).entries = A ++ (k, v) :: C := by
  have hlow : m.entries.filter (·.1 < k) = A := by
    rw [h, List.filter_append, List.filter_append, List.filter_eq_self.mpr (by simpa using hA),
      List.filter_eq_nil_iff.mpr fun e he => by simp [hB e he],
      List.filter_eq_nil_iff.mpr fun e he => by simpa using (hC e he).le, List.append_nil,
      List.append_nil]
  have hhigh : m.entries.filter (k < ·.1) = C := by
    rw [h, List.filter_append, List.filter_append,
      List.filter_eq_nil_iff.mpr fun e he => by simpa using (hA e he).le,
      List.filter_eq_nil_iff.mpr fun e he => by simp [hB e he],
      List.filter_eq_self.mpr (by simpa using hC), List.nil_append, List.nil_append]
  simp only [insert, hlow, hhigh]

/-! ## Sequences of writes -/

/-- The map that a sequence of writes leaves. -/
def written (entries : List (K × V)) : K → Option V :=
  entries.foldl (fun (f : K → Option V) e => Function.update f e.1 (some e.2)) fun _ => none

theorem find?_foldl_insert (entries : List (K × V)) (m : SortedMap K V) (f : K → Option V)
    (h : ∀ k, m.find? k = f k) (k : K) :
    (entries.foldl (fun m e => m.insert e.1 e.2) m).find? k =
      entries.foldl (fun (f : K → Option V) e => Function.update f e.1 (some e.2)) f k := by
  induction entries generalizing m f with
  | nil => exact h k
  | cons e entries ih =>
    refine ih _ _ fun k' => ?_
    simp only [SortedMap.find?_insert, Function.update_apply, h, eq_comm]

theorem find?_foldl_insert_entries (m other : SortedMap K V) (k : K) :
    (other.entries.foldl (fun m e => m.insert e.1 e.2) m).find? k =
      (other.find? k).or (m.find? k) := by
  obtain ⟨entries, hsorted⟩ := other
  unfold find?
  dsimp only
  induction entries generalizing m with
  | nil => rfl
  | cons e entries ih =>
    rw [List.pairwise_cons] at hsorted
    rw [List.foldl_cons, ih _ hsorted.2]
    change _ = ((List.find? _ (e :: entries)).map _).or (m.find? k)
    rw [List.find?_cons]
    by_cases hk : e.1 = k
    · have hnone : entries.find? (·.1 = k) = none :=
        List.find?_eq_none.mpr fun e' he' => by simpa using hk ▸ (hsorted.1 e' he').ne'
      rw [hnone]
      change (m.insert e.1 e.2).find? k = _
      rw [find?_insert, if_pos hk]
      simp [hk]
    · change Option.or _ ((m.insert e.1 e.2).find? k) = _
      rw [find?_insert, if_neg hk]
      simp [hk]

theorem isSome_written (entries : List (K × V)) (k : K) :
    (written entries k).isSome ↔ k ∈ entries.map Prod.fst := by
  suffices h : ∀ f : K → Option V, (entries.foldl (fun (f : K →
    Option V) e => Function.update f e.1 (some e.2)) f
      k).isSome ↔ (f k).isSome ∨ k ∈ entries.map Prod.fst by
    simpa [written] using h fun _ => none
  intro f
  induction entries generalizing f with
  | nil => simp
  | cons e entries ih =>
    rw [List.foldl_cons, ih, Function.update_apply, List.map_cons, List.mem_cons]
    split
    · simp [*]
    · simp [*]

end SortedMap

/-!
# Maps that remember the order of insertion

A map together with the list of its keys, each once, in the order they were first set.
-/

namespace Cajeta

structure OrderedMap (κ α : Type*) where
  keys : List κ
  find? : κ → Option α
  nodup : keys.Nodup
  mem_keys : ∀ k, k ∈ keys ↔ (find? k).isSome

namespace OrderedMap
variable {κ α : Type*}

def empty : OrderedMap κ α := ⟨[], fun _ => none, .nil, by simp⟩

@[simp] theorem find?_empty : (empty : OrderedMap κ α).find? k = none := rfl

theorem mem_keys_of_find? {m : OrderedMap κ α} (h : m.find? k = some a) : k ∈ m.keys :=
  (m.mem_keys k).mpr (by rw [h]; rfl)

theorem find?_of_mem_keys {m : OrderedMap κ α} (h : k ∈ m.keys) : ∃ a, m.find? k = some a :=
  Option.isSome_iff_exists.mp ((m.mem_keys k).mp h)

variable [DecidableEq κ]

/-- Replaces the value under a key, or adds the key at the end. -/
def set (m : OrderedMap κ α) (k : κ) (a : α) : OrderedMap κ α where
  keys := if k ∈ m.keys then m.keys else m.keys ++ [k]
  find? := Function.update m.find? k (some a)
  nodup := by
    split
    · exact m.nodup
    · next hk => exact List.nodup_append.mpr ⟨m.nodup, by simp, by grind⟩
  mem_keys := by
    intro j
    have hj := m.mem_keys j
    by_cases hjk : j = k
    · subst hjk; split <;> simp_all
    · rw [Function.update_of_ne hjk, ← hj]
      split <;> simp [hjk]

@[simp] theorem find?_set_self (m : OrderedMap κ α) : (m.set k a).find? k = some a :=
  Function.update_self ..

theorem find?_set_of_ne (m : OrderedMap κ α) (h : j ≠ k) : (m.set k a).find? j = m.find? j :=
  Function.update_of_ne h ..

theorem find?_set (m : OrderedMap κ α) (j k : κ) (a : α) :
    (m.set k a).find? j = if j = k then some a else m.find? j :=
  Function.update_apply ..

theorem keys_set_of_mem {m : OrderedMap κ α} (h : k ∈ m.keys) : (m.set k a).keys = m.keys :=
  if_pos h

theorem keys_prefix_set (m : OrderedMap κ α) (k : κ) (a : α) : m.keys <+: (m.set k a).keys := by
  unfold set
  split
  · exact List.prefix_refl _
  · exact List.prefix_append _ _

end OrderedMap
/-!
## Selecting one candidate for each name

The general shape of a dependency problem. Some demands are made at the root, a chosen candidate
makes further ones, and a selection answers the problem when every demand it gives rise to is met
by the candidate it chose. Demands gathered on the way to an answer are judged against an answer
that exists: when it meets them all so far, and each candidate's demands are covered by those of
the answer's own candidate, it meets them all in the end. Demands of a candidate that another one
replaces and covers rule nothing out.
-/

/-- Demands of type `D` on names `N`, made at the root and by the candidates `V` on offer. -/
structure Requirements (N V D : Type*) where
  offered : N → Set V
  roots : Set D
  declares : N → V → Set D
  target : D → N
  Admits : V → D → Prop

namespace Requirements
variable {N V D : Type*} (R : Requirements N V D)

/-- A selection chooses among what is offered. -/
def Offers (sel : N → Option V) : Prop := ∀ n v, sel n = some v → v ∈ R.offered n

/-- A demand is met by the candidate chosen for its name. -/
def Meets (sel : N → Option V) (d : D) : Prop := ∃ v, sel (R.target d) = some v ∧ R.Admits v d

/-- The demands a selection gives rise to. -/
def Demanded (sel : N → Option V) (d : D) : Prop :=
  d ∈ R.roots ∨ ∃ n v, sel n = some v ∧ d ∈ R.declares n v

def Solves (sel : N → Option V) : Prop := R.Offers sel ∧ ∀ d, R.Demanded sel d → R.Meets sel d

/-- What the demands made of a name allow for it. -/
def Allows (sel : N → Option V) (n : N) (u : V) : Prop :=
  u ∈ R.offered n ∧ ∀ d, R.Demanded sel d → R.target d = n → R.Admits u d

/-- `w` demands at least what `v` does: something of each name, and whatever does there for `w`
does for `v`. -/
def Covers (n : N) (w v : V) : Prop :=
  ∀ d ∈ R.declares n v, (∃ d' ∈ R.declares n w, R.target d' = R.target d) ∧
    ∀ u ∈ R.offered (R.target d),
      (∀ d' ∈ R.declares n w, R.target d' = R.target d → R.Admits u d') → R.Admits u d

variable {R}

theorem Covers.of_subset (h : R.declares n v ⊆ R.declares n w) : R.Covers n w v :=
  fun d hd => ⟨⟨d, h hd, rfl⟩, fun _ _ hw => hw d (h hd) rfl⟩

/-- When a candidate is replaced by one that covers it, what is allowed then was allowed before. -/
theorem Allows.of_covers [DecidableEq N] {sel : N → Option V}
    (h : R.Allows (Function.update sel n (some w)) k u)
    (hc : ∀ v, sel n = some v → R.Covers n w v) : R.Allows sel k u := by
  refine ⟨h.1, fun d hd ht => ?_⟩
  obtain hroot | ⟨j, v, hv, hdecl⟩ := hd
  · exact h.2 d (.inl hroot) ht
  · by_cases hj : j = n
    · subst hj
      refine (hc v hv d hdecl).2 u (ht ▸ h.1) fun d' hd' ht' => ?_
      exact h.2 d' (.inr ⟨j, w, Function.update_self .., hd'⟩) (ht'.trans ht)
    · exact h.2 d (.inr ⟨j, v, (Function.update_of_ne hj ..).trans hv, hdecl⟩) ht

theorem Solves.meets_root {sel : N → Option V} (h : R.Solves sel) (hd : d ∈ R.roots) :
    R.Meets sel d :=
  h.2 d (.inl hd)

theorem Solves.meets_covered {sel : N → Option V} (h : R.Solves sel) (hw : sel n = some w)
    (hc : R.Covers n w v) (hd : d ∈ R.declares n v) : R.Meets sel d := by
  have hmeets : ∀ d' ∈ R.declares n w, R.Meets sel d' :=
    fun d' hd' => h.2 d' (.inr ⟨n, w, hw, hd'⟩)
  obtain ⟨⟨d', hd', ht⟩, hall⟩ := hc d hd
  obtain ⟨u, hu, -⟩ := hmeets d' hd'
  rw [ht] at hu
  refine ⟨u, hu, hall u (h.1 _ u hu) fun e he hte => ?_⟩
  obtain ⟨u', hu', hadm⟩ := hmeets e he
  rw [hte, hu] at hu'
  cases hu'
  exact hadm

end Requirements

theorem find?_eq_of_mutual {l : List α} {p q : α → Bool} (hp : l.find? p = some a)
    (hq : l.find? q = some b) (hqa : q a = true) (hpb : p b = true) : a = b := by
  induction l with
  | nil => cases hp
  | cons x xs ih =>
    rw [List.find?_cons] at hp hq
    cases hpx : p x <;> cases hqx : q x <;> simp only [hpx, hqx] at hp hq
    · exact ih hp hq
    · cases hq; rw [hpx] at hpb; cases hpb
    · cases hp; rw [hqx] at hqa; cases hqa
    · cases hp; cases hq; rfl

end Cajeta
