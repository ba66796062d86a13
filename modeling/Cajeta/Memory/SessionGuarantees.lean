import Cajeta.Memory.Session
import Mathlib.Data.List.Basic

/-!
# Every value of a session is dropped once

The invariant has three parts: what the slots say about the names, what the slots and the log say
about the values, and how the operations that wait for a drop function stand to the slots they
point to. Each operation is a few primitive changes of the state, and the parts are kept by each
of those.
-/

namespace Cajeta.Memory.Session

/-- An event may stand before another: no drop function of a value starts after it started, or
after the value was disarmed. -/
def Event.MayPrecede (e : Event) : Event → Prop
  | .started v _ => (∀ c, e ≠ .started v c) ∧ e ≠ .disarmed v
  | _ => True

namespace System

def Begun (s : System) (v : Value) : Prop := ∃ c, Event.started v c ∈ s.log

/-- The sweep is over, or it waits for the drop function of the last slot that has one. -/
def Swept (s' : System) (rest : List Frame) : Prop :=
  (s'.stack = rest ∧ s'.len = 0 ∧ ∀ i, s'.held i = none) ∨
    ∃ g i v, s'.stack = .sweep g i v :: rest ∧ s'.held i = some v ∧ ∀ j > i, s'.held j = none

/-- What the session promises about a state. -/
structure Exact (s : System) : Prop where
  running : s.fault = none
  once : s.log.Pairwise Event.MayPrecede
  dropped : .bound n v true ∈ s.log → (∃ i, s.owed i = some v) ∨ s.Begun v ∨ .disarmed v ∈ s.log
  rebound : .started v (some n) ∈ s.log → ∃ d, .bound n v d ∈ s.log
  /-- A value is in a slot after its drop function started only while it runs. -/
  unbound : s.held i = some v → s.Begun v → ∃ f ∈ s.stack, f.idx = i ∧ f.old = v
  names : ∀ i : Nat, (s.slots[i]?).bind Slot.name = some n → s.first[i]? = some n
  get : s.get n = .ok o → o = s.last n
  ended : s.len = 0 → s.owed i = none
  dropAll : s.dropAll.Swept s.stack
  resumed : s.stack = .sweep g i v :: rest → s.ret.Swept rest

/-- A name may be bound while a drop function runs: no freed name is met, no operation waits that
points into the same slot, and a new slot neither moves the others nor comes too late for a
sweep. -/
def MayBind (s : System) (name : String) (moved : Bool) : Prop :=
  match s.lookup name with
  | .error _ => False
  | .ok (some i) => ∀ f ∈ s.stack, f.idx ≠ i
  | .ok none =>
    ∀ f ∈ s.stack, (s.len = s.cap → moved = false) ∧ (f.rebound = none → s.len < f.idx)

/-- What a drop function may do. Code that is not called from one may do everything but meet a
name that an interrupted sweep has freed. -/
def Admits (s : System) : Action → Prop
  | .bind name _ _ moved => s.MayBind name moved
  | .bindValue name src size _ moved => src = true → 0 < size → s.MayBind name moved
  | .disarm name | .get name => s.lookup name ≠ .error .freedName
  | .dropAll => ∀ f ∈ s.stack, f.rebound = none ∧ s.held f.idx = none
  | .throw => ∀ f ∈ s.stack.head?, s.held f.idx ≠ some f.old
  | .count | .ret => True

instance (s : System) (name : String) (moved : Bool) : Decidable (s.MayBind name moved) :=
  match h : s.lookup name with
  | .error _ => .isFalse (by simp [MayBind, h])
  | .ok (some i) => decidable_of_iff (∀ f ∈ s.stack, f.idx ≠ i) (by simp [MayBind, h])
  | .ok none => decidable_of_iff (∀ f ∈ s.stack,
      (s.len = s.cap → moved = false) ∧ (f.rebound = none → s.len < f.idx)) (by simp [MayBind, h])

instance (s : System) : (a : Action) → Decidable (s.Admits a)
  | .bind name _ _ moved => inferInstanceAs (Decidable (s.MayBind name moved))
  | .bindValue name src size _ moved =>
    inferInstanceAs (Decidable (src = true → 0 < size → s.MayBind name moved))
  | .disarm name | .get name =>
    match h : s.lookup name with
    | .error .freedName => .isFalse fun ha => ha h
    | .error .movedSlot => .isTrue (h.trans_ne (by decide))
    | .ok o => .isTrue (h.trans_ne (by simp))
  | .dropAll =>
    inferInstanceAs (Decidable (∀ f ∈ s.stack, f.rebound = none ∧ s.held f.idx = none))
  | .throw => inferInstanceAs (Decidable (∀ f ∈ s.stack.head?, s.held f.idx ≠ some f.old))
  | .count | .ret => .isTrue trivial

end System

def blank : Slot := ⟨none, none, false⟩

namespace System

/-- A cell of the array, blank where nothing was written. -/
def cell (s : System) (i : Nat) : Slot := s.slots[i]?.getD blank

theorem held_eq (s : System) (i : Nat) : s.held i = (s.cell i).obj := by
  unfold held cell
  cases s.slots[i]? <;> rfl

theorem owed_eq (s : System) (i : Nat) :
    s.owed i = if (s.cell i).drop then (s.cell i).obj else none := by
  unfold owed cell
  cases s.slots[i]? <;> rfl

theorem name_eq (s : System) (i : Nat) : (s.slots[i]?).bind Slot.name = (s.cell i).name := by
  unfold cell
  cases s.slots[i]? <;> rfl

variable {s : System}

theorem obj_of_owed (h : s.owed i = some v) :
    (s.cell i).obj = some v ∧ (s.cell i).drop = true := by
  rw [owed_eq] at h
  split at h
  · exact ⟨h, ‹_›⟩
  · cases h

theorem cell_modify {f : Slot → Slot} (hi : i < s.slots.length ∨ f blank = blank) :
    (s.slots.modify i f)[j]?.getD blank = if j = i then f (s.cell i) else s.cell j := by
  rw [List.getElem?_modify]
  split <;> rename_i hji
  · subst hji
    rw [if_pos rfl, cell]
    cases hs : s.slots[i]? with
    | none =>
      rcases hi with hi | hi
      · rw [List.getElem?_eq_none_iff] at hs
        omega
      · simp [hi]
    | some slot => rfl
  · rw [if_neg (Ne.symm hji), cell]
    simp

theorem cell_install (hi : i < s.slots.length) : (s.install i name v d).cell j =
    if j = i then ⟨(s.cell i).name, some v, d⟩ else s.cell j :=
  cell_modify (.inl hi)

theorem cell_quiet (hi : i < s.slots.length) : (s.quiet i name).cell j =
    if j = i then ⟨(s.cell i).name, none, false⟩ else s.cell j :=
  cell_modify (.inl hi)

theorem cell_clear : (s.clear i).cell j = if j = i then blank else s.cell j :=
  cell_modify (.inr rfl)

theorem cell_append (h : s.len ≤ s.slots.length) : (s.append name v d).cell j =
    if j = s.len then ⟨some name, some v, d⟩ else s.cell j := by
  unfold cell append
  dsimp only
  split <;> rename_i hl
  · rw [List.getElem?_set]
    split <;> rename_i hj
    · rw [if_pos hj.symm]
      rfl
    · rw [if_neg (Ne.symm hj)]
  · have hl : s.slots.length = s.len := by omega
    rw [List.getElem?_append]
    split <;> rename_i hj
    · rw [if_neg (by omega)]
    · by_cases he : j = s.len
      · rw [if_pos he, he, hl, Nat.sub_self]
        rfl
      · rw [if_neg he, List.getElem?_eq_none (by simp; omega), List.getElem?_eq_none (by omega)]

theorem grow_eq : ∃ c g, s.grow moved = { s with cap := c, gen := g } := by
  unfold grow
  split
  · exact ⟨_, _, rfl⟩
  · exact ⟨s.cap, s.gen, rfl⟩

end System

/-! ## The table of names -/

theorem find_ne_moved : find name l ≠ .error .movedSlot := by
  induction l with
  | nil => simp [find]
  | cons slot l ih =>
    rw [find]
    cases slot.name with
    | none => simp
    | some n =>
      dsimp only
      split
      · simp
      · cases hf : find name l with
        | error e => simpa [Except.map, hf] using ih
        | ok o => simp [Except.map]

theorem find_some (h : find name l = .ok (some i)) :
    ∃ slot, l[i]? = some slot ∧ slot.name = some name := by
  induction l generalizing i with
  | nil => cases h
  | cons slot l ih =>
    rw [find] at h
    cases hn : slot.name with
    | none => simp [hn] at h
    | some n =>
      simp only [hn] at h
      split at h <;> rename_i hname
      · cases h
        exact ⟨slot, rfl, hname ▸ hn⟩
      · cases hf : find name l with
        | error e => simp [hf, Except.map] at h
        | ok o =>
          cases o with
          | none => simp [hf, Except.map] at h
          | some j =>
            simp only [hf, Except.map, Option.map_some, Except.ok.injEq, Option.some.injEq] at h
            subst h
            exact ih hf

theorem find_none (h : find name l = .ok none) :
    ∀ slot ∈ l, ∃ n, slot.name = some n ∧ n ≠ name := by
  induction l with
  | nil => simp
  | cons slot l ih =>
    rw [find] at h
    cases hn : slot.name with
    | none => simp [hn] at h
    | some n =>
      simp only [hn] at h
      split at h <;> rename_i hname
      · cases h
      · cases hf : find name l with
        | error e => simp [hf, Except.map] at h
        | ok o =>
          cases o with
          | none => exact List.forall_mem_cons.mpr ⟨⟨n, hn, hname⟩, ih hf⟩
          | some j => simp [hf, Except.map] at h

/-- The first `k` slots have the names in the order of first binding, the others are freed. -/
structure Table (s : System) (k : Nat) : Prop where
  len_first : s.first.length = s.len
  le_cells : s.len ≤ s.slots.length
  le_len : k ≤ s.len
  nodup : s.first.Nodup
  named : i < k → (s.cell i).name = s.first[i]?
  freed : k ≤ i → s.cell i = blank
  last : (s.cell i).name = some n → s.last n = (s.cell i).obj
  lost : (∀ i, (s.cell i).name ≠ some n) → s.last n = none

namespace Table
variable {s : System}

theorem lt_of_name (h : Table s k) (hn : (s.cell i).name = some n) : i < k := by
  refine Nat.lt_of_not_le fun hk => ?_
  rw [h.freed hk] at hn
  cases hn

theorem first_of_name (h : Table s k) (hn : (s.cell i).name = some n) : s.first[i]? = some n :=
  (h.named (h.lt_of_name hn)).symm.trans hn

theorem name_injective (h : Table s k) (hi : (s.cell i).name = some n)
    (hj : (s.cell j).name = some n) : i = j :=
  (List.getElem?_inj (h.len_first ▸ Nat.lt_of_lt_of_le (h.lt_of_name hi) h.le_len) h.nodup).mp
    ((h.first_of_name hi).trans (h.first_of_name hj).symm)

theorem lookup_some (hl : s.lookup name = .ok (some i)) : (s.cell i).name = some name := by
  obtain ⟨slot, hslot, hname⟩ := find_some hl
  rw [List.getElem?_take] at hslot
  split at hslot
  · rw [System.cell, hslot]
    exact hname
  · cases hslot

theorem lookup_none (h : Table s k) (hl : s.lookup name = .ok none) :
    k = s.len ∧ ∀ i, (s.cell i).name ≠ some name := by
  have hmem : ∀ i, i < s.len → ∃ n, (s.cell i).name = some n ∧ n ≠ name := by
    intro i hi
    have hcells := h.le_cells
    refine find_none hl _ (List.mem_iff_getElem?.mpr ⟨i, ?_⟩)
    rw [List.getElem?_take, if_pos hi, System.cell, List.getElem?_eq_getElem (by omega)]
    rfl
  refine ⟨Nat.le_antisymm h.le_len (Nat.le_of_not_lt fun hk => ?_), fun i hi => ?_⟩
  · obtain ⟨n, hn, -⟩ := hmem k hk
    rw [h.freed (Nat.le_refl k)] at hn
    cases hn
  · obtain ⟨n, hn, hne⟩ := hmem i (Nat.lt_of_lt_of_le (h.lt_of_name hi) h.le_len)
    rw [hi] at hn
    cases hn
    exact hne rfl

theorem congr {s' : System} (h : Table s k) (hslots : s'.slots = s.slots) (hlen : s'.len = s.len)
    (hlast : s'.last = s.last) (hfirst : s'.first = s.first) : Table s' k := by
  have hcell : s'.cell = s.cell := funext fun i => by rw [System.cell, System.cell, hslots]
  refine ⟨?_, ?_, hlen ▸ h.le_len, hfirst ▸ h.nodup, fun hi => ?_, fun hi => ?_, fun hn => ?_,
    fun hall => ?_⟩
  · rw [hfirst, hlen, h.len_first]
  · rw [hslots, hlen]
    exact h.le_cells
  · rw [hcell, hfirst, h.named hi]
  · rw [hcell, h.freed hi]
  · rw [hcell] at hn ⊢
    rw [hlast, h.last hn]
  · rw [hcell] at hall
    rw [hlast, h.lost hall]

theorem clear (h : Table s k) (hk : k ≤ i + 1) : Table (s.clear i) (min k i) where
  len_first := h.len_first
  le_cells := Nat.le_trans h.le_cells (Nat.le_of_eq (List.length_modify ..).symm)
  le_len := Nat.le_trans (Nat.min_le_left ..) h.le_len
  nodup := h.nodup
  named := by
    intro j hj
    rw [System.cell_clear, if_neg (by omega)]
    exact h.named (by omega)
  freed := by
    intro j hj
    rw [System.cell_clear]
    split <;> rename_i hji
    · rfl
    · exact h.freed (by omega)
  last := by
    intro j n hj
    rw [System.cell_clear] at hj ⊢
    split at hj <;> rename_i hji
    · cases hj
    · rw [if_neg hji]
      show ((s.slots[i]?).bind Slot.name).elim s.last
        (fun name => Function.update s.last name none) n = _
      rw [System.name_eq]
      cases hi : (s.cell i).name with
      | none => exact h.last hj
      | some m =>
        refine (Function.update_of_ne ?_ _ _).trans (h.last hj)
        rintro rfl
        exact hji (h.name_injective hj hi)
  lost := by
    intro n hall
    show ((s.slots[i]?).bind Slot.name).elim s.last
      (fun name => Function.update s.last name none) n = _
    rw [System.name_eq]
    have hother : ∀ j, j ≠ i → (s.cell j).name ≠ some n := by
      intro j hji
      have hj := hall j
      rwa [System.cell_clear, if_neg hji] at hj
    cases hi : (s.cell i).name with
    | none =>
      refine h.lost fun j hj => ?_
      refine hother j (fun hji => ?_) hj
      rw [hji, hi] at hj
      cases hj
    | some m =>
      by_cases hnm : n = m
      · subst hnm
        exact Function.update_self ..
      · refine (Function.update_of_ne hnm _ _).trans (h.lost fun j hj => ?_)
        refine hother j (fun hji => ?_) hj
        rw [hji, hi, Option.some.injEq] at hj
        exact hnm hj.symm

theorem reset (h : Table s 0) : Table { s with len := 0, first := [] } 0 where
  len_first := rfl
  le_cells := Nat.zero_le _
  le_len := Nat.le_refl _
  nodup := List.nodup_nil
  named := fun hi => absurd hi (Nat.not_lt_zero _)
  freed := fun hi => h.freed hi
  last := fun hn => h.last hn
  lost := fun hall => h.lost hall

theorem occupied {s' : System} (h : Table s k) (hn : (s.cell i).name = some name)
    (hc : ∀ j, s'.cell j = if j = i then ⟨some name, o, d⟩ else s.cell j)
    (hlast : s'.last = Function.update s.last name o) (hlen : s'.len = s.len)
    (hslots : s'.slots.length = s.slots.length) (hfirst : s'.first = s.first) : Table s' k where
  len_first := by rw [hfirst, hlen, h.len_first]
  le_cells := by rw [hlen, hslots]; exact h.le_cells
  le_len := hlen ▸ h.le_len
  nodup := hfirst ▸ h.nodup
  named := by
    intro j hj
    rw [hc, hfirst]
    split <;> rename_i hji
    · rw [hji, h.first_of_name hn]
    · exact h.named hj
  freed := by
    intro j hj
    have hi := h.lt_of_name hn
    rw [hc, if_neg (by omega)]
    exact h.freed hj
  last := by
    intro j n hj
    rw [hc] at hj ⊢
    rw [hlast]
    split at hj <;> rename_i hji
    · cases hj
      simp [hji]
    · rw [if_neg hji, Function.update_of_ne]
      · exact h.last hj
      · rintro rfl
        exact hji (h.name_injective hj hn)
  lost := by
    intro n hall
    have hne : n ≠ name := by
      rintro rfl
      apply hall i
      rw [hc, if_pos rfl]
    rw [hlast, Function.update_of_ne hne]
    refine h.lost fun j hj => ?_
    apply hall j
    rw [hc]
    split <;> rename_i hji
    · rw [hji, hn] at hj
      exact hj
    · exact hj

theorem install (h : Table s k) (hn : (s.cell i).name = some name) :
    Table (s.install i name v d) k := by
  have hi : i < s.slots.length :=
    Nat.lt_of_lt_of_le (h.lt_of_name hn) (Nat.le_trans h.le_len h.le_cells)
  refine h.occupied (d := d) hn (fun j => ?_) rfl rfl (List.length_modify ..) rfl
  rw [System.cell_install hi, hn]

theorem quiet (h : Table s k) (hn : (s.cell i).name = some name) :
    Table (s.quiet i name) k := by
  have hi : i < s.slots.length :=
    Nat.lt_of_lt_of_le (h.lt_of_name hn) (Nat.le_trans h.le_len h.le_cells)
  refine h.occupied (d := false) hn (fun j => ?_) rfl rfl (List.length_modify ..) rfl
  rw [System.cell_quiet hi, hn]

theorem append (h : Table s s.len) (hn : ∀ i, (s.cell i).name ≠ some name) :
    Table (s.append name v d) (s.len + 1) where
  len_first := by simp [System.append, h.len_first]
  le_cells := by
    have := h.le_cells
    unfold System.append
    dsimp only
    split
    · rw [List.length_set]
      omega
    · rw [List.length_append, List.length_singleton]
      omega
  le_len := Nat.le_refl _
  nodup := by
    refine List.nodup_append.mpr ⟨h.nodup, List.pairwise_singleton _ _, ?_⟩
    rintro n hmem _ hname rfl
    rw [List.mem_singleton] at hname
    subst hname
    obtain ⟨i, hi⟩ := List.mem_iff_getElem?.mp hmem
    have hlt : i < s.len := h.len_first ▸ (List.getElem?_eq_some_iff.mp hi).1
    exact hn i ((h.named hlt).trans hi)
  named := by
    intro i hi
    rw [System.cell_append h.le_cells]
    show _ = (s.first ++ [name])[i]?
    split <;> rename_i hlen
    · rw [hlen, ← h.len_first, List.getElem?_concat_length]
    · rw [List.getElem?_append_left (by rw [h.len_first]; omega)]
      exact h.named (by omega)
  freed := by
    intro i hi
    rw [System.cell_append h.le_cells, if_neg (by omega)]
    exact h.freed (by omega)
  last := by
    intro i n hi
    rw [System.cell_append h.le_cells] at hi ⊢
    show Function.update s.last name (some v) n = _
    split at hi <;> rename_i hlen
    · cases hi
      simp [hlen]
    · rw [if_neg hlen, Function.update_of_ne]
      · exact h.last hi
      · rintro rfl
        exact hn i hi
  lost := by
    intro n hall
    have hne : n ≠ name := by
      rintro rfl
      apply hall s.len
      rw [System.cell_append h.le_cells, if_pos rfl]
    refine (Function.update_of_ne hne _ _).trans (h.lost fun j hj => ?_)
    apply hall j
    rw [System.cell_append h.le_cells, if_neg]
    · exact hj
    · rintro rfl
      rw [h.freed (Nat.le_refl _)] at hj
      cases hj

end Table

/-! ## The values -/

/-- A title that the session has, for a value that is not in a slot yet. -/
structure Fresh (s : System) (v : Value) : Prop where
  handed : v ∈ s.handed
  unbound : .bound n v d ∉ s.log

/-- What the slots and the log say about the values. -/
structure Values (s : System) : Prop where
  apart : (s.cell i).obj = some v → (s.cell j).obj = some v → i = j
  bound : (s.cell i).obj = some v →
    ∃ n, (s.cell i).name = some n ∧ .bound n v (s.cell i).drop ∈ s.log
  single : .bound n v d ∈ s.log → .bound n' v d' ∈ s.log → d = d'
  handed : .bound n v d ∈ s.log → v ∈ s.handed
  started : .started v c ∈ s.log → ∃ n d, .bound n v d ∈ s.log ∧ (c = none ∨ c = some n)
  disarmed : .disarmed v ∈ s.log → (∃ n d, .bound n v d ∈ s.log) ∧ ∀ i, (s.cell i).obj ≠ some v
  once : s.log.Pairwise Event.MayPrecede
  dropped : .bound n v true ∈ s.log → (∃ i, s.owed i = some v) ∨ s.Begun v ∨ .disarmed v ∈ s.log

namespace Values
variable {s : System}

theorem congr {s' : System} (h : Values s) (hslots : s'.slots = s.slots) (hlog : s'.log = s.log)
    (hh : ∀ v, v ∈ s.handed → v ∈ s'.handed) : Values s' := by
  have hcell : s'.cell = s.cell := funext fun i => by rw [System.cell, System.cell, hslots]
  have howed : s'.owed = s.owed := funext fun i => by rw [System.owed, System.owed, hslots]
  refine ⟨?_, ?_, ?_, fun hb => hh _ (h.handed (hlog ▸ hb)), ?_, ?_, hlog ▸ h.once, ?_⟩
  · rw [hcell]
    exact h.apart
  · rw [hcell, hlog]
    exact h.bound
  · rw [hlog]
    exact h.single
  · rw [hlog]
    exact h.started
  · rw [hlog, hcell]
    exact h.disarmed
  · simp only [System.Begun, hlog, howed]
    exact h.dropped

theorem not_fresh (h : Values s) (hi : (s.cell i).obj = some v) : ¬Fresh s v := by
  intro hv
  obtain ⟨n, -, hn⟩ := h.bound hi
  exact hv.unbound hn

/-- A slot takes a new occupant. What it held before needs no drop, or has had it. -/
theorem put {s' : System} (h : Values s) (hv : Fresh s v)
    (ho : ∀ old, s.owed i = some old → s.Begun old)
    (hc : ∀ j, s'.cell j = if j = i then ⟨some name, some v, d⟩ else s.cell j)
    (hlog : s'.log = s.log ++ [.bound name v d]) (hh : s'.handed = s.handed) : Values s' where
  apart := by
    intro j w j' hj hj'
    rw [hc] at hj hj'
    split at hj <;> rename_i hji <;> split at hj' <;> rename_i hji'
    · rw [hji, hji']
    · cases hj
      exact absurd hv (h.not_fresh hj')
    · cases hj'
      exact absurd hv (h.not_fresh hj)
    · exact h.apart hj hj'
  bound := by
    intro j w hj
    rw [hc] at hj ⊢
    rw [hlog]
    split at hj <;> rename_i hji
    · cases hj
      rw [if_pos hji]
      exact ⟨name, rfl, List.mem_append_right _ (List.mem_singleton.mpr rfl)⟩
    · obtain ⟨n, hn, hb⟩ := h.bound hj
      rw [if_neg hji]
      exact ⟨n, hn, List.mem_append_left _ hb⟩
  single := by
    intro n w d₁ n' d₂ h₁ h₂
    rw [hlog, List.mem_append, List.mem_singleton] at h₁ h₂
    rcases h₁ with h₁ | h₁ <;> rcases h₂ with h₂ | h₂
    · exact h.single h₁ h₂
    · cases h₂
      exact absurd h₁ hv.unbound
    · cases h₁
      exact absurd h₂ hv.unbound
    · cases h₁
      cases h₂
      rfl
  handed := by
    intro n w d' hb
    rw [hlog, List.mem_append, List.mem_singleton] at hb
    rw [hh]
    rcases hb with hb | hb
    · exact h.handed hb
    · cases hb
      exact hv.handed
  started := by
    intro w c hw
    rw [hlog, List.mem_append, List.mem_singleton] at hw
    rcases hw with hw | hw
    · obtain ⟨n, d', hb, hcause⟩ := h.started hw
      exact ⟨n, d', hlog ▸ List.mem_append_left _ hb, hcause⟩
    · cases hw
  disarmed := by
    intro w hw
    rw [hlog, List.mem_append, List.mem_singleton] at hw
    rcases hw with hw | hw
    · obtain ⟨⟨n, d', hb⟩, hw⟩ := h.disarmed hw
      refine ⟨⟨n, d', hlog ▸ List.mem_append_left _ hb⟩, fun j => ?_⟩
      rw [hc]
      split
      · intro he
        cases he
        exact hv.unbound hb
      · exact hw j
    · cases hw
  once := by
    rw [hlog]
    exact List.pairwise_append.mpr ⟨h.once, List.pairwise_singleton _ _, by simp [Event.MayPrecede]⟩
  dropped := by
    intro w n hb
    rw [hlog, List.mem_append, List.mem_singleton] at hb
    rcases hb with hb | hb
    · rcases h.dropped hb with ⟨j, hj⟩ | ⟨c, hw⟩ | hw
      · by_cases hji : j = i
        · obtain ⟨c, hw⟩ := ho w (hji ▸ hj)
          exact .inr (.inl ⟨c, hlog ▸ List.mem_append_left _ hw⟩)
        · refine .inl ⟨j, ?_⟩
          rw [System.owed_eq] at hj ⊢
          rwa [hc, if_neg hji]
      · exact .inr (.inl ⟨c, hlog ▸ List.mem_append_left _ hw⟩)
      · exact .inr (.inr (hlog ▸ List.mem_append_left _ hw))
    · cases hb
      refine .inl ⟨i, ?_⟩
      rw [System.owed_eq, hc, if_pos rfl]
      rfl

theorem clear (h : Values s) (ho : ∀ old, s.owed i = some old → s.Begun old) :
    Values (s.clear i) where
  apart := by
    intro j w j' hj hj'
    rw [System.cell_clear] at hj hj'
    split at hj
    · cases hj
    · split at hj'
      · cases hj'
      · exact h.apart hj hj'
  bound := by
    intro j w hj
    rw [System.cell_clear] at hj ⊢
    split at hj <;> rename_i hji
    · cases hj
    · rw [if_neg hji]
      exact h.bound hj
  single := h.single
  handed := h.handed
  started := h.started
  disarmed := by
    intro w hw
    refine ⟨(h.disarmed hw).1, fun j => ?_⟩
    rw [System.cell_clear]
    split
    · intro he
      cases he
    · exact (h.disarmed hw).2 j
  once := h.once
  dropped := by
    intro w n hb
    rcases h.dropped hb with ⟨j, hj⟩ | hw
    · by_cases hji : j = i
      · exact .inr (.inl (ho w (hji ▸ hj)))
      · refine .inl ⟨j, ?_⟩
        rw [System.owed_eq] at hj ⊢
        rwa [System.cell_clear, if_neg hji]
    · exact .inr hw

theorem quiet (h : Values s) (hi : i < s.slots.length) : Values (s.quiet i name) where
  apart := by
    intro j w j' hj hj'
    rw [System.cell_quiet hi] at hj hj'
    split at hj
    · cases hj
    · split at hj'
      · cases hj'
      · exact h.apart hj hj'
  bound := by
    intro j w hj
    rw [System.cell_quiet hi] at hj ⊢
    split at hj <;> rename_i hji
    · cases hj
    · obtain ⟨n, hn, hb⟩ := h.bound hj
      rw [if_neg hji]
      exact ⟨n, hn, List.mem_append_left _ hb⟩
  single := by
    intro n w d n' d' h₁ h₂
    simp only [System.quiet, List.mem_append, List.mem_map, reduceCtorEq, and_false, exists_false,
      or_false] at h₁ h₂
    exact h.single h₁ h₂
  handed := by
    intro n w d h₁
    simp only [System.quiet, List.mem_append, List.mem_map, reduceCtorEq, and_false, exists_false,
      or_false] at h₁
    exact h.handed h₁
  started := by
    intro w c hw
    simp only [System.quiet, List.mem_append, List.mem_map, reduceCtorEq, and_false, exists_false,
      or_false] at hw
    obtain ⟨n, d, hb, hcause⟩ := h.started hw
    exact ⟨n, d, List.mem_append_left _ hb, hcause⟩
  disarmed := by
    intro w hw
    simp only [System.quiet, List.mem_append, List.mem_map, Option.mem_toList,
      Event.disarmed.injEq, exists_eq_right] at hw
    rcases hw with hw | hw
    · obtain ⟨⟨n, d, hb⟩, hw⟩ := h.disarmed hw
      refine ⟨⟨n, d, List.mem_append_left _ hb⟩, fun j => ?_⟩
      rw [System.cell_quiet hi]
      split
      · intro he
        cases he
      · exact hw j
    · rw [System.held_eq] at hw
      obtain ⟨n, -, hb⟩ := h.bound hw
      refine ⟨⟨n, _, List.mem_append_left _ hb⟩, fun j => ?_⟩
      rw [System.cell_quiet hi]
      split <;> rename_i hji
      · intro he
        cases he
      · exact fun hj => hji (h.apart hj hw)
  once := by
    refine List.pairwise_append.mpr ⟨h.once, ?_, ?_⟩
    · cases s.held i <;> simp
    · simp [Event.MayPrecede]
  dropped := by
    intro w n hb
    simp only [System.quiet, List.mem_append, List.mem_map, reduceCtorEq, and_false, exists_false,
      or_false] at hb
    rcases h.dropped hb with ⟨j, hj⟩ | ⟨c, hw⟩ | hw
    · by_cases hji : j = i
      · refine .inr (.inr (List.mem_append_right _ ?_))
        rw [(System.held_eq s i).trans (hji ▸ (System.obj_of_owed hj).1)]
        exact List.mem_singleton.mpr rfl
      · refine .inl ⟨j, ?_⟩
        rw [System.owed_eq] at hj ⊢
        rwa [System.cell_quiet hi, if_neg hji]
    · exact .inr (.inl ⟨c, List.mem_append_left _ hw⟩)
    · exact .inr (.inr (List.mem_append_left _ hw))

/-- The drop function of a value in a slot starts, if it has not started yet. -/
theorem start (h : Values s) (hi : (s.cell i).obj = some f.old) (hb : ¬s.Begun f.old)
    (hn : ∀ n, f.rebound = some n → (s.cell i).name = some n) : Values (s.start f) where
  apart := h.apart
  bound := by
    intro j w hj
    obtain ⟨n, hn, hb⟩ := h.bound hj
    exact ⟨n, hn, List.mem_append_left _ hb⟩
  single := by
    intro n w d n' d' h₁ h₂
    simp only [System.start, System.record, List.mem_append, List.mem_singleton, reduceCtorEq,
      or_false] at h₁ h₂
    exact h.single h₁ h₂
  handed := by
    intro n w d h₁
    simp only [System.start, System.record, List.mem_append, List.mem_singleton, reduceCtorEq,
      or_false] at h₁
    exact h.handed h₁
  started := by
    intro w c hw
    simp only [System.start, System.record, List.mem_append, List.mem_singleton,
      Event.started.injEq] at hw
    rcases hw with hw | ⟨rfl, rfl⟩
    · obtain ⟨n, d, hb, hcause⟩ := h.started hw
      exact ⟨n, d, List.mem_append_left _ hb, hcause⟩
    · obtain ⟨n, hname, hb⟩ := h.bound hi
      refine ⟨n, _, List.mem_append_left _ hb, ?_⟩
      cases hr : f.rebound with
      | none => exact .inl rfl
      | some m =>
        rw [hn m hr] at hname
        exact .inr hname
  disarmed := by
    intro w hw
    simp only [System.start, System.record, List.mem_append, List.mem_singleton, reduceCtorEq,
      or_false] at hw
    obtain ⟨⟨n, d, hb⟩, hw⟩ := h.disarmed hw
    exact ⟨⟨n, d, List.mem_append_left _ hb⟩, hw⟩
  once := by
    refine List.pairwise_append.mpr ⟨h.once, List.pairwise_singleton _ _, ?_⟩
    intro e he _ hmem
    rw [List.mem_singleton] at hmem
    subst hmem
    refine ⟨?_, ?_⟩
    · rintro c rfl
      exact hb ⟨c, he⟩
    · rintro rfl
      exact (h.disarmed he).2 i hi
  dropped := by
    intro w n hb
    simp only [System.start, System.record, List.mem_append, List.mem_singleton, reduceCtorEq,
      or_false] at hb
    rcases h.dropped hb with hj | ⟨c, hw⟩ | hw
    · exact .inl hj
    · exact .inr (.inl ⟨c, List.mem_append_left _ hw⟩)
    · exact .inr (.inr (List.mem_append_left _ hw))

end Values

/-! ## The operations that wait -/

/-- What the operations that wait for a drop function can rely on. A slot that is named as a hole
may still hold a value whose drop function has returned. -/
structure Frames (s : System) (k : Nat) (hole : Option Nat) : Prop where
  gens : f ∈ s.stack → f.gen = s.gen
  slot : f ∈ s.stack → (s.cell f.idx).obj = none ∨ (s.cell f.idx).obj = some f.old
  begun : f ∈ s.stack → s.Begun f.old
  named : f ∈ s.stack → f.rebound = some n → (s.cell f.idx).name = some n
  fresh : f ∈ s.stack → f.pending = some v → Fresh s v
  distinct : (s.stack.filterMap Frame.pending).Nodup
  sweeps : f ∈ s.stack → f.rebound = none → k ≤ f.idx + 1
  apart : s.stack.Pairwise fun f g =>
    f.idx ≠ g.idx ∧ (f.rebound = none → g.rebound = none ∧ (s.cell g.idx).obj = none)
  waits : (s.cell i).obj = some v → s.Begun v → hole = some i ∨ ∃ f ∈ s.stack, f.idx = i

theorem Values.not_begun (h : Values s) (hv : Fresh s v) : ¬s.Begun v := by
  rintro ⟨c, hc⟩
  obtain ⟨n, d, hb, -⟩ := h.started hc
  exact hv.unbound hb

namespace Frames
variable {s : System}

theorem put {s' : System} (h : Frames s k hole) (hvalues : Values s) (hv : Fresh s v)
    (hp : v ∉ s.stack.filterMap Frame.pending) (hf : ∀ f ∈ s.stack, f.idx ≠ i)
    (hhole : hole = none ∨ hole = some i)
    (hc : ∀ j, s'.cell j = if j = i then ⟨some name, some v, d⟩ else s.cell j)
    (hlog : s'.log = s.log ++ [.bound name v d]) (hh : s'.handed = s.handed)
    (hstack : s'.stack = s.stack) (hgen : s'.gen = s.gen)
    (hk : ∀ f ∈ s.stack, f.rebound = none → k' ≤ f.idx + 1) : Frames s' k' none := by
  have hcell : ∀ f ∈ s.stack, s'.cell f.idx = s.cell f.idx := fun f hmem => by
    rw [hc, if_neg (hf f hmem)]
  have hbegun : ∀ w, s'.Begun w ↔ s.Begun w := by simp [System.Begun, hlog]
  refine ⟨fun hmem => ?_, fun hmem => ?_, fun hmem => ?_, fun hmem hr => ?_, fun hmem hw => ?_,
    hstack ▸ h.distinct, fun hmem hr => hk _ (hstack ▸ hmem) hr, ?_, fun hj hw => ?_⟩
  · rw [hgen]
    exact h.gens (hstack ▸ hmem)
  · rw [hcell _ (hstack ▸ hmem)]
    exact h.slot (hstack ▸ hmem)
  · exact (hbegun _).mpr (h.begun (hstack ▸ hmem))
  · rw [hcell _ (hstack ▸ hmem)]
    exact h.named (hstack ▸ hmem) hr
  · rw [hstack] at hmem
    refine ⟨hh ▸ (h.fresh hmem hw).handed, fun hb => ?_⟩
    rw [hlog, List.mem_append, List.mem_singleton] at hb
    rcases hb with hb | hb
    · exact (h.fresh hmem hw).unbound hb
    · cases hb
      exact hp (List.mem_filterMap.mpr ⟨_, hmem, hw⟩)
  · rw [hstack]
    refine h.apart.imp_of_mem fun _ hg hfg => ⟨hfg.1, fun hr => ⟨(hfg.2 hr).1, ?_⟩⟩
    rw [hcell _ hg]
    exact (hfg.2 hr).2
  · rw [hbegun] at hw
    rw [hc] at hj
    rw [hstack]
    split at hj <;> rename_i hji
    · cases hj
      exact absurd hw (hvalues.not_begun hv)
    · rcases h.waits hj hw with hhole' | hfj
      · rcases hhole with rfl | rfl
        · cases hhole'
        · cases hhole'
          exact absurd rfl hji
      · exact .inr hfj

theorem clear (h : Frames s k hole) (hf : ∀ f ∈ s.stack, f.rebound = none)
    (hhole : hole = none ∨ hole = some i) : Frames (s.clear i) (min k i) none where
  gens := h.gens
  slot := by
    intro f hmem
    rw [System.cell_clear]
    split
    · exact .inl rfl
    · exact h.slot hmem
  begun := h.begun
  named := by
    intro f n hmem hr
    rw [hf f hmem] at hr
    cases hr
  fresh := fun hmem hw => ⟨(h.fresh hmem hw).handed, (h.fresh hmem hw).unbound⟩
  distinct := h.distinct
  sweeps := fun hmem hr => Nat.le_trans (Nat.min_le_left ..) (h.sweeps hmem hr)
  apart := by
    refine h.apart.imp fun hfg => ⟨hfg.1, fun hr => ⟨(hfg.2 hr).1, ?_⟩⟩
    rw [System.cell_clear]
    split
    · rfl
    · exact (hfg.2 hr).2
  waits := by
    intro j v hj hv
    rw [System.cell_clear] at hj
    split at hj <;> rename_i hji
    · cases hj
    · rcases h.waits hj hv with hhole' | hfj
      · rcases hhole with rfl | rfl
        · cases hhole'
        · cases hhole'
          exact absurd rfl hji
      · exact .inr hfj

theorem quiet (h : Frames s k none) (hi : i < s.slots.length) :
    Frames (s.quiet i name) k none := by
  have hbegun : ∀ w, (s.quiet i name).Begun w ↔ s.Begun w := by
    simp [System.Begun, System.quiet]
  refine ⟨h.gens, fun hmem => ?_, fun hmem => (hbegun _).mpr (h.begun hmem), fun hmem hr => ?_,
    fun hmem hw => ⟨(h.fresh hmem hw).handed, fun hb => ?_⟩, h.distinct, h.sweeps, ?_,
    fun hj hw => ?_⟩
  · rw [System.cell_quiet hi]
    split
    · exact .inl rfl
    · exact h.slot hmem
  · rw [System.cell_quiet hi]
    split <;> rename_i hji
    · exact hji ▸ h.named hmem hr
    · exact h.named hmem hr
  · simp only [System.quiet, List.mem_append, List.mem_map, reduceCtorEq, and_false, exists_false,
      or_false] at hb
    exact (h.fresh hmem hw).unbound hb
  · refine h.apart.imp fun hfg => ⟨hfg.1, fun hr => ⟨(hfg.2 hr).1, ?_⟩⟩
    rw [System.cell_quiet hi]
    split
    · rfl
    · exact (hfg.2 hr).2
  · rw [System.cell_quiet hi] at hj
    split at hj
    · cases hj
    · exact h.waits hj ((hbegun _).mp hw)

theorem start (h : Frames s k none) (hvalues : Values s) (hgen : f.gen = s.gen)
    (hi : (s.cell f.idx).obj = some f.old)
    (hn : ∀ n, f.rebound = some n → (s.cell f.idx).name = some n)
    (hv : ∀ v, f.pending = some v → Fresh s v ∧ v ∉ s.stack.filterMap Frame.pending)
    (hk : f.rebound = none → k ≤ f.idx + 1)
    (hf : ∀ g ∈ s.stack,
      f.idx ≠ g.idx ∧ (f.rebound = none → g.rebound = none ∧ (s.cell g.idx).obj = none)) :
    Frames (s.start f) k none := by
  have hmono : ∀ w, s.Begun w → (s.start f).Begun w := fun w ⟨c, hc⟩ =>
    ⟨c, List.mem_append_left _ hc⟩
  have hfresh : ∀ w, Fresh s w → Fresh (s.start f) w := by
    intro w hw
    refine ⟨hw.handed, fun hb => ?_⟩
    simp only [System.start, System.record, List.mem_append, List.mem_singleton, reduceCtorEq,
      or_false] at hb
    exact hw.unbound hb
  refine ⟨?_, ?_, ?_, ?_, ?_, ?_, ?_, List.pairwise_cons.mpr ⟨hf, h.apart⟩, ?_⟩
  · rintro g (_ | ⟨_, hmem⟩)
    · exact hgen
    · exact h.gens hmem
  · rintro g (_ | ⟨_, hmem⟩)
    · exact .inr hi
    · exact h.slot hmem
  · rintro g (_ | ⟨_, hmem⟩)
    · exact ⟨_, List.mem_append_right _ (List.mem_singleton.mpr rfl)⟩
    · exact hmono _ (h.begun hmem)
  · rintro g n (_ | ⟨_, hmem⟩) hr
    · exact hn n hr
    · exact h.named hmem hr
  · rintro g v (_ | ⟨_, hmem⟩) hw
    · exact hfresh v (hv v hw).1
    · exact hfresh v (h.fresh hmem hw)
  · show ((f :: s.stack).filterMap Frame.pending).Nodup
    cases hp : f.pending with
    | none =>
      rw [List.filterMap_cons_none hp]
      exact h.distinct
    | some v =>
      rw [List.filterMap_cons_some hp]
      exact List.nodup_cons.mpr ⟨(hv v hp).2, h.distinct⟩
  · rintro g (_ | ⟨_, hmem⟩) hr
    · exact hk hr
    · exact h.sweeps hmem hr
  · rintro i v hj ⟨c, hc⟩
    simp only [System.start, System.record, List.mem_append, List.mem_singleton,
      Event.started.injEq] at hc
    rcases hc with hc | ⟨rfl, -⟩
    · rcases h.waits hj ⟨c, hc⟩ with hhole | ⟨g, hg, hgi⟩
      · cases hhole
      · exact .inr ⟨g, List.mem_cons_of_mem _ hg, hgi⟩
    · exact .inr ⟨f, List.mem_cons_self, hvalues.apart hi hj⟩

theorem pop (h : Frames s k none) (hs : s.stack = f :: rest) :
    Frames { s with stack := rest } k (some f.idx) := by
  have hmem : ∀ g ∈ rest, g ∈ s.stack := fun g hg => hs ▸ List.mem_cons_of_mem _ hg
  have hsub : rest.Sublist s.stack := hs ▸ List.sublist_cons_self ..
  refine ⟨fun hg => h.gens (hmem _ hg), fun hg => h.slot (hmem _ hg), fun hg => h.begun (hmem _ hg),
    fun hg => h.named (hmem _ hg), fun hg hv => ⟨(h.fresh (hmem _ hg) hv).handed,
    (h.fresh (hmem _ hg) hv).unbound⟩, h.distinct.sublist (hsub.filterMap _),
    fun hg => h.sweeps (hmem _ hg), h.apart.sublist hsub, fun hj hv => ?_⟩
  rcases h.waits hj hv with hhole | ⟨g, hg, hgi⟩
  · cases hhole
  · rw [hs] at hg
    rcases List.mem_cons.mp hg with rfl | hg
    · exact .inl (congrArg some hgi)
    · exact .inr ⟨g, hg, hgi⟩

theorem unhole (h : Frames s k (some i)) (hi : (s.cell i).obj = none) : Frames s k none := by
  refine { h with waits := fun hj hv => ?_ }
  rcases h.waits hj hv with hhole | hf
  · cases hhole
    rw [hi] at hj
    cases hj
  · exact .inr hf

end Frames

/-! ## The invariant -/

structure Inv (s : System) (k : Nat) (hole : Option Nat) : Prop where
  running : s.fault = none
  table : Table s k
  values : Values s
  frames : Frames s k hole

namespace Inv
variable {s : System}

theorem lt_length (h : Inv s k hole) (hn : (s.cell i).name = some name) : i < s.slots.length :=
  Nat.lt_of_lt_of_le (h.table.lt_of_name hn) (Nat.le_trans h.table.le_len h.table.le_cells)

theorem install (h : Inv s k hole) (hn : (s.cell i).name = some name) (hv : Fresh s v)
    (hp : v ∉ s.stack.filterMap Frame.pending) (hf : ∀ f ∈ s.stack, f.idx ≠ i)
    (hhole : hole = none ∨ hole = some i) (ho : ∀ old, s.owed i = some old → s.Begun old) :
    Inv (s.install i name v d) k none := by
  have hc : ∀ j, (s.install i name v d).cell j =
      if j = i then ⟨some name, some v, d⟩ else s.cell j := fun j => by
    rw [System.cell_install (h.lt_length hn), hn]
  exact ⟨h.running, h.table.install hn, h.values.put hv ho hc rfl rfl,
    h.frames.put h.values hv hp hf hhole hc rfl rfl rfl rfl fun _ hmem => h.frames.sweeps hmem⟩

theorem append (h : Inv s s.len none) (hn : ∀ i, (s.cell i).name ≠ some name) (hv : Fresh s v)
    (hp : v ∉ s.stack.filterMap Frame.pending)
    (hf : ∀ f ∈ s.stack, f.rebound = none → s.len < f.idx) :
    Inv (s.append name v d) (s.len + 1) none := by
  have hc : ∀ j, (s.append name v d).cell j =
      if j = s.len then ⟨some name, some v, d⟩ else s.cell j := fun j =>
    System.cell_append h.table.le_cells
  have hblank : s.cell s.len = blank := h.table.freed (Nat.le_refl _)
  have hidx : ∀ f ∈ s.stack, f.idx ≠ s.len := by
    intro f hmem hidx
    cases hr : f.rebound with
    | none =>
      have := hf f hmem hr
      omega
    | some n =>
      have hname := h.frames.named hmem hr
      rw [hidx, hblank] at hname
      cases hname
  refine ⟨h.running, h.table.append hn, h.values.put hv (fun old ho => ?_) hc rfl rfl,
    h.frames.put h.values hv hp hidx (.inl rfl) hc rfl rfl rfl rfl fun f hmem hr => ?_⟩
  · rw [System.owed_eq, hblank] at ho
    cases ho
  · have := hf f hmem hr
    omega

theorem grow (h : Inv s k none) (hf : ∀ f ∈ s.stack, s.len = s.cap → moved = false) :
    Inv (s.grow moved) k none := by
  unfold System.grow
  split <;> rename_i hcap
  · refine ⟨h.running, h.table.congr rfl rfl rfl rfl, h.values.congr rfl rfl fun _ => id,
      ⟨fun hmem => ?_, h.frames.2, h.frames.3, h.frames.4,
      fun hmem hw => ⟨(h.frames.fresh hmem hw).1, (h.frames.fresh hmem hw).2⟩, h.frames.6,
      h.frames.7, h.frames.8, h.frames.9⟩⟩
    rw [hf _ hmem hcap]
    exact h.frames.gens hmem
  · exact h

theorem hand (h : Inv s k none) : Inv { s with handed := v :: s.handed } k none :=
  ⟨h.running, h.table.congr rfl rfl rfl rfl, h.values.congr rfl rfl
    fun _ => List.mem_cons_of_mem _, ⟨h.frames.1, h.frames.2, h.frames.3, h.frames.4,
    fun hmem hw => ⟨List.mem_cons_of_mem _ (h.frames.fresh hmem hw).1,
      (h.frames.fresh hmem hw).2⟩, h.frames.6, h.frames.7, h.frames.8, h.frames.9⟩⟩

theorem fresh_of_hand (h : Inv s k none) (hv : v ∉ s.handed) :
    Fresh { s with handed := v :: s.handed } v ∧ v ∉ s.stack.filterMap Frame.pending := by
  refine ⟨⟨List.mem_cons_self, fun hb => hv (h.values.handed hb)⟩, fun hp => ?_⟩
  obtain ⟨f, hmem, hf⟩ := List.mem_filterMap.mp hp
  exact hv (h.frames.fresh hmem hf).handed

theorem not_begun (h : Inv s k none) (hf : ∀ f ∈ s.stack, f.idx ≠ i)
    (hi : (s.cell i).obj = some v) : ¬s.Begun v := by
  intro hb
  rcases h.frames.waits hi hb with hhole | ⟨f, hmem, hidx⟩
  · cases hhole
  · exact hf f hmem hidx

theorem rebind (h : Inv s k none) (hn : (s.cell i).name = some name) (hv : Fresh s v)
    (hp : v ∉ s.stack.filterMap Frame.pending) (hf : ∀ f ∈ s.stack, f.idx ≠ i) :
    Inv (s.rebind i name v d) k none := by
  unfold System.rebind
  cases ho : s.owed i with
  | none =>
    refine h.install hn hv hp hf (.inl rfl) fun old hold => ?_
    rw [ho] at hold
    cases hold
  | some old =>
    have hi := (System.obj_of_owed ho).1
    have hname : ∀ n, some name = some n → (s.cell i).name = some n := fun n hname => hname ▸ hn
    refine ⟨h.running, h.table.congr rfl rfl rfl rfl, h.values.start hi (h.not_begun hf hi) hname,
      h.frames.start h.values rfl hi hname
      (fun w hw => ?_) (fun hr => ?_) fun g hg => ⟨(hf g hg).symm, fun hr => ?_⟩⟩
    · cases hw
      exact ⟨hv, hp⟩
    · cases hr
    · cases hr

theorem bind (h : Inv s k none) (hv : v ∉ s.handed) (hb : s.MayBind name moved) :
    ∃ k, Inv (s.bind name v d moved) k none := by
  obtain ⟨hfresh, hp⟩ := h.fresh_of_hand hv
  have hand := h.hand (v := v)
  unfold System.MayBind at hb
  unfold System.bind
  cases hl : s.lookup name with
  | error fault => simp [hl] at hb
  | ok o =>
    have hl' : System.lookup { s with handed := v :: s.handed } name = .ok o := hl
    rw [hl] at hb
    dsimp only
    rw [hl']
    cases o with
    | some i => exact ⟨k, hand.rebind (Table.lookup_some (s := s) hl) hfresh hp hb⟩
    | none =>
      obtain ⟨rfl, hn⟩ := h.table.lookup_none hl
      have hgrow := hand.grow fun f hmem => (hb f hmem).1
      obtain ⟨c, g, heq⟩ := System.grow_eq (s := { s with handed := v :: s.handed })
      rw [heq] at hgrow ⊢
      exact ⟨s.len + 1, hgrow.append hn ⟨hfresh.1, hfresh.2⟩ hp fun f hmem => (hb f hmem).2⟩

theorem disarm (h : Inv s k none) (hl : s.lookup name ≠ .error .freedName) :
    Inv (s.disarm name) k none := by
  unfold System.disarm
  cases hf : s.lookup name with
  | error fault =>
    cases fault with
    | freedName => exact absurd hf hl
    | movedSlot => exact absurd hf find_ne_moved
  | ok o =>
    cases o with
    | none => exact h
    | some i =>
      have hn := Table.lookup_some hf
      exact ⟨h.running, h.table.quiet hn, h.values.quiet (h.lt_length hn),
        h.frames.quiet (h.lt_length hn)⟩

theorem clear (h : Inv s k hole) (hk : k ≤ i + 1) (hf : ∀ f ∈ s.stack, f.rebound = none)
    (hhole : hole = none ∨ hole = some i) (ho : ∀ old, s.owed i = some old → s.Begun old) :
    Inv (s.clear i) (min k i) none :=
  ⟨h.running, h.table.clear hk, h.values.clear ho, h.frames.clear hf hhole⟩

theorem sweep (h : Inv s k none) (hk : k ≤ i)
    (hf : ∀ f ∈ s.stack, f.rebound = none ∧ s.held f.idx = none) :
    ∃ k, Inv (s.sweep i) k none := by
  induction i generalizing s k with
  | zero =>
    obtain rfl : k = 0 := by omega
    exact ⟨0, h.running, h.table.reset, h.values.congr rfl rfl fun _ => id,
      ⟨h.frames.1, h.frames.2, h.frames.3, h.frames.4,
      fun hmem hw => ⟨(h.frames.fresh hmem hw).1, (h.frames.fresh hmem hw).2⟩, h.frames.6,
      h.frames.7, h.frames.8, h.frames.9⟩⟩
  | succ i ih =>
    rw [System.sweep]
    cases ho : s.owed i with
    | none =>
      refine ih (h.clear hk (fun f hmem => (hf f hmem).1) (.inl rfl) fun old hold => ?_)
        (Nat.min_le_right ..) fun f hmem => ⟨(hf f hmem).1, ?_⟩
      · rw [ho] at hold
        cases hold
      · rw [System.held_eq, System.cell_clear]
        split
        · rfl
        · exact (System.held_eq s _).symm.trans (hf f hmem).2
    | some old =>
      have hi := (System.obj_of_owed ho).1
      have hidx : ∀ f ∈ s.stack, f.idx ≠ i := by
        rintro f hmem rfl
        rw [← System.held_eq, (hf f hmem).2] at hi
        cases hi
      refine ⟨k, h.running, h.table.congr rfl rfl rfl rfl, h.values.start hi (h.not_begun hidx hi)
        (fun n hn => ?_),
        h.frames.start h.values rfl hi (fun n hn => ?_) (fun w hw => ?_) (fun _ => hk)
        fun g hg => ⟨(hidx g hg).symm, fun _ => ⟨(hf g hg).1, ?_⟩⟩⟩
      · cases hn
      · cases hn
      · cases hw
      · exact (System.held_eq s _).symm.trans (hf g hg).2

theorem dropAll (h : Inv s k none) (hf : ∀ f ∈ s.stack, f.rebound = none ∧ s.held f.idx = none) :
    ∃ k, Inv s.dropAll k none :=
  h.sweep h.table.le_len hf

theorem pop (h : Inv s k none) (hs : s.stack = f :: rest) :
    Inv { s with stack := rest } k (some f.idx) :=
  ⟨h.running, h.table.congr rfl rfl rfl rfl, h.values.congr rfl rfl fun _ => id, h.frames.pop hs⟩

theorem ret (h : Inv s k none) : ∃ k, Inv s.ret k none := by
  unfold System.ret
  cases hs : s.stack with
  | nil => exact ⟨k, h⟩
  | cons f rest =>
    have hmem : f ∈ s.stack := hs ▸ List.mem_cons_self
    have hpop := h.pop hs
    have hapart := h.frames.apart
    have hdistinct := h.frames.distinct
    rw [hs] at hapart hdistinct
    have ho : ∀ old, System.owed { s with stack := rest } f.idx = some old →
        System.Begun { s with stack := rest } old := by
      intro old ho
      have hi := (System.obj_of_owed ho).1
      rcases h.frames.slot hmem with hslot | hslot
      · exact absurd (hslot.symm.trans hi) (by simp)
      · cases hslot.symm.trans hi
        exact h.frames.begun hmem
    dsimp only
    rw [if_neg (not_not_intro (h.frames.gens hmem))]
    cases f with
    | bind name g i old v d =>
      have hv := h.frames.fresh hmem rfl
      refine ⟨k, hpop.install (h.frames.named hmem rfl) ⟨hv.1, hv.2⟩
        (List.nodup_cons.mp hdistinct).1
        (fun f hf => ((List.pairwise_cons.mp hapart).1 f hf).1.symm) (.inr rfl) ho⟩
    | sweep g i old =>
      have hbelow : ∀ f ∈ rest, f.rebound = none ∧ (s.cell f.idx).obj = none := fun f hf =>
        ((List.pairwise_cons.mp hapart).1 f hf).2 rfl
      refine (hpop.clear (h.frames.sweeps hmem rfl) (fun f hf => (hbelow f hf).1) (.inr rfl)
        ho).sweep (Nat.min_le_right ..) fun f hf => ⟨(hbelow f hf).1, ?_⟩
      rw [System.held_eq, System.cell_clear]
      split
      · rfl
      · exact (hbelow f hf).2

theorem throw (h : Inv s k none) (hf : ∀ f ∈ s.stack.head?, s.held f.idx ≠ some f.old) :
    Inv s.throw k none := by
  unfold System.throw
  cases hs : s.stack with
  | nil =>
    have heq : { s with stack := [] } = s := by rw [← hs]
    exact heq ▸ h
  | cons f rest =>
    have hpop := h.pop hs
    refine ⟨hpop.1, hpop.2, hpop.3, hpop.4.unhole ?_⟩
    have hne : (s.cell f.idx).obj ≠ some f.old := by
      rw [← System.held_eq]
      exact hf f (by rw [hs]; rfl)
    rcases h.frames.slot (f := f) (hs ▸ List.mem_cons_self) with hslot | hslot
    · exact hslot
    · exact absurd hslot hne

theorem step (h : Inv s k none) (ha : s.Admits a) (hs : s.Step a s') : ∃ k, Inv s' k none := by
  obtain ⟨-, he, rfl⟩ := hs
  cases a with
  | bind name v d moved => exact h.bind he ha
  | bindValue name src size box moved =>
    show ∃ k, Inv (s.bindValue name src size box moved) k none
    unfold System.bindValue
    split <;> rename_i hsrc
    · exact h.bind he (ha hsrc.1 hsrc.2)
    · exact ⟨k, h⟩
  | disarm name => exact ⟨k, h.disarm ha⟩
  | get name =>
    refine ⟨k, ?_⟩
    rw [System.exec]
    split
    · next fault hl =>
      have hl : s.lookup name = .error fault := by
        unfold System.get at hl
        cases hlookup : s.lookup name with
        | ok o => rw [hlookup] at hl; cases hl
        | error f => rw [hlookup] at hl; exact congrArg _ (Except.error.inj hl)
      cases fault with
      | freedName => exact absurd hl ha
      | movedSlot => exact absurd hl find_ne_moved
    · exact h
  | count => exact ⟨k, h⟩
  | dropAll => exact h.dropAll ha
  | ret => exact h.ret
  | throw => exact ⟨k, h.throw ha⟩

theorem initial : Inv System.initial 0 none := by
  refine ⟨rfl, ⟨rfl, Nat.le_refl _, Nat.le_refl _, List.nodup_nil, ?_, fun _ => rfl, ?_,
    fun _ => rfl⟩,
    ⟨?_, ?_, ?_, ?_, ?_, ?_, List.Pairwise.nil, ?_⟩, ⟨?_, ?_, ?_, ?_, ?_, List.nodup_nil, ?_,
    List.Pairwise.nil, ?_⟩⟩ <;> simp [System.initial, System.cell, blank]

end Inv

/-! ## Every drop function runs once -/

namespace System
variable {s : System}

theorem sweep_swept (h : ∀ j ≥ i, s.cell j = blank) : (s.sweep i).Swept s.stack := by
  induction i generalizing s with
  | zero =>
    refine .inl ⟨rfl, rfl, fun j => ?_⟩
    rw [held_eq]
    exact congrArg Slot.obj (h j (Nat.zero_le _))
  | succ i ih =>
    rw [sweep]
    cases ho : s.owed i with
    | none =>
      refine ih (s := s.clear i) fun j hj => ?_
      rw [cell_clear]
      split <;> rename_i hji
      · rfl
      · exact h j (by omega)
    | some old =>
      refine .inr ⟨s.gen, i, old, rfl, (held_eq s i).trans (obj_of_owed ho).1, fun j hj => ?_⟩
      exact (held_eq s j).trans (congrArg Slot.obj (h j hj))

end System

namespace Inv
variable {s : System}

theorem get (h : Inv s k none) (hg : s.get n = .ok o) : o = s.last n := by
  unfold System.get at hg
  cases hl : s.lookup n with
  | error fault => simp [hl, Except.map] at hg
  | ok i =>
    rw [hl] at hg
    cases hg
    cases i with
    | none => exact (h.table.lost (h.table.lookup_none hl).2).symm
    | some i => exact (System.held_eq s i).trans (h.table.last (Table.lookup_some hl)).symm

theorem resumed (h : Inv s k none) (hs : s.stack = .sweep g i v :: rest) : s.ret.Swept rest := by
  have hmem : .sweep g i v ∈ s.stack := hs ▸ List.mem_cons_self
  unfold System.ret
  rw [hs]
  dsimp only
  rw [if_neg (not_not_intro (h.frames.gens hmem))]
  refine System.sweep_swept fun j hj => ?_
  rw [System.cell_clear]
  split <;> rename_i hji
  · rfl
  · have := h.frames.sweeps hmem rfl
    exact h.table.freed (s := s) (by show k ≤ j; exact Nat.le_trans this (by show i + 1 ≤ j; omega))

theorem exact (h : Inv s k none) : s.Exact where
  running := h.running
  once := h.values.once
  dropped := h.values.dropped
  rebound := by
    intro v n hs
    obtain ⟨m, d, hb, hc | hc⟩ := h.values.started hs
    · cases hc
    · cases hc
      exact ⟨d, hb⟩
  unbound := by
    intro i v hi hv
    rw [System.held_eq] at hi
    rcases h.frames.waits hi hv with hhole | ⟨f, hmem, rfl⟩
    · cases hhole
    · refine ⟨f, hmem, rfl, ?_⟩
      rcases h.frames.slot hmem with hslot | hslot <;> rw [hslot] at hi
      · cases hi
      · exact Option.some.inj hi
  names := by
    intro n i hn
    rw [System.name_eq] at hn
    exact h.table.first_of_name hn
  get := h.get
  ended := by
    intro i hlen
    have hk := h.table.le_len
    rw [System.owed_eq, h.table.freed (by omega)]
    rfl
  dropAll := System.sweep_swept fun j hj => h.table.freed (Nat.le_trans h.table.le_len hj)
  resumed := h.resumed

end Inv

/-- In a run in which no drop function binds a name into a slot that an operation waits for, ends
the session, or throws, with the value it drops still bound, each value has its drop function
started once. -/
theorem System.drops_once
    (h : Steps (Steps.guarded System.Step System.Admits) System.initial as s) : s.Exact := by
  have hinv : ∃ k, Inv s k none := by
    refine h.preserves (P := fun s => ∃ k, Inv s k none) ?_ ⟨0, Inv.initial⟩
    rintro s a s' ⟨ha, hs⟩ ⟨k, hk⟩
    exact hk.step ha hs
  obtain ⟨k, hk⟩ := hinv
  exact hk.exact

/-- A rebind and the end of the session, each with a drop function that returns. -/
theorem System.drops_once_two : System.Exact (((((System.initial.bind "a" 1 true false).bind "a" 2
    true false).ret).dropAll).ret) := by
  have hrun : Steps (Steps.guarded System.Step System.Admits) System.initial
      [.bind "a" 1 true false, .bind "a" 2 true false, .ret, .dropAll, .ret]
      (((((System.initial.bind "a" 1 true false).bind "a" 2 true false).ret).dropAll).ret) := by
    refine .cons ⟨?_, rfl, ?_, rfl⟩ (.cons ⟨?_, rfl, ?_, rfl⟩ (.cons ⟨trivial, rfl, ?_, rfl⟩
      (.cons ⟨?_, rfl, trivial, rfl⟩ (.cons ⟨trivial, rfl, ?_, rfl⟩ .nil)))) <;> decide
  exact System.drops_once hrun

/-- The drop function that a rebind runs throws: its value stays bound. -/
theorem System.thrown_stays : ∃ s, Steps System.Step System.initial
    [.bind "a" 1 true false, .bind "a" 2 true false, .throw] s ∧
    s.stack = [] ∧ s.Begun 1 ∧ s.get "a" = .ok (some 1) ∧ ¬s.Exact := by
  refine ⟨_, .cons ⟨rfl, ?_, rfl⟩ (.cons ⟨rfl, ?_, rfl⟩ (.cons ⟨rfl, ?_, rfl⟩ .nil)), rfl,
    ⟨some "a", ?_⟩, rfl, fun h => ?_⟩
  · decide
  · decide
  · decide
  · decide
  · obtain ⟨f, hf, -⟩ := h.unbound (i := 0) (v := 1) rfl ⟨some "a", by decide⟩
    cases hf

end Cajeta.Memory.Session
