import Cajeta.Memory.LiveSet

/-!
# The live-allocation set as a set

As long as no add takes the slot of a tombstone, a pointer is in one slot only, the counters are
exact and the claims answer as those on a set do.
-/

namespace Cajeta.Memory

open Cells LinearProbe

namespace LiveSlot

def key : LiveSlot → Option Nat
  | .tombstone => none
  | .ptr p => some p

end LiveSlot

namespace LiveSet

variable {t : List (Option LiveSlot)} {S : Finset Nat}

def home (p : Nat) : Nat := p >>> 3

/-- The entry of a member of the set. -/
def member (S : Finset Nat) (p : Nat) : Option LiveSlot := if p ∈ S then some (.ptr p) else none

theorem member_insert (S : Finset Nat) (p : Nat) :
    Function.update (member S) p (some (.ptr p)) = member (insert p S) := by
  funext q
  rcases eq_or_ne q p with rfl | hne
  · rw [Function.update_self, member, if_pos (Finset.mem_insert_self q S)]
  · rw [Function.update_of_ne hne, member, member]
    congr 1
    rw [Finset.mem_insert, eq_false hne, false_or]

theorem member_erase (S : Finset Nat) (p : Nat) :
    Function.update (member S) p none = member (S.erase p) := by
  funext q
  rcases eq_or_ne q p with rfl | hne
  · rw [Function.update_self, member, if_neg (Finset.notMem_erase q S)]
  · rw [Function.update_of_ne hne, member, member]
    congr 1
    rw [Finset.mem_erase, eq_true hne, true_and]

def isPtr (x : Option LiveSlot) : Bool := x matches some (.ptr _)
def isTombstone (x : Option LiveSlot) : Bool := x matches some .tombstone

def ptrs (t : List (Option LiveSlot)) : Nat := t.countP isPtr
def tombs (t : List (Option LiveSlot)) : Nat := t.countP isTombstone

theorem load_eq (t : List (Option LiveSlot)) : load t = ptrs t + tombs t := by
  induction t with
  | nil => rfl
  | cons x t ih =>
    simp only [load, ptrs, tombs, List.countP_cons] at ih ⊢
    rcases x with - | - | p
    · simpa [isPtr, isTombstone] using ih
    · simp only [isPtr, isTombstone, Option.isSome, if_true, Bool.false_eq_true, if_false] at ih ⊢
      omega
    · simp only [isPtr, isTombstone, Option.isSome, if_true, Bool.false_eq_true, if_false] at ih ⊢
      omega

theorem getElem_of_slot (hi : i < t.length) (h : slot t i = x) : t[i] = x := by
  rw [slot, List.getElem?_eq_getElem hi] at h
  exact h

theorem count_fill (hi : i < t.length) (h : slot t i = none) (p : Nat) :
    ptrs (t.set i (some (.ptr p))) = ptrs t + 1 ∧ tombs (t.set i (some (.ptr p))) = tombs t := by
  have hold := getElem_of_slot hi h
  rw [ptrs, ptrs, tombs, tombs, List.countP_set hi, List.countP_set hi, hold]
  exact ⟨rfl, rfl⟩

theorem count_bury (hi : i < t.length) (h : slot t i = some (.ptr p)) :
    ptrs (t.set i (some .tombstone)) + 1 = ptrs t ∧
      tombs (t.set i (some .tombstone)) = tombs t + 1 := by
  have hold := getElem_of_slot hi h
  have hpos : 0 < ptrs t := List.countP_pos_iff.mpr ⟨t[i], List.getElem_mem hi, by rw [hold]; rfl⟩
  rw [ptrs, tombs, tombs, List.countP_set hi, List.countP_set hi, hold]
  refine ⟨?_, rfl⟩
  change t.countP isPtr - 1 + 0 + 1 = ptrs t
  rw [ptrs] at hpos ⊢
  omega

/-- The table of 2^k slots holds the pointers of the set, each once on its probe. -/
structure Tracks (k : Nat) (t : List (Option LiveSlot)) (S : Finset Nat) : Prop where
  length : t.length = 2 ^ k
  card : ptrs t = S.card
  serves : Serves (2 ^ k) LiveSlot.key home (slot t) (member S)

theorem index_eq (k p i : Nat) :
    (p >>> 3 &&& (2 ^ k - 1)) + i &&& (2 ^ k - 1) = pos (2 ^ k) (home p) i := by
  rw [Nat.and_two_pow_sub_one_eq_mod, Nat.and_two_pow_sub_one_eq_mod, Nat.mod_add_mod]
  rfl

/-- The first `d` slots on the probe for `p` hold other pointers. -/
def OthersBefore (cap : Nat) (t : List (Option LiveSlot)) (p d : Nat) : Prop :=
  ∀ i < d, ∃ q, slot t (pos cap (home p) i) = some (.ptr q) ∧ q ≠ p

theorem OthersBefore.passed (h : OthersBefore m t p d) :
    Passed m LiveSlot.key home (slot t) p d := by
  intro i hi
  obtain ⟨q, hq, hne⟩ := h i hi
  exact ⟨_, hq, fun heq => hne (Option.some.inj heq)⟩

/-- The probe of an add for `p` meets a tombstone, with other pointers before it only. -/
def Reuses (cap : Nat) (t : List (Option LiveSlot)) (p : Nat) : Prop :=
  ∃ d, OthersBefore cap t p d ∧ slot t (pos cap (home p) d) = some .tombstone

/-- What an insertion comes to that meets no tombstone. -/
structure Inserted (k : Nat) (t : List (Option LiveSlot)) (S : Finset Nat) (p : Nat)
    (r : List (Option LiveSlot) × Bool) : Prop where
  tracks : Tracks k r.1 (insert p S)
  tombs : tombs r.1 = tombs t
  added : r.2 = decide (p ∉ S)

theorem insertLoop_spec (ht : Tracks k t S) (hempty : ∃ i < 2 ^ k, slot t i = none)
    (hno : ¬ Reuses (2 ^ k) t p) (hd : OthersBefore (2 ^ k) t p d) (hn : n + d = 2 ^ k) :
    Inserted k t S p (insertLoop (2 ^ k) p n d t) := by
  induction n generalizing d with
  | zero =>
    have := hd.passed.lt hempty
    omega
  | succ n ih =>
    have hpos : pos (2 ^ k) (home p) d < t.length := by
      rw [ht.length]
      exact pos_lt (Nat.two_pow_pos k)
    rw [insertLoop]
    simp only [index_eq]
    split
    · next hslot =>
      have hnew : p ∉ S := by
        have := ht.serves.find_eq_none hd.passed hslot
        rw [member] at this
        intro hmem
        rw [if_pos hmem] at this
        cases this
      obtain ⟨hptrs, htombs⟩ := count_fill hpos hslot p
      refine ⟨⟨List.length_set.trans ht.length, ?_, ?_⟩, htombs, (decide_eq_true hnew).symm⟩
      · rw [hptrs, Finset.card_insert_of_notMem hnew, ht.card]
      · rw [slot_set hpos, ← member_insert]
        exact ht.serves.insert rfl hd.passed hslot
    · next hslot => exact absurd ⟨d, hd, hslot⟩ hno
    · next q hslot =>
      split
      · next heq =>
        subst heq
        have hmem : q ∈ S := by
          have := ht.serves.find_eq_some (Nat.two_pow_pos k) hslot rfl
          rw [member] at this
          by_contra hne
          rw [if_neg hne] at this
          cases this
        rw [← Finset.insert_eq_of_mem hmem] at ht
        exact ⟨ht, rfl, (decide_eq_false (not_not.mpr hmem)).symm⟩
      · next hne =>
        refine ih (fun i hi => ?_) (by omega)
        rcases Nat.lt_succ_iff_lt_or_eq.mp hi with hlt | rfl
        · exact hd i hlt
        · exact ⟨q, hslot, hne⟩

theorem Tracks.exists_empty (ht : Tracks k t S) (h : S.card + tombs t < 2 ^ k) :
    ∃ i < 2 ^ k, slot t i = none := by
  have hload := load_eq t
  rw [ht.card] at hload
  obtain ⟨i, hi, hnone⟩ := LinearProbe.exists_empty (t := t) (by rw [ht.length]; omega)
  exact ⟨i, ht.length ▸ hi, hnone⟩

theorem not_reuses (h : tombs t = 0) : ¬ Reuses m t p := by
  rintro ⟨d, -, hslot⟩
  rw [slot, Option.join_eq_some_iff] at hslot
  have hmem := List.mem_of_getElem? hslot
  exact absurd h (Nat.pos_iff_ne_zero.mp (List.countP_pos_iff.mpr ⟨_, hmem, rfl⟩))

/-- The pointers in some slots. -/
def held (slots : List (Option LiveSlot)) : Finset Nat :=
  (slots.filterMap fun x => x.bind LiveSlot.key).toFinset

theorem tracks_replicate (k : Nat) : Tracks k (.replicate (2 ^ k) none) ∅ where
  length := List.length_replicate
  card := by
    rw [ptrs, List.countP_replicate]
    rfl
  serves := by
    have hslot : slot (List.replicate (2 ^ k) (none : Option LiveSlot)) = fun _ => none := by
      funext i
      rw [slot, List.getElem?_replicate]
      split
      · rfl
      · rfl
    rw [hslot, show member ∅ = fun _ => none from rfl]
    exact Serves.empty _ _ _

theorem reinsert_spec {fresh : List (Option LiveSlot)} (old : List (Option LiveSlot))
    (hf : Tracks k fresh S)
    (htombs : tombs fresh = 0) (hroom : (S ∪ held old).card < 2 ^ k) :
    Tracks k (reinsert (2 ^ k) old fresh) (S ∪ held old) ∧
      tombs (reinsert (2 ^ k) old fresh) = 0 := by
  induction old generalizing fresh S with
  | nil =>
    rw [held, List.filterMap_nil, List.toFinset_nil, Finset.union_empty]
    exact ⟨hf, htombs⟩
  | cons x old ih =>
    rcases x with - | - | p
    · exact ih hf htombs hroom
    · exact ih hf htombs hroom
    · have hsplit : S ∪ held (some (.ptr p) :: old) = insert p S ∪ held old := by
        rw [held, List.filterMap_cons_some (by rfl), List.toFinset_cons, held,
          Finset.union_insert, Finset.insert_union]
      rw [hsplit] at hroom ⊢
      have hcard : S.card ≤ (insert p S ∪ held old).card :=
        Finset.card_le_card ((Finset.subset_insert p S).trans Finset.subset_union_left)
      have hins := insertLoop_spec (d := 0) (n := 2 ^ k) (p := p) hf
        (hf.exists_empty (by omega)) (not_reuses htombs) (fun i hi => by omega) rfl
      exact ih hins.tracks (hins.tombs.trans htombs) hroom

theorem held_eq (ht : Tracks k t S) : held t = S := by
  ext p
  rw [held, List.mem_toFinset, List.mem_filterMap]
  constructor
  · rintro ⟨x, hx, hkey⟩
    obtain ⟨e, rfl, he⟩ := Option.bind_eq_some_iff.mp hkey
    obtain ⟨i, hi, hget⟩ := List.getElem_of_mem hx
    have hslot : slot t i = some e := by
      rw [slot, List.getElem?_eq_getElem hi, hget]
      rfl
    have := ht.serves.sound i (ht.length ▸ hi) e p hslot he
    rw [member] at this
    by_contra hne
    rw [if_neg hne] at this
    cases this
  · intro hp
    obtain ⟨-, d, hslot, -⟩ := ht.serves.complete p (.ptr p) (if_pos hp)
    rw [slot, Option.join_eq_some_iff] at hslot
    exact ⟨_, List.mem_of_getElem? hslot, rfl⟩

/-! ## Calls -/

/-- A set with a table: the counters are exact, and a quarter of the slots is empty. -/
structure Live (s : LiveSet) (S : Finset Nat) (k : Nat) (t : List (Option LiveSlot)) : Prop where
  table : s.table = some t
  cap : s.cap = 2 ^ k
  four : 2 ≤ k
  tracks : Tracks k t S
  count : s.count = S.card
  tombstones : s.tombstones = tombs t
  occupied : 4 * (S.card + tombs t) ≤ 3 * 2 ^ k
  small : S.card ≤ 2147483647
  proper : 0 ∉ S ∧ tombstoneAddr ∉ S

def Inv (s : LiveSet) (S : Finset Nat) : Prop := s = new ∧ S = ∅ ∨ ∃ k t, Live s S k t

theorem four_dvd (hk : 2 ≤ k) : ∃ m, 2 ^ k = 4 * m ∧ 0 < m := by
  obtain ⟨j, rfl⟩ := Nat.exists_eq_add_of_le hk
  exact ⟨2 ^ j, by rw [Nat.pow_add], Nat.two_pow_pos j⟩

theorem Live.exists_empty (h : Live s S k t) : ∃ i < 2 ^ k, slot t i = none := by
  have hocc := h.occupied
  have hpos := Nat.two_pow_pos k
  exact h.tracks.exists_empty (by omega)

theorem Live.sizeT_count (h : Live s S k t) : sizeT s.count = S.card := by
  have hsmall := h.small
  rw [sizeT, h.count]
  omega

theorem Live.rehash (k' : Nat) (h : Live s S k t) (hk : 2 ≤ k') (hroom : 4 * S.card < 3 * 2 ^ k') :
    ∃ t', Live (s.rehash (2 ^ k')) S k' t' ∧ tombs t' = 0 := by
  have hpos := Nat.two_pow_pos k'
  obtain ⟨htracks, htombs⟩ := reinsert_spec t (tracks_replicate k')
    (by rw [tombs, List.countP_replicate]; rfl)
    (by rw [Finset.empty_union, held_eq h.tracks]; omega)
  rw [Finset.empty_union, held_eq h.tracks] at htracks
  refine ⟨_, ⟨?_, rfl, hk, htracks, h.count, htombs.symm, by omega, h.small, h.proper⟩, htombs⟩
  rw [LiveSet.rehash, h.table]
  rfl

theorem grown_spec (h : Inv s S) :
    ∃ k t, Live s.grown S k t ∧ 4 * (S.card + tombs t) < 3 * 2 ^ k := by
  rcases h with ⟨rfl, rfl⟩ | ⟨k, t, h⟩
  · refine ⟨18, .replicate (2 ^ 18) none, ⟨rfl, rfl, by decide, tracks_replicate 18, rfl, ?_, ?_,
      Nat.zero_le _, Finset.notMem_empty _, Finset.notMem_empty _⟩, ?_⟩
    · rw [tombs, List.countP_replicate]
      rfl
    · rw [tombs, List.countP_replicate, Finset.card_empty]
      decide
    · rw [tombs, List.countP_replicate, Finset.card_empty]
      decide
  · obtain ⟨m, hm, hpos⟩ := four_dvd h.four
    have hocc := h.occupied
    have htable : s.table ≠ none := by
      rw [h.table]
      exact Option.some_ne_none t
    simp only [grown, if_neg htable, h.sizeT_count, h.tombstones, h.cap]
    split
    · split
      · obtain ⟨t', h', htombs⟩ := h.rehash (k + 1) (Nat.le_succ_of_le h.four)
          (by rw [pow_succ]; omega)
        rw [pow_succ] at h'
        exact ⟨k + 1, t', h', by rw [htombs, pow_succ]; omega⟩
      · obtain ⟨t', h', htombs⟩ := h.rehash k h.four (by omega)
        exact ⟨k, t', h', by rw [htombs]; omega⟩
    · exact ⟨k, t, h, by omega⟩

theorem Inv.count (h : Inv s S) : s.count = S.card := by
  rcases h with ⟨rfl, rfl⟩ | ⟨k, t, h⟩
  · rfl
  · exact h.count

theorem add_spec (h : Inv s S) (hp : p ≠ 0 ∧ p ≠ tombstoneAddr) (hcount : s.count < 2147483647)
    (hno : ¬ Reuses s.grown.cap (s.grown.table.getD []) p) : Inv (s.add p) (insert p S) := by
  obtain ⟨k, t, hg, hocc⟩ := grown_spec h
  obtain ⟨m, hm, -⟩ := four_dvd hg.four
  have hsmall := h.count
  rw [hg.table, hg.cap] at hno
  have hins := insertLoop_spec (d := 0) (n := 2 ^ k) hg.tracks hg.exists_empty hno
    (fun i hi => by omega) rfl
  have hcard := Finset.card_insert_le p S
  rw [LiveSet.add, if_neg (not_or.mpr hp)]
  simp only [hg.table, hg.cap, Option.getD_some]
  refine .inr ⟨k, _, ⟨rfl, rfl, hg.four, hins.tracks, ?_, ?_, ?_, by omega, ?_⟩⟩
  · simp only [insertInto, hins.added, decide_eq_true_eq, hg.count]
    split
    · next hnew =>
      rw [Finset.card_insert_of_notMem hnew, i32_eq (by omega) (by omega)]
      rfl
    · next hold => rw [Finset.insert_eq_of_mem (not_not.mp hold)]
  · exact hg.tombstones.trans hins.tombs.symm
  · have htombs : tombs (insertInto t (2 ^ k) p).1 = tombs t := hins.tombs
    omega
  · simp only [Finset.mem_insert, not_or]
    exact ⟨⟨hp.1.symm, hg.proper.1⟩, hp.2.symm, hg.proper.2⟩

theorem removeLoop_spec (ht : Tracks k t S) (hempty : ∃ i < 2 ^ k, slot t i = none)
    (hd : Passed (2 ^ k) LiveSlot.key home (slot t) p d) (hn : n + d = 2 ^ k) :
    (p ∉ S ∧ removeLoop (2 ^ k) p n d t = none) ∨
      (p ∈ S ∧ ∃ t', removeLoop (2 ^ k) p n d t = some t' ∧ Tracks k t' (S.erase p) ∧
        tombs t' = tombs t + 1) := by
  induction n generalizing d with
  | zero =>
    have := hd.lt hempty
    omega
  | succ n ih =>
    have hpos : pos (2 ^ k) (home p) d < t.length := by
      rw [ht.length]
      exact pos_lt (Nat.two_pow_pos k)
    rw [removeLoop]
    simp only [index_eq]
    split
    · next hslot =>
      refine .inl ⟨fun hmem => ?_, rfl⟩
      have := ht.serves.find_eq_none hd hslot
      rw [member, if_pos hmem] at this
      cases this
    · next hslot => exact ih (hd.succ hslot (Option.some_ne_none p).symm) (by omega)
    · next q hslot =>
      split
      · next heq =>
        subst heq
        have hmem : q ∈ S := by
          have := ht.serves.find_eq_some (Nat.two_pow_pos k) hslot rfl
          rw [member] at this
          by_contra hne
          rw [if_neg hne] at this
          cases this
        obtain ⟨hptrs, htombs⟩ := count_bury hpos hslot
        refine .inr ⟨hmem, _, rfl, ⟨List.length_set.trans ht.length, ?_, ?_⟩, htombs⟩
        · rw [Finset.card_erase_of_mem hmem, ← ht.card, ← hptrs, Nat.add_sub_cancel]
        · rw [slot_set hpos, ← member_erase]
          exact ht.serves.remove (pos_lt (Nat.two_pow_pos k)) hslot rfl rfl
      · next hne =>
        exact ih (hd.succ hslot fun heq => hne (Option.some.inj heq)) (by omega)

theorem claim_spec (h : Inv s S) (p : Nat) :
    (s.claim p).2 = decide (p ∈ S) ∧ Inv (s.claim p).1 (S.erase p) := by
  rcases h with ⟨rfl, rfl⟩ | ⟨k, t, h⟩
  · have hclaim : new.claim p = (new, false) := by
      rw [claim]
      split <;> rfl
    rw [hclaim, Finset.erase_empty]
    exact ⟨rfl, .inl ⟨rfl, rfl⟩⟩
  · rw [claim]
    split
    · next hp =>
      have hnot : p ∉ S := by
        rcases hp with rfl | rfl
        · exact h.proper.1
        · exact h.proper.2
      rw [Finset.erase_eq_of_notMem hnot, decide_eq_false hnot]
      exact ⟨rfl, .inr ⟨k, t, h⟩⟩
    · simp only [h.table, h.cap]
      rcases removeLoop_spec (d := 0) (n := 2 ^ k) h.tracks h.exists_empty passed_zero rfl with
        ⟨hnot, hloop⟩ | ⟨hmem, t', hloop, ht', htombs⟩
      · rw [hloop, Finset.erase_eq_of_notMem hnot, decide_eq_false hnot]
        exact ⟨rfl, .inr ⟨k, t, h⟩⟩
      · rw [hloop, decide_eq_true hmem]
        have hcard := Finset.card_erase_add_one hmem
        have hsmall := h.small
        have hocc := h.occupied
        refine ⟨rfl, .inr ⟨k, t', ⟨rfl, rfl, h.four, ht', ?_, ?_, by omega, by omega, ?_⟩⟩⟩
        · simp only [h.count]
          rw [i32_eq (by omega) (by omega)]
          omega
        · simp only [h.tombstones, htombs]
        · exact ⟨fun hm => h.proper.1 (Finset.mem_of_mem_erase hm),
            fun hm => h.proper.2 (Finset.mem_of_mem_erase hm)⟩

/-- An add is for a pointer, has room in the counter and takes no tombstone's slot. -/
def Admits : LiveSet → List Call → Prop
  | _, [] => True
  | s, .add p :: calls =>
    (p ≠ 0 ∧ p ≠ tombstoneAddr) ∧ s.count < 2147483647 ∧
      ¬ Reuses s.grown.cap (s.grown.table.getD []) p ∧ Admits (s.add p) calls
  | s, .claim p :: calls => Admits (s.claim p).1 calls

theorem run_spec (h : Inv s S) (calls : List Call) (hadm : Admits s calls) :
    (s.run calls).2 = (setRun S calls).2 ∧ Inv (s.run calls).1 (setRun S calls).1 := by
  induction calls generalizing s S with
  | nil => exact ⟨rfl, h⟩
  | cons call calls ih =>
    cases call with
    | add p =>
      obtain ⟨hp, hcount, hno, hrest⟩ := hadm
      exact ih (add_spec h hp hcount hno) hrest
    | claim p =>
      obtain ⟨hwon, h'⟩ := claim_spec h p
      obtain ⟨hres, hinv⟩ := ih h' hadm
      refine ⟨?_, hinv⟩
      rw [run, setRun]
      simp only [hwon, hres]

/-- The counters are exact, and there is an empty slot for every probe to end at. -/
def Exact (s : LiveSet) (S : Finset Nat) : Prop :=
  s.population = S.card ∧ s.count = ptrs (s.table.getD []) ∧
    s.tombstones = tombs (s.table.getD []) ∧
    ∀ t, s.table = some t → ∃ i < s.cap, slot t i = none

theorem Inv.exact (h : Inv s S) : Exact s S := by
  rcases h with ⟨rfl, rfl⟩ | ⟨k, t, h⟩
  · exact ⟨rfl, rfl, rfl, fun t ht => by cases ht⟩
  · rw [Exact, population, h.table]
    refine ⟨h.count, ?_, h.tombstones, fun t' ht' => ?_⟩
    · rw [h.count, Option.getD_some, h.tracks.card]
    · cases ht'
      rw [h.cap]
      exact h.exists_empty

/-- The claims of a run answer as on a set of pointers, and the counters are exact. -/
theorem run_refines (calls : List Call) (h : Admits new calls) :
    (new.run calls).2 = (setRun ∅ calls).2 ∧ Exact (new.run calls).1 (setRun ∅ calls).1 := by
  obtain ⟨hres, hinv⟩ := run_spec (.inl ⟨rfl, rfl⟩) calls h
  exact ⟨hres, hinv.exact⟩

theorem run_refines_claim :
    (new.run [.add 16, .claim 16, .claim 16]).2 = [true, false] ∧
      Exact (new.run [.add 16, .claim 16, .claim 16]).1 ∅ := by
  have hfree : ¬ Reuses new.grown.cap (new.grown.table.getD []) 16 := by
    refine not_reuses (t := List.replicate (2 ^ 18) none) ?_
    rw [tombs, List.countP_replicate]
    rfl
  have hadm : Admits new [.add 16, .claim 16, .claim 16] :=
    ⟨by decide, (by decide : (0 : Int) < 2147483647), hfree, trivial⟩
  have hset : setRun ∅ [.add 16, .claim 16, .claim 16] = (∅, [true, false]) := by decide
  have h := run_refines _ hadm
  rwa [hset] at h

/-! ## Reuse of a tombstone -/

theorem insertLoop_take (h : slot t ((p >>> 3 &&& (m - 1)) + i &&& (m - 1)) = none ∨
      slot t ((p >>> 3 &&& (m - 1)) + i &&& (m - 1)) = some .tombstone) :
    insertLoop m p (n + 1) i t =
      (t.set ((p >>> 3 &&& (m - 1)) + i &&& (m - 1)) (some (.ptr p)), true) := by
  rw [insertLoop]
  rcases h with h | h <;> simp only [h]

theorem insertLoop_pass (h : slot t ((p >>> 3 &&& (m - 1)) + i &&& (m - 1)) = some (.ptr q))
    (hne : q ≠ p) : insertLoop m p (n + 1) i t = insertLoop m p n (i + 1) t := by
  rw [insertLoop]
  simp only [h, if_neg hne]

theorem removeLoop_take (h : slot t ((p >>> 3 &&& (m - 1)) + i &&& (m - 1)) = some (.ptr p)) :
    removeLoop m p (n + 1) i t =
      some (t.set ((p >>> 3 &&& (m - 1)) + i &&& (m - 1)) (some .tombstone)) := by
  rw [removeLoop]
  simp only [h, if_true]

theorem removeLoop_pass (h : slot t ((p >>> 3 &&& (m - 1)) + i &&& (m - 1)) = some .tombstone) :
    removeLoop m p (n + 1) i t = removeLoop m p n (i + 1) t := by
  rw [removeLoop]
  simp only [h]

theorem add_small (hp : p ≠ 0 ∧ p ≠ tombstoneAddr) (hused : sizeT c + d < 196608)
    (hins : insertLoop 262144 p (262143 + 1) 0 t = (t', true)) :
    add ⟨some t, 262144, c, d⟩ p = ⟨some t', 262144, i32 (c + 1), d⟩ := by
  have hgrown : grown ⟨some t, 262144, c, d⟩ = ⟨some t, 262144, c, d⟩ := by
    simp only [grown, reduceCtorEq, if_false]
    rw [if_neg (by omega)]
  rw [add, if_neg (not_or.mpr hp), hgrown]
  simp only [Option.getD_some, insertInto, hins, if_true]

theorem claim_small (hp : p ≠ 0 ∧ p ≠ tombstoneAddr)
    (hrem : removeLoop 262144 p (262143 + 1) 0 t = some t') :
    claim ⟨some t, 262144, c, d⟩ p = (⟨some t', 262144, i32 (c - 1), d + 1⟩, true) := by
  rw [claim, if_neg (not_or.mpr hp)]
  simp only [hrem]

/-- Two pointers share a slot: the second is behind the first, whose claim leaves a tombstone that
a second add of the live pointer takes. -/
theorem doubles_of_empty (hlen : t.length = 262144) (ht : ∀ i, slot t i = none) :
    (run ⟨some t, 262144, 0, 0⟩ [.add 16, .add 2097168, .claim 16, .add 2097168, .claim 2097168,
      .claim 2097168]).2 = [true, true, true] := by
  have h₁ : add ⟨some t, 262144, 0, 0⟩ 16 = ⟨some (t.set 2 (some (.ptr 16))), 262144, 1, 0⟩ :=
    add_small (by decide) (by decide) (insertLoop_take (.inl (ht _)))
  generalize hu : t.set 2 (some (.ptr 16)) = u at h₁
  have hu2 : slot u = Function.update (slot t) 2 (some (.ptr 16)) := hu ▸ slot_set (by omega)
  have hulen : u.length = 262144 := hu ▸ List.length_set.trans hlen
  have h₂ : add ⟨some u, 262144, 1, 0⟩ 2097168 =
      ⟨some (u.set 3 (some (.ptr 2097168))), 262144, 2, 0⟩ := by
    refine add_small (by decide) (by decide) ?_
    rw [insertLoop_pass (q := 16) (by rw [hu2]; rfl) (by decide)]
    exact insertLoop_take (n := 262142) (.inl (by rw [hu2]; exact ht 3))
  generalize hv : u.set 3 (some (.ptr 2097168)) = v at h₂
  have hv2 : slot v = Function.update (slot u) 3 (some (.ptr 2097168)) := hv ▸ slot_set (by omega)
  have hvlen : v.length = 262144 := hv ▸ List.length_set.trans hulen
  have h₃ : claim ⟨some v, 262144, 2, 0⟩ 16 =
      (⟨some (v.set 2 (some .tombstone)), 262144, 1, 1⟩, true) :=
    claim_small (by decide) (removeLoop_take (by rw [hv2, hu2]; rfl))
  generalize hw : v.set 2 (some .tombstone) = w at h₃
  have hw2 : slot w = Function.update (slot v) 2 (some .tombstone) := hw ▸ slot_set (by omega)
  have hwlen : w.length = 262144 := hw ▸ List.length_set.trans hvlen
  have h₄ : add ⟨some w, 262144, 1, 1⟩ 2097168 =
      ⟨some (w.set 2 (some (.ptr 2097168))), 262144, 2, 1⟩ :=
    add_small (by decide) (by decide) (insertLoop_take (.inr (by rw [hw2]; rfl)))
  generalize hx : w.set 2 (some (.ptr 2097168)) = x at h₄
  have hx2 : slot x = Function.update (slot w) 2 (some (.ptr 2097168)) := hx ▸ slot_set (by omega)
  have hxlen : x.length = 262144 := hx ▸ List.length_set.trans hwlen
  have h₅ : claim ⟨some x, 262144, 2, 1⟩ 2097168 =
      (⟨some (x.set 2 (some .tombstone)), 262144, 1, 2⟩, true) :=
    claim_small (by decide) (removeLoop_take (by rw [hx2]; rfl))
  generalize hy : x.set 2 (some .tombstone) = y at h₅
  have hy2 : slot y = Function.update (slot x) 2 (some .tombstone) := hy ▸ slot_set (by omega)
  have h₆ : claim ⟨some y, 262144, 1, 2⟩ 2097168 =
      (⟨some (y.set 3 (some .tombstone)), 262144, 0, 3⟩, true) := by
    refine claim_small (by decide) ?_
    rw [removeLoop_pass (by rw [hy2]; rfl)]
    exact removeLoop_take (n := 262142) (by rw [hy2, hx2, hw2, hv2]; rfl)
  simp only [run, h₁, h₂, h₃, h₄, h₅, h₆]

/-- A second add of a live pointer takes the tombstone before it, and both copies are claimed. -/
theorem run_doubles :
    (new.run [.add 16, .add 2097168, .claim 16, .add 2097168, .claim 2097168, .claim 2097168]).2 =
        [true, true, true] ∧
      (setRun ∅ [.add 16, .add 2097168, .claim 16, .add 2097168, .claim 2097168,
        .claim 2097168]).2 = [true, true, false] := by
  refine ⟨?_, by decide⟩
  have hfirst : new.add 16 = (⟨some (.replicate 262144 none), 262144, 0, 0⟩ : LiveSet).add 16 :=
    rfl
  have hempty : ∀ i, slot (List.replicate 262144 (none : Option LiveSlot)) i = none := by
    intro i
    rw [slot, List.getElem?_replicate]
    split <;> rfl
  have hrun := doubles_of_empty List.length_replicate hempty
  rw [run, ← hfirst] at hrun
  exact hrun

end LiveSet

end Cajeta.Memory
