import Mathlib.Tactic.Common

/-!
# Finite maps

A finite map over keys with an equality test: a list of entries no two of which have equal keys.
What an operation changes is said by what `lookup` and `size` return afterwards.
-/

structure FinMap (K V : Type*) [BEq K] where
  entries : List (K × V)
  distinct : entries.Pairwise fun a b => (a.1 == b.1) = false

namespace FinMap
variable {K V : Type*} [BEq K]

def empty : FinMap K V := ⟨[], .nil⟩

def lookup (f : FinMap K V) (k : K) : Option V := (f.entries.find? (·.1 == k)).map (·.2)

def contains (f : FinMap K V) (k : K) : Bool := (f.lookup k).isSome

def size (f : FinMap K V) : Nat := f.entries.length

/-- Replaces the value under `k`, or adds an entry for it. -/
def insert [EquivBEq K] (f : FinMap K V) (k : K) (v : V) : FinMap K V where
  entries :=
    if f.contains k then f.entries.map fun e => if e.1 == k then (e.1, v) else e
    else (k, v) :: f.entries
  distinct := by
    split
    · refine List.pairwise_map.mpr (f.distinct.imp fun {a b} h => ?_)
      split <;> split <;> exact h
    · next hno =>
      refine List.pairwise_cons.mpr ⟨fun e he => ?_, f.distinct⟩
      simp only [contains, lookup, Option.isSome_map, List.find?_isSome, not_exists, not_and] at hno
      exact BEq.symm_false (by simpa using hno e he)

def erase (f : FinMap K V) (k : K) : FinMap K V where
  entries := f.entries.filter fun e => !(e.1 == k)
  distinct := f.distinct.filter _

@[simp] theorem lookup_empty : (empty : FinMap K V).lookup k = none := rfl

theorem lookup_congr [EquivBEq K] (f : FinMap K V) (h : (k == k') = true) :
    f.lookup k = f.lookup k' := by
  unfold lookup
  congr 2
  funext e
  exact BEq.congr_right h

private theorem find?_replace [EquivBEq K] (l : List (K × V)) (k k' : K) (v : V) :
    ((l.map fun e => if e.1 == k then (e.1, v) else e).find? (·.1 == k')).map (·.2) =
      if k == k' then (l.find? (·.1 == k')).map fun _ => v
      else (l.find? (·.1 == k')).map (·.2) := by
  induction l with
  | nil => simp
  | cons e l ih =>
    by_cases he : (e.1 == k) = true
    · have hcongr : (e.1 == k') = (k == k') := BEq.congr_left he
      by_cases hk : (k == k') = true
      · simp [he, hcongr, hk]
      · simpa [he, hcongr, hk] using ih
    · by_cases hek : (e.1 == k') = true
      · have hk : (k == k') = false := by
          by_contra hkk
          exact he (BEq.trans hek (BEq.symm (by simpa using hkk)))
        simp [he, hek, hk]
      · simpa [he, hek] using ih

theorem lookup_insert [EquivBEq K] (f : FinMap K V) (k k' : K) (v : V) :
    (f.insert k v).lookup k' = if k == k' then some v else f.lookup k' := by
  by_cases hc : f.contains k = true
  · have hval : ∃ e, f.entries.find? (·.1 == k) = some e := by
      simpa [contains, lookup, Option.isSome_iff_exists] using hc
    simp only [lookup, insert, hc, if_true, find?_replace]
    split
    · next hk =>
      have hcongr : (fun e : K × V => e.1 == k') = (·.1 == k) := by
        funext e
        exact (BEq.congr_right hk).symm
      obtain ⟨e, he⟩ := hval
      rw [hcongr, he]
      rfl
    · rfl
  · simp only [lookup, insert, hc]
    cases hk : k == k' <;> simp [hk]

theorem getD_lookup_foldl_insert [LawfulBEq K] (key : β → K) (upd : V → β → V) (d : V)
    (es : List β) (f : FinMap K V) (k : K) :
    ((es.foldl (fun f e => f.insert (key e) (upd ((f.lookup (key e)).getD d) e)) f).lookup k).getD d
      = (es.filter (key · == k)).foldl upd ((f.lookup k).getD d) := by
  induction es generalizing f with
  | nil => rfl
  | cons e es ih =>
    rw [List.foldl_cons, ih, lookup_insert]
    by_cases hk : (key e == k) = true
    · rw [List.filter_cons_of_pos (by simpa using hk), List.foldl_cons, if_pos hk, eq_of_beq hk]
      rfl
    · rw [List.filter_cons_of_neg (by simpa using hk), if_neg hk]

theorem size_insert [EquivBEq K] (f : FinMap K V) (k : K) (v : V) :
    (f.insert k v).size = if f.contains k then f.size else f.size + 1 := by
  unfold size insert
  split <;> simp

private theorem find?_erase [EquivBEq K] (l : List (K × V)) (k k' : K) :
    ((l.filter fun e => !(e.1 == k)).find? (·.1 == k')).map (·.2) =
      if k == k' then none else (l.find? (·.1 == k')).map (·.2) := by
  induction l with
  | nil => simp
  | cons e l ih =>
    by_cases he : (e.1 == k) = true
    · have hcongr : (e.1 == k') = (k == k') := BEq.congr_left he
      cases hk : k == k' <;> simpa [he, hcongr, hk] using ih
    · by_cases hek : (e.1 == k') = true
      · have hk : (k == k') = false := by
          by_contra hkk
          exact he (BEq.trans hek (BEq.symm (by simpa using hkk)))
        simp [he, hek, hk]
      · simpa [he, hek] using ih

theorem lookup_erase [EquivBEq K] (f : FinMap K V) (k k' : K) :
    (f.erase k).lookup k' = if k == k' then none else f.lookup k' :=
  find?_erase f.entries k k'

theorem size_erase [EquivBEq K] (f : FinMap K V) (k : K) :
    (f.erase k).size = if f.contains k then f.size - 1 else f.size := by
  obtain ⟨l, hl⟩ := f
  simp only [size, erase, contains, lookup, Option.isSome_map]
  induction l with
  | nil => rfl
  | cons e l ih =>
    obtain ⟨hhead, htail⟩ := List.pairwise_cons.mp hl
    have ih := ih htail
    by_cases he : (e.1 == k) = true
    · have hnone : (l.find? (·.1 == k)) = none := by
        refine List.find?_eq_none.mpr fun e' he' hk => ?_
        have := hhead e' he'
        rw [BEq.trans he (BEq.symm hk)] at this
        cases this
      simp only [hnone] at ih
      simpa [he] using ih
    · have he : (e.1 == k) = false := by simpa using he
      simp only [List.filter_cons, he, Bool.not_false, if_true, List.length_cons, ih,
        List.find?_cons]
      split
      · next hsome =>
        have : 0 < l.length := by
          obtain ⟨e', he'⟩ := Option.isSome_iff_exists.mp hsome
          exact List.length_pos_of_mem (List.mem_of_find?_eq_some he')
        omega
      · rfl

end FinMap
