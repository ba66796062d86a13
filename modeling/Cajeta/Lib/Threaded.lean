import Mathlib.Data.List.Basic
import Mathlib.Tactic.Common

/-!
# Threaded trees

A binary tree whose nodes carry a label and whose leaves hold an item, laid out in depth-first
order. Each node knows its escape, the place after its subtree: a walk needs no stack, because it
goes to the next node to descend and to the escape to skip.
-/

namespace Threaded

inductive Tree (β α : Type*) where
  | leaf (label : β) (item : α)
  | node (label : β) (left right : Tree β α)

/-- A place of the layout. A leaf has the number of its slot in the list of items. -/
structure Entry (β : Type*) where
  label : β
  escape : Nat
  slot : Option Nat

namespace Tree
variable {α β : Type*}

def size : Tree β α → Nat
  | .leaf .. => 1
  | .node _ l r => l.size + r.size + 1

def items : Tree β α → List α
  | .leaf _ a => [a]
  | .node _ l r => l.items ++ r.items

def labels : Tree β α → List β
  | .leaf b _ => [b]
  | .node b l r => b :: (l.labels ++ r.labels)

/-- The layout from the place `i` and the slot `s` on. -/
def thread : Tree β α → (i s : Nat) → List (Entry β)
  | .leaf b _, i, s => [⟨b, i + 1, some s⟩]
  | t@(.node b l r), i, s =>
    ⟨b, i + t.size, none⟩ :: (l.thread (i + 1) s ++ r.thread (i + 1 + l.size) (s + l.items.length))

/-- The places that the recursive traversal visits. -/
def visits (hit : β → Bool) : Tree β α → (i : Nat) → List Nat
  | .leaf .., i => [i]
  | .node b l r, i => i :: if hit b then l.visits hit (i + 1) ++
      r.visits hit (i + 1 + l.size) else []

def Encloses (le : β → β → Prop) (box : α → β) : Tree β α → Prop
  | .leaf b a => le (box a) b
  | .node b l r => (∀ c ∈ l.labels ++ r.labels, le c b) ∧ (∀ a ∈ l.items ++ r.items, le (box a) b) ∧
    l.Encloses le box ∧ r.Encloses le box

variable {t : Tree β α}

theorem length_thread : (t.thread i s).length = t.size := by
  induction t generalizing i s with
  | leaf => rfl
  | node b l r ihl ihr =>
    simp only [thread, size, List.length_cons, List.length_append, ihl, ihr]

theorem thread_bounds (h : e ∈ t.thread i s) :
    e.escape ≤ i + t.size ∧ ∀ j ∈ e.slot, j < s + t.items.length := by
  induction t generalizing i s with
  | leaf b a =>
    obtain rfl := List.mem_singleton.mp h
    simp [size, items]
  | node b l r ihl ihr =>
    simp only [thread, List.mem_cons, List.mem_append] at h
    simp only [size, items, List.length_append]
    rcases h with rfl | h | h
    · simp [size]
    · obtain ⟨hesc, hslot⟩ := ihl h
      exact ⟨by omega, fun j hj => by have := hslot j hj; omega⟩
    · obtain ⟨hesc, hslot⟩ := ihr h
      exact ⟨by omega, fun j hj => by have := hslot j hj; omega⟩

theorem size_eq : t.size + 1 = 2 * t.items.length := by
  induction t with
  | leaf => rfl
  | node b l r ihl ihr =>
    simp only [size, items, List.length_append]
    omega

theorem items_length_pos : 0 < t.items.length := by
  have h := t.size_eq
  cases t <;> simp only [size] at h <;> omega

end Tree

/-! ## The walk without a stack -/

variable {α β : Type*}

/-- The next place to descend, the escape to skip, until a place beyond the layout. -/
def walk (descends : Entry β → Bool) (es : List (Entry β)) : (fuel i : Nat) → Option (List Nat)
  | 0, i => if i < es.length then none else some []
  | fuel + 1, i =>
    match es[i]? with
    | none => some []
    | some e => (i :: ·) <$> walk descends es fuel (if descends e then i + 1 else e.escape)

variable {descends : Entry β → Bool} {hit : β → Bool} {es : List (Entry β)}

theorem walk_of_length_le (h : es.length ≤ i) : walk descends es fuel i = some [] := by
  cases fuel with
  | zero => exact if_neg (Nat.not_lt.mpr h)
  | succ fuel => rw [walk, List.getElem?_eq_none h]

theorem walk_succ (h : es[i]? = some e) : walk descends es (fuel + 1) i =
    (i :: ·) <$> walk descends es fuel (if descends e then i + 1 else e.escape) := by
  rw [walk, h]

/-- Over a subtree the walk makes the visits of the recursive traversal and goes on after it. -/
theorem walk_thread_append (hdesc : ∀ e : Entry β, e.slot = none → descends e = hit e.label)
    {t : Tree β α} {A C : List (Entry β)} (hes : es = A ++ t.thread A.length s ++ C) (fuel : Nat) :
    walk descends es (fuel + (t.visits hit A.length).length) A.length =
      (t.visits hit A.length ++ ·) <$> walk descends es fuel (A.length + t.size) := by
  induction t generalizing A C fuel s with
  | leaf b a =>
    have hget : es[A.length]? = some ⟨b, A.length + 1, some s⟩ := by
      subst hes
      simp [Tree.thread]
    rw [Tree.visits, List.length_singleton, walk_succ hget]
    simp only [ite_self, Tree.size]
    rfl
  | node b l r ihl ihr =>
    have hget : es[A.length]? = some ⟨b, A.length + (Tree.node b l r).size, none⟩ := by
      subst hes
      simp [Tree.thread]
    generalize he : (⟨b, A.length + (Tree.node b l r).size, none⟩ : Entry β) = e at hget
    have hdesce : descends e = hit b := by rw [hdesc e (he ▸ rfl), ← he]
    have hplace : A.length + (l.size + 1) = A.length + 1 + l.size := by omega
    have hsize : A.length + 1 + l.size + r.size = A.length + (Tree.node b l r).size := by
      simp only [Tree.size]
      omega
    rw [Tree.visits]
    split
    · next hb =>
      have hl := @ihl s (A ++ [e])
        (r.thread (A.length + 1 + l.size) (s + l.items.length) ++ C)
        (by rw [hes, Tree.thread, he]; simp)
        (fuel + (r.visits hit (A.length + 1 + l.size)).length)
      have hr := @ihr (s + l.items.length) (A ++ e :: l.thread (A.length + 1) s) C
        (by rw [hes, Tree.thread, he]; simp [Tree.length_thread, hplace]) fuel
      simp only [List.length_append, List.length_cons, List.length_nil, Tree.length_thread,
        Nat.zero_add] at hl hr
      rw [hplace, hsize] at hr
      have hfuel : fuel + (A.length :: (l.visits hit (A.length + 1) ++
          r.visits hit (A.length + 1 + l.size))).length =
          fuel + (r.visits hit (A.length + 1 + l.size)).length +
            (l.visits hit (A.length + 1)).length + 1 := by
        simp only [List.length_cons, List.length_append]
        omega
      rw [hfuel, walk_succ hget, hdesce, if_pos hb, hl, hr]
      simp only [Functor.map, Option.map_map]
      congr 1
      funext vs
      simp
    · next hb =>
      rw [List.length_singleton, walk_succ hget, hdesce, if_neg hb, ← he]
      rfl

theorem Tree.length_visits_le {t : Tree β α} : (t.visits hit i).length ≤ t.size := by
  induction t generalizing i with
  | leaf => exact Nat.le_refl _
  | node b l r ihl ihr =>
    have hl := ihl (i := i + 1)
    have hr := ihr (i := i + 1 + l.size)
    simp only [visits, size]
    split
    · simp only [List.length_cons, List.length_append]
      omega
    · simp

theorem walk_thread (hdesc : ∀ e : Entry β, e.slot = none → descends e = hit e.label)
    (t : Tree β α) (hfuel : t.size ≤ fuel) :
    walk descends (t.thread 0 0) fuel 0 = some (t.visits hit 0) := by
  have hwalk := @walk_thread_append α β _ _ (t.thread 0 0) 0 hdesc t [] [] (by simp)
    (fuel - (t.visits hit 0).length)
  have hle : (t.visits hit 0).length ≤ t.size := Tree.length_visits_le
  have hend : (t.thread 0 0).length ≤ t.size := Nat.le_of_eq Tree.length_thread
  simp only [List.length_nil, Nat.zero_add, walk_of_length_le hend] at hwalk
  rw [Nat.sub_add_cancel (by omega)] at hwalk
  simpa using hwalk

end Threaded
