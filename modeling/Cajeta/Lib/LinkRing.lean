import Mathlib.Logic.Function.Basic
import Mathlib.Data.List.Basic
import Mathlib.Tactic.Common

/-!
# Doubly linked lists as rings

A doubly linked list with a head and a tail pointer is a ring through a null node: the null node's
successor is the head and its predecessor the tail. Seen this way, a removal at either end is the
same two writes as one in the middle.
-/

/-- Successor and predecessor links; `none` is the null node. -/
@[ext] structure LinkRing (α : Type*) where
  next : Option α → Option α
  prev : Option α → Option α

namespace LinkRing
variable {α : Type*} {r r' : LinkRing α}

/-- The nodes `ns` lie between `x` and `y`, linked both ways. -/
def Seg (r : LinkRing α) (x : Option α) : List α → Option α → Prop
  | [], y => r.next x = y ∧ r.prev y = x
  | a :: ns, y => r.next x = some a ∧ r.prev (some a) = x ∧ r.Seg (some a) ns y

/-- The list that is linked is `ns`, and no node is in it twice. -/
structure Linked (r : LinkRing α) (ns : List α) : Prop where
  seg : r.Seg none ns none
  nodup : ns.Nodup

theorem seg_append {ns : List α} :
    r.Seg x (ns ++ a :: ns') y ↔ r.Seg x ns (some a) ∧ r.Seg (some a) ns' y := by
  induction ns generalizing x with
  | nil => simp [Seg, and_assoc]
  | cons b ns ih => simp only [List.cons_append, Seg, ih, and_assoc]

theorem Seg.congr {ns : List α} (h : r.Seg x ns y) (hx : r'.next x = r.next x)
    (hns : ∀ a ∈ ns, r'.next (some a) = r.next (some a) ∧ r'.prev (some a) = r.prev (some a))
    (hy : r'.prev y = r.prev y) : r'.Seg x ns y := by
  induction ns generalizing x with
  | nil => exact ⟨hx.trans h.1, hy.trans h.2⟩
  | cons a ns ih =>
    obtain ⟨hnext, hprev, hrest⟩ := h
    have ha := hns a List.mem_cons_self
    exact ⟨hx.trans hnext, ha.2.trans hprev,
      ih hrest ha.1 fun b hb => hns b (List.mem_cons_of_mem _ hb)⟩

theorem Seg.prev_mem {ns : List α} (h : r.Seg x ns y) :
    r.prev y = x ∨ ∃ a ∈ ns, r.prev y = some a := by
  induction ns generalizing x with
  | nil => exact .inl h.2
  | cons a ns ih =>
    rcases ih h.2.2 with hy | ⟨b, hb, hy⟩
    · exact .inr ⟨a, List.mem_cons_self, hy⟩
    · exact .inr ⟨b, List.mem_cons_of_mem _ hb, hy⟩

section
variable [DecidableEq α]

/-- Links `x` to `y`, both ways. -/
def link (r : LinkRing α) (x y : Option α) : LinkRing α where
  next := Function.update r.next x y
  prev := Function.update r.prev y x

/-- Bridges the gap that the node leaves, then clears its own links. -/
def unlink (r : LinkRing α) (a : α) : LinkRing α :=
  let r := r.link (r.prev (some a)) (r.next (some a))
  { next := Function.update r.next (some a) none
    prev := Function.update r.prev (some a) none }

/-- Puts a node between the null node and its successor. -/
def pushFront (r : LinkRing α) (a : α) : LinkRing α :=
  (r.link (some a) (r.next none)).link none (some a)

theorem Seg.retarget {ns : List α} (h : r.Seg x ns y) (hx : ∀ a ∈ ns, x ≠ some a)
    (hnd : ns.Nodup) (hz : ∀ a ∈ ns, z ≠ some a) : (r.link (r.prev y) z).Seg x ns z := by
  induction ns generalizing x with
  | nil =>
    obtain ⟨_, hprev⟩ := h
    simp [Seg, link, hprev]
  | cons a ns ih =>
    obtain ⟨hnext, hprev, hrest⟩ := h
    obtain ⟨hna, hnd⟩ := List.nodup_cons.mp hnd
    have hlast : x ≠ r.prev y := by
      rintro rfl
      rcases hrest.prev_mem with he | ⟨b, hb, he⟩
      · exact hx a List.mem_cons_self he
      · exact hx b (List.mem_cons_of_mem _ hb) he
    refine ⟨?_, ?_, ih hrest (fun b hb he => ?_) hnd fun b hb => hz b (List.mem_cons_of_mem _ hb)⟩
    · simp only [link, Function.update_of_ne hlast, hnext]
    · simp only [link, Function.update_of_ne (hz a List.mem_cons_self).symm, hprev]
    · obtain rfl := Option.some.inj he
      exact hna hb

theorem Linked.unlink {pre post : List α} (h : r.Linked (pre ++ a :: post)) :
    (r.unlink a).Linked (pre ++ post) := by
  obtain ⟨hpre, hpost⟩ := seg_append.mp h.seg
  obtain ⟨hnpre, hnpost, hdisj⟩ := List.nodup_append.mp h.nodup
  obtain ⟨hapost, hnpost⟩ := List.nodup_cons.mp hnpost
  have hapre : a ∉ pre := fun ha => hdisj a ha a List.mem_cons_self rfl
  have hnd : (pre ++ post).Nodup := List.nodup_append.mpr
    ⟨hnpre, hnpost, fun b hb c hc => hdisj b hb c (List.mem_cons_of_mem _ hc)⟩
  -- Clearing the links of `a` is not seen from the other nodes.
  have hclear : ∀ {ns : List α} {s : LinkRing α} {x y : Option α}, a ∉ ns → x ≠ some a →
      y ≠ some a → s.Seg x ns y → Seg ⟨Function.update s.next (some a) none,
        Function.update s.prev (some a) none⟩ x ns y := by
    intro ns s x y hns hx hy hs
    refine hs.congr (Function.update_of_ne hx _ _) (fun b hb => ?_) (Function.update_of_ne hy _ _)
    have hb : some b ≠ some a := by
      intro he
      exact hns (Option.some.inj he ▸ hb)
    exact ⟨Function.update_of_ne hb _ _, Function.update_of_ne hb _ _⟩
  refine ⟨?_, hnd⟩
  cases post with
  | nil =>
    have hbent := hpre.retarget (z := none) (by simp) hnpre (by simp)
    rw [List.append_nil]
    refine hclear hapre nofun nofun ?_
    rw [hpost.1]
    exact hbent
  | cons b post =>
    obtain ⟨hnext, hprev, hrest⟩ := hpost
    have hbpre : b ∉ pre := fun hb => hdisj b hb b (by simp) rfl
    have hab : some b ≠ some a := by
      intro he
      exact hapost (by simp [Option.some.inj he])
    have hbent := hpre.retarget (z := some b) (by simp) hnpre
      fun c hc he => hbpre (Option.some.inj he ▸ hc)
    have hkept : (r.link (r.prev (some a)) (some b)).Seg (some b) post none := by
      have hlast : ∀ c ∈ b :: post, some c ≠ r.prev (some a) := by
        intro c hc he
        rcases hpre.prev_mem with hp | ⟨d, hd, hp⟩
        · cases he.trans hp
        · obtain rfl := Option.some.inj (he.trans hp)
          exact hdisj c hd c (List.mem_cons_of_mem _ hc) rfl
      refine hrest.congr (Function.update_of_ne (hlast b List.mem_cons_self) _ _) (fun c hc => ?_)
        (by simp [link])
      refine ⟨Function.update_of_ne (hlast c (List.mem_cons_of_mem _ hc)) _ _,
        Function.update_of_ne ?_ _ _⟩
      intro he
      exact (List.nodup_cons.mp hnpost).1 (Option.some.inj he ▸ hc)
    have hapost' : a ∉ post := fun ha => hapost (List.mem_cons_of_mem _ ha)
    rw [seg_append]
    refine ⟨hclear hapre nofun hab ?_, hclear hapost' hab nofun ?_⟩
    · rw [hnext]; exact hbent
    · rw [hnext]; exact hkept

theorem Linked.pushFront {ns : List α} (h : r.Linked ns) (ha : a ∉ ns) :
    (r.pushFront a).Linked (a :: ns) := by
  refine ⟨⟨by simp [LinkRing.pushFront, link], by simp [LinkRing.pushFront, link], ?_⟩,
    List.nodup_cons.mpr ⟨ha, h.nodup⟩⟩
  have hne : ∀ b ∈ ns, some b ≠ some a := by
    intro b hb he
    exact ha (Option.some.inj he ▸ hb)
  cases ns with
  | nil =>
    obtain ⟨hnext, -⟩ := h.seg
    simp [Seg, LinkRing.pushFront, link, hnext]
  | cons b ns =>
    obtain ⟨hnext, -, hrest⟩ := h.seg
    have hba := hne b List.mem_cons_self
    refine ⟨by simp [LinkRing.pushFront, link, hnext],
      by simp [LinkRing.pushFront, link, hnext, hba], hrest.congr ?_ (fun c hc => ?_) ?_⟩
    · simp [LinkRing.pushFront, link, Function.update_of_ne hba]
    · have hca := hne c (List.mem_cons_of_mem _ hc)
      have hcb : some c ≠ some b := by
        intro he
        exact (List.nodup_cons.mp h.nodup).1 (Option.some.inj he ▸ hc)
      simp [LinkRing.pushFront, link, hnext, Function.update_of_ne hca, Function.update_of_ne hcb]
    · simp [LinkRing.pushFront, link, hnext]

end

theorem Seg.prev_eq {ns : List α} (h : r.Seg x ns y) : r.prev y = ns.getLast?.or x := by
  induction ns generalizing x with
  | nil => exact h.2
  | cons a ns ih =>
    rw [ih h.2.2, List.getLast?_cons]
    cases ns.getLast? <;> rfl

theorem Linked.prev_eq {pre post : List α} (h : r.Linked (pre ++ a :: post)) :
    r.prev (some a) = pre.getLast? := by
  rw [(seg_append.mp h.seg).1.prev_eq, Option.or_none]

/-- The nodes from `x` on, at most `fuel` of them. -/
def walk (r : LinkRing α) : (fuel : Nat) → (x : Option α) → List α
  | fuel + 1, some a => a :: r.walk fuel (r.next (some a))
  | _, _ => []

theorem Seg.walk {ns : List α} (h : r.Seg x ns none) (hfuel : ns.length ≤ fuel) :
    r.walk fuel (r.next x) = ns := by
  induction ns generalizing x fuel with
  | nil =>
    rw [h.1]
    cases fuel <;> rfl
  | cons a ns ih =>
    obtain ⟨hnext, -, hrest⟩ := h
    cases fuel with
    | zero => cases hfuel
    | succ fuel =>
      rw [hnext, LinkRing.walk, ih hrest (Nat.le_of_succ_le_succ hfuel)]

end LinkRing
