import Mathlib.Data.List.Basic
import Mathlib.Data.List.Induction
import Mathlib.Order.Lattice
import Mathlib.Tactic.Common
import Mathlib.Tactic.Order

/-!
# Multiway search trees with a hole

Trees whose leaves are all at one depth and hold entries, with separators between the children of
the inner nodes. The depth is an index, so that the balance needs no invariant. Each node has an
address.
-/

/-- An inner node: its children, with a separator before each but the first. -/
structure InnerNode (α K T : Type) where
  addr : α
  first : T
  rest : List (K × T)

namespace InnerNode
variable {α K T : Type}

def keys (n : InnerNode α K T) : List K := n.rest.map Prod.fst

def children (n : InnerNode α K T) : List T := n.first :: n.rest.map Prod.snd

/-- The node with a child between those to its left, each with the separator after it, and those to
its right, each with the separator before it. -/
def fork (a : α) : (left : List (T × K)) → (child : T) → (right : List (K × T)) → InnerNode α K T
  | [], t, r => ⟨a, t, r⟩
  | (u, k) :: l, t, r => ⟨a, u, (k, (fork a l t r).first) :: (fork a l t r).rest⟩

@[simp] theorem addr_fork (a : α) (l : List (T × K)) (t : T) (r : List (K × T)) :
    (fork a l t r).addr = a := by cases l <;> rfl

@[simp] theorem keys_fork (a : α) (l : List (T × K)) (t : T) (r : List (K × T)) :
    (fork a l t r).keys = l.map Prod.snd ++ r.map Prod.fst := by
  induction l with
  | nil => rfl
  | cons p l ih =>
    rw [List.map_cons, List.cons_append, ← ih]
    rfl

@[simp] theorem children_fork (a : α) (l : List (T × K)) (t : T) (r : List (K × T)) :
    (fork a l t r).children = l.map Prod.fst ++ t :: r.map Prod.snd := by
  induction l with
  | nil => rfl
  | cons p l ih =>
    rw [List.map_cons, List.cons_append, ← ih]
    rfl

theorem length_keys_fork (a : α) (l : List (T × K)) (t : T) (r : List (K × T)) :
    (fork a l t r).keys.length = l.length + r.length := by simp

theorem exists_fork (n : InnerNode α K T) {i : Nat} (h : i ≤ n.keys.length) :
    ∃ l t r, n = fork n.addr l t r ∧ l.length = i := by
  obtain ⟨a, t, r⟩ := n
  induction i generalizing t r with
  | zero => exact ⟨[], t, r, rfl, rfl⟩
  | succ i ih =>
    cases r with
    | nil => simp [keys] at h
    | cons p r =>
      obtain ⟨k, u⟩ := p
      obtain ⟨l, t', r', hfork, hlen⟩ := ih u r (by simpa [keys] using h)
      refine ⟨(t, k) :: l, t', r', ?_, by simp [hlen]⟩
      rw [fork, ← hfork]

theorem exists_fork_key (n : InnerNode α K T) {i : Nat} (h : i < n.keys.length) :
    ∃ l t k u r, n = fork n.addr l t ((k, u) :: r) ∧ l.length = i := by
  obtain ⟨l, t, r, hfork, hlen⟩ := n.exists_fork (Nat.le_of_lt h)
  cases r with
  | nil =>
    rw [hfork, length_keys_fork] at h
    simp at h
    omega
  | cons p r => exact ⟨l, t, p.1, p.2, r, hfork, hlen⟩

end InnerNode

/-- A tree with its leaves at depth `d`. A leaf holds entries. -/
def BTree (α K W : Type) : (d : Nat) → Type
  | 0 => α × List (K × W)
  | d + 1 => InnerNode α K (BTree α K W d)

namespace BTree
variable {α β K W : Type} {d D : Nat}

def leaf (a : α) (es : List (K × W)) : BTree α K W 0 := (a, es)

def addr : {d : Nat} → BTree α K W d → α
  | 0, t => Prod.fst t
  | _ + 1, t => InnerNode.addr t

/-- What a walk through the tree lists at the nodes. -/
structure Visit (α K W β : Type) where
  node : α → List β
  leaf : α → List (K × W) → List β
  sep : K → List β

def walk (v : Visit α K W β) : {d : Nat} → BTree α K W d → List β
  | 0, t => v.leaf (Prod.fst t) (Prod.snd t)
  | _ + 1, t => v.node (InnerNode.addr t) ++ walk v (InnerNode.first t) ++
      (InnerNode.rest t).flatMap fun p => v.sep p.1 ++ walk v p.2

def fork (a : α) (l : List (BTree α K W d × K)) (t : BTree α K W d)
    (r : List (K × BTree α K W d)) : BTree α K W (d + 1) := InnerNode.fork a l t r

theorem walk_fork (v : Visit α K W β) (a : α) (l : List (BTree α K W d × K)) (t : BTree α K W d)
    (r : List (K × BTree α K W d)) :
    walk v (fork a l t r) = v.node a ++ (l.flatMap fun p => walk v p.1 ++ v.sep p.2) ++ walk v t ++
      r.flatMap fun p => v.sep p.1 ++ walk v p.2 := by
  suffices h : walk v (fork a l t r).first ++ ((fork a l t r).rest.flatMap fun p =>
      v.sep p.1 ++ walk v p.2) = (l.flatMap fun p => walk v p.1 ++ v.sep p.2) ++ walk v t ++
      r.flatMap fun p => v.sep p.1 ++ walk v p.2 by
    rw [walk, List.append_assoc, h, fork, InnerNode.addr_fork]
    simp only [List.append_assoc]
  induction l with
  | nil => rfl
  | cons p l ih =>
    rw [List.flatMap_cons, List.append_assoc, List.append_assoc, List.append_assoc]
    rw [List.append_assoc] at ih
    rw [← ih, fork, InnerNode.fork, List.flatMap_cons]
    simp only [List.append_assoc]
    rfl

/-- The way from the root, at depth `D` over the leaves, to a hole at depth `d`. -/
inductive Path (α K W : Type) (D : Nat) : Nat → Type where
  | root : Path α K W D D
  | step {d : Nat} (a : α) (left : List (BTree α K W d × K)) (right : List (K × BTree α K W d))
      (up : Path α K W D (d + 1)) : Path α K W D d

def Path.length : {d : Nat} → Path α K W D d → Nat
  | _, .root => 0
  | _, .step _ _ _ up => up.length + 1

def plug : {d : Nat} → Path α K W D d → BTree α K W d → BTree α K W D
  | _, .root, t => t
  | _, .step a l r up, t => plug up (fork a l t r)

def before (v : Visit α K W β) : {d : Nat} → Path α K W D d → List β
  | _, .root => []
  | _, .step a l _ up => before v up ++ v.node a ++ l.flatMap fun p => walk v p.1 ++ v.sep p.2

def after (v : Visit α K W β) : {d : Nat} → Path α K W D d → List β
  | _, .root => []
  | _, .step _ _ r up => (r.flatMap fun p => v.sep p.1 ++ walk v p.2) ++ after v up

theorem walk_plug (v : Visit α K W β) (path : Path α K W D d) (t : BTree α K W d) :
    walk v (plug path t) = before v path ++ walk v t ++ after v path := by
  induction path with
  | root => simp [plug, before, after]
  | step a l r up ih =>
    rw [plug, ih, walk_fork, before, after]
    simp only [List.append_assoc]

def Path.parent : {d : Nat} → Path α K W D d → Option α
  | _, .root => none
  | _, .step a _ _ _ => some a

/-! ## What the walks list -/

def itemVisit : Visit α K W (K ⊕ K × W) := ⟨fun _ => [], fun _ es => es.map .inr, fun k => [.inl k]⟩

def entryVisit : Visit α K W (K × W) := ⟨fun _ => [], fun _ es => es, fun _ => []⟩

def leafVisit : Visit α K W α := ⟨fun _ => [], fun a _ => [a], fun _ => []⟩

def runVisit : Visit α K W (α × List (K × W)) := ⟨fun _ => [], fun a es => [(a, es)], fun _ => []⟩

def addrVisit : Visit α K W α := ⟨fun a => [a], fun a _ => [a], fun _ => []⟩

/-- The separators and the entries from left to right. -/
def items (t : BTree α K W d) : List (K ⊕ K × W) := walk itemVisit t

def entries (t : BTree α K W d) : List (K × W) := walk entryVisit t

/-- The addresses of the leaves from left to right. -/
def leaves (t : BTree α K W d) : List α := walk leafVisit t

/-- The leaves with their entries. -/
def runs (t : BTree α K W d) : List (α × List (K × W)) := walk runVisit t

/-- The addresses of all nodes. -/
def addrs (t : BTree α K W d) : List α := walk addrVisit t

theorem flatMap_walk (f : β → List γ) (v : Visit α K W β) (t : BTree α K W d) :
    (walk v t).flatMap f = walk ⟨fun a => (v.node a).flatMap f,
      fun a es => (v.leaf a es).flatMap f, fun k => (v.sep k).flatMap f⟩ t := by
  induction d with
  | zero => rfl
  | succ d ih => simp only [walk, List.flatMap_append, List.flatMap_assoc, ih]

theorem entries_eq (t : BTree α K W d) : t.entries = t.items.filterMap Sum.getRight? := by
  rw [items, List.filterMap_eq_flatMap_toList, flatMap_walk]
  simp [itemVisit, List.flatMap_map]
  rfl

theorem leaves_eq (t : BTree α K W d) : t.leaves = t.runs.map Prod.fst := by
  rw [runs, List.map_eq_flatMap, flatMap_walk]
  rfl

theorem entries_eq_flatMap (t : BTree α K W d) : t.entries = t.runs.flatMap Prod.snd := by
  rw [runs, flatMap_walk]
  simp [runVisit, entries, entryVisit]

theorem mem_entries {t : BTree α K W d} {e : K × W} : e ∈ t.entries ↔ Sum.inr e ∈ t.items := by
  rw [entries_eq, List.mem_filterMap]
  constructor
  · rintro ⟨x, hx, hxe⟩
    cases x with
    | inl s => cases hxe
    | inr e' =>
      cases hxe
      exact hx
  · exact fun h => ⟨_, h, rfl⟩

theorem mem_around_entries (path : Path α K W D d) (e : K × W) :
    (e ∈ before entryVisit path → Sum.inr e ∈ before itemVisit path) ∧
      (e ∈ after entryVisit path → Sum.inr e ∈ after itemVisit path) := by
  induction path with
  | root => exact ⟨by simp [before], by simp [after]⟩
  | step a l r up ih =>
    refine ⟨fun he => ?_, fun he => ?_⟩
    · simp only [before, entryVisit, itemVisit, List.append_nil, List.mem_append,
        List.mem_flatMap] at he ⊢
      rcases he with he | ⟨p, hp, he⟩
      · exact .inl (ih.1 he)
      · exact .inr ⟨p, hp, .inl (mem_entries.mp he)⟩
    · simp only [after, entryVisit, itemVisit, List.nil_append, List.mem_append,
        List.mem_flatMap] at he ⊢
      rcases he with ⟨p, hp, he⟩ | he
      · exact .inl ⟨p, hp, .inr (mem_entries.mp he)⟩
      · exact .inr (ih.2 he)

theorem addr_mem (t : BTree α K W d) : t.addr ∈ t.addrs := by
  cases d <;> simp [addrs, walk, addrVisit, addr]

theorem addrs_fork (a : α) (l : List (BTree α K W d × K)) (t : BTree α K W d)
    (r : List (K × BTree α K W d)) : (fork a l t r).addrs =
      a :: ((l.flatMap fun p => p.1.addrs) ++ t.addrs) ++ r.flatMap fun p => p.2.addrs := by
  rw [addrs, walk_fork]
  simp only [addrVisit, addrs, List.append_nil, List.nil_append, List.cons_append]

theorem leaves_sublist (t : BTree α K W d) : t.leaves.Sublist t.addrs := by
  induction d with
  | zero => exact .refl _
  | succ d ih =>
    refine .append (.append (List.nil_sublist _) (ih _)) ?_
    induction InnerNode.rest t with
    | nil => exact .refl _
    | cons p rest ihr => exact .append (.append (.refl _) (ih p.2)) ihr

theorem leaves_subset (t : BTree α K W d) : t.leaves ⊆ t.addrs := t.leaves_sublist.subset

theorem leaves_around_subset (path : Path α K W D d) :
    before leafVisit path ⊆ before addrVisit path ∧
      after leafVisit path ⊆ after addrVisit path := by
  induction path with
  | root => simp [before, after]
  | step a l r up ih =>
    refine ⟨fun b hb => ?_, fun b hb => ?_⟩
    · simp only [before, leafVisit, addrVisit, List.append_nil, List.mem_append,
        List.mem_flatMap] at hb ⊢
      rcases hb with hb | ⟨p, hp, hb⟩
      · exact .inl (.inl (ih.1 hb))
      · exact .inr ⟨p, hp, leaves_subset p.1 hb⟩
    · simp only [after, leafVisit, addrVisit, List.nil_append, List.mem_append,
        List.mem_flatMap] at hb ⊢
      rcases hb with ⟨p, hp, hb⟩ | hb
      · exact .inl ⟨p, hp, leaves_subset p.2 hb⟩
      · exact .inr (ih.2 hb)

theorem addr_fork (a : α) (l : List (BTree α K W d × K)) (t : BTree α K W d)
    (r : List (K × BTree α K W d)) : (fork a l t r).addr = a := InnerNode.addr_fork a l t r

theorem addr_plug_congr (path : Path α K W D d) {s t : BTree α K W d} (h : s.addr = t.addr) :
    (plug path s).addr = (plug path t).addr := by
  induction path with
  | root => exact h
  | step a l r up ih => exact ih ((addr_fork ..).trans (addr_fork ..).symm)

theorem lt_length_addrs (t : BTree α K W d) : d < t.addrs.length := by
  induction d with
  | zero => simp [addrs, walk, addrVisit]
  | succ d ih =>
    have hfirst := ih (InnerNode.first t)
    simp only [addrs, walk, addrVisit, List.length_append, List.length_singleton] at hfirst ⊢
    omega

theorem length_path_le (path : Path α K W D d) :
    path.length ≤ (before addrVisit path).length := by
  induction path with
  | root => simp [Path.length]
  | step a l r up ih =>
    rw [Path.length, before]
    simp only [addrVisit, List.length_append, List.length_singleton] at ih ⊢
    omega

/-- The least number of keys of a node at depth `d`. -/
def minKeys (order d : Nat) (isRoot : Bool) : Nat :=
  if isRoot then 1 else if d = 0 then (order + 1) / 2 else order / 2

/-- Every node has at most `order` keys, and none has too few. -/
def Filled (order : Nat) : {d : Nat} → (isRoot : Bool) → BTree α K W d → Prop
  | 0, isRoot, t => minKeys order 0 isRoot ≤ (Prod.snd t).length ∧ (Prod.snd t).length ≤ order
  | d + 1, isRoot, t => minKeys order (d + 1) isRoot ≤ (InnerNode.keys t).length ∧
      (InnerNode.keys t).length ≤ order ∧ ∀ c ∈ InnerNode.children t, Filled order false c

def Path.isRoot : {d : Nat} → Path α K W D d → Bool
  | _, .root => true
  | _, .step .. => false

def PathFilled (order : Nat) : {d : Nat} → Path α K W D d → Prop
  | _, .root => True
  | d, .step _ l r up => minKeys order d.succ up.isRoot ≤ l.length + r.length ∧
      l.length + r.length ≤ order ∧ (∀ p ∈ l, Filled order false p.1) ∧
      (∀ p ∈ r, Filled order false p.2) ∧ PathFilled order up

theorem filled_fork : Filled order isRoot (fork a l t r : BTree α K W (d + 1)) ↔
    minKeys order (d + 1) isRoot ≤ l.length + r.length ∧ l.length + r.length ≤ order ∧
      (∀ p ∈ l, Filled order false p.1) ∧ Filled order false t ∧
      ∀ p ∈ r, Filled order false p.2 := by
  rw [Filled, fork, InnerNode.length_keys_fork, InnerNode.children_fork]
  simp only [List.mem_append, List.mem_map, List.mem_cons]
  constructor
  · rintro ⟨hmin, hmax, hall⟩
    exact ⟨hmin, hmax, fun p hp => hall _ (.inl ⟨p, hp, rfl⟩), hall t (.inr (.inl rfl)),
      fun p hp => hall _ (.inr (.inr ⟨p, hp, rfl⟩))⟩
  · rintro ⟨hmin, hmax, hl, ht, hr⟩
    refine ⟨hmin, hmax, ?_⟩
    rintro c (⟨p, hp, rfl⟩ | rfl | ⟨p, hp, rfl⟩)
    · exact hl p hp
    · exact ht
    · exact hr p hp

theorem filled_plug {path : Path α K W D d} {t : BTree α K W d} :
    Filled order true (plug path t) ↔ PathFilled order path ∧ Filled order path.isRoot t := by
  induction path with
  | root => simp [plug, PathFilled, Path.isRoot]
  | step a l r up ih =>
    rw [plug, ih, filled_fork, PathFilled, Path.isRoot]
    tauto

/-! ## The order -/

variable [LinearOrder K]

/-- Separators are below those after them and not above the keys after them, and keys are below what
is after them. -/
def Precedes : K ⊕ K × W → K ⊕ K × W → Prop
  | .inl s, .inl s' => s < s'
  | .inl s, .inr e => s ≤ e.1
  | .inr e, .inl s => e.1 < s
  | .inr e, .inr e' => e.1 < e'.1

theorem Precedes.trans {x y z : K ⊕ K × W} (h : Precedes x y) (h' : Precedes y z) :
    Precedes x z := by
  cases x <;> cases y <;> cases z <;> simp only [Precedes] at h h' ⊢ <;> order

def Ordered (t : BTree α K W d) : Prop := t.items.Pairwise Precedes

/-- The entries below a key are those before its place, and the place is in one leaf. -/
structure Located (key : K) (path : Path α K W D d) : Prop where
  before : ∀ x ∈ before itemVisit path, ∀ w, Precedes x (.inr (key, w))
  after : ∀ x ∈ after itemVisit path, ∀ w, Precedes (.inr (key, w)) x

theorem located_root (key : K) : Located key (.root : Path α K W D D) :=
  ⟨by simp [before], by simp [after]⟩

/-- The place of a key is under the child after the separators that are not above it. -/
theorem Located.step {path : Path α K W D (d + 1)} (h : Located key path)
    (ho : Ordered (plug path (fork a l t r))) (hl : ∀ p ∈ l, p.2 ≤ key)
    (hr : ∀ p ∈ r.head?, key < p.1) : Located key (.step a l r path) := by
  rw [Ordered, items, walk_plug] at ho
  have hnode := (List.pairwise_append.mp (List.pairwise_append.mp ho).1).2.1
  rw [walk_fork] at hnode
  obtain ⟨hleft, hright, -⟩ := List.pairwise_append.mp hnode
  replace hleft := (List.pairwise_append.mp (List.pairwise_append.mp hleft).1).2.1
  constructor
  · intro x hx w
    rw [BTree.before, List.append_assoc] at hx
    rcases List.mem_append.mp hx with hx | hx
    · exact h.before x hx w
    · obtain ⟨p, hp, hx⟩ := List.mem_flatMap.mp hx
      have hkey : Precedes (.inl p.2) (.inr (key, w)) := hl p hp
      rcases List.mem_append.mp hx with hx | hx
      · have hpair := (List.pairwise_flatMap.mp hleft).1 p hp
        exact ((List.pairwise_append.mp hpair).2.2 x hx _ (List.mem_singleton_self _)).trans hkey
      · exact List.mem_singleton.mp hx ▸ hkey
  · intro x hx w
    rw [BTree.after] at hx
    rcases List.mem_append.mp hx with hx | hx
    · cases r with
      | nil => cases hx
      | cons p r =>
        have hkey : Precedes (.inr (key, w)) (.inl p.1) := hr p rfl
        rcases List.mem_cons.mp hx with rfl | hx
        · exact hkey
        · exact hkey.trans ((List.pairwise_cons.mp hright).1 x hx)
    · exact h.after x hx w

theorem Located.insert {path : Path α K W D 0} {es es' : List (K × W)} (h : Located key path)
    (ho : Ordered (plug path (leaf a es))) (hin : ∀ e ∈ es', e ∈ es ∨ e.1 = key)
    (hes : es'.Pairwise fun e e' => e.1 < e'.1) : Ordered (plug path (leaf a es')) := by
  rw [Ordered, items, walk_plug] at ho ⊢
  obtain ⟨hfront, hafter, hcross⟩ := List.pairwise_append.mp ho
  obtain ⟨hbefore, -, hcross'⟩ := List.pairwise_append.mp hfront
  refine List.pairwise_append.mpr ⟨List.pairwise_append.mpr ⟨hbefore, ?_, fun x hx y hy => ?_⟩,
    hafter, fun x hx y hy => ?_⟩
  · exact List.pairwise_map.mpr hes
  · obtain ⟨e, he, rfl⟩ := List.mem_map.mp hy
    rcases hin e he with he | he
    · exact hcross' x hx _ (List.mem_map_of_mem he)
    · obtain ⟨k, w⟩ := e
      cases he
      exact h.before x hx w
  · rcases List.mem_append.mp hx with hx | hx
    · exact hcross x (List.mem_append_left _ hx) y hy
    · obtain ⟨e, he, rfl⟩ := List.mem_map.mp hx
      rcases hin e he with he | he
      · exact hcross _ (List.mem_append_right _ (List.mem_map_of_mem he)) y hy
      · obtain ⟨k, w⟩ := e
        cases he
        exact h.after y hy w

/-- A separator between two parts of a run of entries: the first key of the second part. -/
theorem pairwise_split {A B : List (K ⊕ K × W)} {e e' : K × W} {es es' : List (K × W)}
    (h : (A ++ (e :: es ++ e' :: es').map Sum.inr ++ B).Pairwise Precedes) :
    (A ++ ((e :: es).map Sum.inr ++ Sum.inl e'.1 :: (e' :: es').map Sum.inr) ++ B).Pairwise
      Precedes := by
  have hassoc : A ++ (e :: es ++ e' :: es').map Sum.inr ++ B =
      (A ++ (e :: es).map Sum.inr) ++ (Sum.inr e' :: (es'.map Sum.inr ++ B)) := by simp
  rw [hassoc] at h
  obtain ⟨hleft, hright, hcross⟩ := List.pairwise_append.mp h
  have hafter : ∀ y ∈ Sum.inr e' :: (es'.map Sum.inr ++ B), Precedes (.inl e'.1) y := by
    intro y hy
    have hself : Precedes (.inl e'.1) (.inr e') := le_refl e'.1
    rcases List.mem_cons.mp hy with rfl | hy
    · exact hself
    · exact hself.trans ((List.pairwise_cons.mp hright).1 y hy)
  have hbefore : ∀ x ∈ A ++ (e :: es).map Sum.inr, Precedes x (.inl e'.1 : K ⊕ K × W) := by
    intro x hx
    have hrun : ∀ e₁ ∈ e :: es, Precedes (.inr e₁) (.inl e'.1 : K ⊕ K × W) := by
      intro e₁ he
      have hlt : Precedes (.inr e₁) (.inr e') :=
        hcross _ (List.mem_append_right _ (List.mem_map_of_mem he)) _ List.mem_cons_self
      exact hlt
    rcases List.mem_append.mp hx with hx | hx
    · have hfirst := (List.pairwise_append.mp hleft).2.2 x hx (.inr e)
        (List.mem_map_of_mem List.mem_cons_self)
      exact hfirst.trans (hrun e List.mem_cons_self)
    · obtain ⟨e₁, he, rfl⟩ := List.mem_map.mp hx
      exact hrun e₁ he
  have hsplit : A ++ ((e :: es).map Sum.inr ++ Sum.inl e'.1 :: (e' :: es').map Sum.inr) ++ B =
      (A ++ (e :: es).map Sum.inr) ++ (.inl e'.1 :: (Sum.inr e' :: (es'.map Sum.inr ++ B))) := by
    simp
  rw [hsplit]
  refine List.pairwise_append.mpr ⟨hleft, List.pairwise_cons.mpr ⟨hafter, hright⟩,
    fun x hx y hy => ?_⟩
  rcases List.mem_cons.mp hy with rfl | hy
  · exact hbefore x hx
  · exact hcross x hx y hy

end BTree
