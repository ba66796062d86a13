import Mathlib.Data.List.Basic
import Mathlib.Tactic.Common

/-!
# Red-black trees with a hole

Trees whose nodes carry a label and a colour, the path from the root to a subtree, and the
red-black invariant of both. The direction is a parameter, so that what mirrors something else is
the same statement.
-/

inductive Dir where
  | left
  | right
  deriving DecidableEq

def Dir.flip : Dir → Dir
  | left => right
  | right => left

@[simp] theorem Dir.flip_flip (d : Dir) : d.flip.flip = d := by cases d <;> rfl

theorem Dir.eq_or_flip (d e : Dir) : e = d ∨ e = d.flip := by cases d <;> cases e <;> simp [flip]

inductive ColorTree (α : Type*) where
  | nil
  | node (red : Bool) (left : ColorTree α) (label : α) (right : ColorTree α)

/-- A node on the way to a subtree: the side the subtree is on, and the other subtree. -/
structure Frame (α : Type*) where
  dir : Dir
  red : Bool
  label : α
  sibling : ColorTree α

namespace ColorTree
variable {α : Type*}

/-- The node with `near` on the side `d` and `far` on the other. -/
def fork (d : Dir) (red : Bool) (a : α) (near far : ColorTree α) : ColorTree α :=
  match d with
  | .left => node red near a far
  | .right => node red far a near

theorem fork_flip (d : Dir) (red : Bool) (a : α) (s t : ColorTree α) :
    fork d.flip red a s t = fork d red a t s := by cases d <;> rfl

/-- The label of the root. -/
def top : ColorTree α → Option α
  | nil => none
  | node _ _ a _ => some a

@[simp] theorem top_fork : (fork d c a s t).top = some a := by cases d <;> rfl

/-- The labels from left to right. -/
def inorder : ColorTree α → List α
  | nil => []
  | node _ l a r => l.inorder ++ a :: r.inorder

theorem mem_inorder_fork :
    b ∈ (fork d c a s t).inorder ↔ b = a ∨ b ∈ s.inorder ∨ b ∈ t.inorder := by
  cases d <;> simp [fork, inorder] <;> tauto

theorem inorder_fork_perm (d : Dir) (c : Bool) (a : α) (s t : ColorTree α) :
    (fork d c a s t).inorder.Perm (a :: (s.inorder ++ t.inorder)) := by
  cases d with
  | left => exact List.perm_middle
  | right => exact List.perm_middle.trans (.cons a List.perm_append_comm)

theorem top_mem {t : ColorTree α} (h : t.top = some a) : a ∈ t.inorder := by
  cases t with
  | nil => cases h
  | node c l b r =>
    cases h
    simp [inorder]

theorem inorder_rotate (d : Dir) (c c' : Bool) (x y : α) (s t u : ColorTree α) :
    (fork d c' y (fork d c x s t) u).inorder = (fork d c x s (fork d.flip c' y u t)).inorder := by
  cases d <;> simp [fork, inorder, Dir.flip]

theorem inorder_recolor (d : Dir) (c c' : Bool) (a : α) (s t : ColorTree α) :
    (fork d c a s t).inorder = (fork d c' a s t).inorder := by cases d <;> rfl

/-- The tree under the frame when the hole holds `t`. -/
def attach (f : Frame α) (t : ColorTree α) : ColorTree α := fork f.dir f.red f.label t f.sibling

/-- The whole tree when the hole at the end of the path, innermost frame first, holds `t`. -/
def plug : List (Frame α) → ColorTree α → ColorTree α
  | [], t => t
  | f :: path, t => plug path (attach f t)

def before : List (Frame α) → List α
  | [] => []
  | f :: path => before path ++ match f.dir with
    | .left => []
    | .right => f.sibling.inorder ++ [f.label]

def after : List (Frame α) → List α
  | [] => []
  | f :: path => (match f.dir with
    | .left => f.label :: f.sibling.inorder
    | .right => []) ++ after path

theorem inorder_plug (path : List (Frame α)) (t : ColorTree α) :
    (plug path t).inorder = before path ++ t.inorder ++ after path := by
  induction path generalizing t with
  | nil => simp [plug, before, after]
  | cons f path ih =>
    obtain ⟨d, c, a, s⟩ := f
    rw [plug, ih]
    cases d <;> simp [attach, fork, inorder, before, after]

theorem inorder_plug_perm (path : List (Frame α)) (t : ColorTree α) :
    (plug path t).inorder.Perm (t.inorder ++ (before path ++ after path)) := by
  rw [inorder_plug, List.append_assoc]
  exact List.perm_append_comm_assoc _ _ _

theorem length_inorder_plug (path : List (Frame α)) (t : ColorTree α) :
    path.length + t.inorder.length ≤ (plug path t).inorder.length := by
  induction path generalizing t with
  | nil => simp [plug]
  | cons f path ih =>
    have hlen := (inorder_fork_perm f.dir f.red f.label t f.sibling).length_eq
    have hrest := ih (attach f t)
    simp only [plug, attach, List.length_cons, List.length_append] at hlen hrest ⊢
    omega

theorem exists_plug (h : a ∈ t.inorder) (path : List (Frame α)) :
    ∃ path' c l r, plug path t = plug path' (node c l a r) := by
  induction t generalizing path with
  | nil => cases h
  | node c l b r ihl ihr =>
    rcases List.mem_append.mp h with hl | hr
    · exact ihl hl (⟨.left, c, b, r⟩ :: path)
    · rcases List.mem_cons.mp hr with rfl | hr
      · exact ⟨path, c, l, r, rfl⟩
      · exact ihr hr (⟨.right, c, b, l⟩ :: path)

theorem frame_perm (f : Frame α) (path : List (Frame α)) :
    (before (f :: path) ++ after (f :: path)).Perm
      (f.label :: (f.sibling.inorder ++ (before path ++ after path))) := by
  classical
  obtain ⟨d, c, a, s⟩ := f
  refine List.perm_iff_count.mpr fun b => ?_
  cases d <;> simp [before, after, List.count_append, List.count_cons] <;> omega

theorem inorder_plug_congr {path : List (Frame α)} {s t : ColorTree α}
    (h : s.inorder = t.inorder) : (plug path s).inorder = (plug path t).inorder := by
  rw [inorder_plug, inorder_plug, h]

/-! ## The invariant -/

/-- No red node has a red child, and every path from the root to a leaf has `n` black nodes. The
colour is that of the root, a leaf counting as black. -/
inductive RedBlack : ColorTree α → Bool → Nat → Prop where
  | nil : RedBlack nil false 0
  | red : RedBlack l false n → RedBlack r false n → RedBlack (node true l a r) true n
  | black : RedBlack l c n → RedBlack r c' n → RedBlack (node false l a r) false (n + 1)

theorem RedBlack.fork_red (hs : RedBlack s false n) (ht : RedBlack t false n) :
    RedBlack (fork d true a s t) true n := by
  cases d
  · exact .red hs ht
  · exact .red ht hs

theorem RedBlack.fork_black (hs : RedBlack s c n) (ht : RedBlack t c' n) :
    RedBlack (fork d false a s t) false (n + 1) := by
  cases d
  · exact .black hs ht
  · exact .black ht hs

theorem RedBlack.eq_fork (d : Dir) (h : RedBlack s true n) :
    ∃ a t u, s = fork d true a t u ∧ RedBlack t false n ∧ RedBlack u false n := by
  cases h with
  | @red l _ r a hl hr =>
    cases d
    · exact ⟨a, l, r, rfl, hl, hr⟩
    · exact ⟨a, r, l, rfl, hr, hl⟩

/-- The path takes a tree of that root colour and black height, and the tree it makes has a black
root. -/
inductive Fits : List (Frame α) → Bool → Nat → Prop where
  | root : Fits [] false n
  | red : RedBlack s false n → Fits path true n → Fits (⟨d, true, a, s⟩ :: path) false n
  | black : RedBlack s c' n → Fits path false (n + 1) → Fits (⟨d, false, a, s⟩ :: path) c n

theorem Fits.plug {path : List (Frame α)} (h : Fits path c n) (ht : RedBlack t c n) :
    ∃ m, RedBlack (plug path t) false m := by
  induction h generalizing t with
  | root => exact ⟨_, ht⟩
  | red hs _ ih => exact ih (.fork_red ht hs)
  | black hs _ ih => exact ih (.fork_black ht hs)

theorem RedBlack.of_fork (h : RedBlack (fork d c a s t) c' n) :
    c' = c ∧ (c = true → RedBlack s false n ∧ RedBlack t false n) ∧
      (c = false → ∃ cs ct k, n = k + 1 ∧ RedBlack s cs k ∧ RedBlack t ct k) := by
  cases d with
  | left =>
    cases h with
    | red hs ht => exact ⟨rfl, fun _ => ⟨hs, ht⟩, nofun⟩
    | black hs ht => exact ⟨rfl, nofun, fun _ => ⟨_, _, _, rfl, hs, ht⟩⟩
  | right =>
    cases h with
    | red ht hs => exact ⟨rfl, fun _ => ⟨hs, ht⟩, nofun⟩
    | black ht hs => exact ⟨rfl, nofun, fun _ => ⟨_, _, _, rfl, hs, ht⟩⟩

theorem RedBlack.of_plug {path : List (Frame α)} (h : RedBlack (ColorTree.plug path t) false m) :
    ∃ c n, RedBlack t c n ∧ Fits path c n := by
  induction path generalizing t with
  | nil => exact ⟨false, m, h, .root⟩
  | cons f path ih =>
    obtain ⟨d, c, a, s⟩ := f
    obtain ⟨c', n, ht, hfits⟩ := ih h
    obtain ⟨rfl, hred, hblack⟩ := RedBlack.of_fork ht
    cases c' with
    | true =>
      obtain ⟨ht, hs⟩ := hred rfl
      exact ⟨false, n, ht, .red hs hfits⟩
    | false =>
      obtain ⟨ct, cs, k, rfl, ht, hs⟩ := hblack rfl
      exact ⟨ct, k, ht, .black hs hfits⟩

theorem RedBlack.blacken (h : RedBlack (node c l a r) c' n) :
    ∃ m, RedBlack (node false l a r) false m := by
  cases h with
  | red hl hr => exact ⟨_, .black hl hr⟩
  | black hl hr => exact ⟨_, .black hl hr⟩

/-- The black nodes on each path from the root to a leaf. -/
def leafDepths : ColorTree α → List Nat
  | nil => [0]
  | node red l _ r => (l.leafDepths ++ r.leafDepths).map fun n => if red then n else n + 1

theorem RedBlack.leafDepths {t : ColorTree α} (h : RedBlack t c n) : ∀ m ∈ t.leafDepths, m = n := by
  induction h with
  | nil => simp [ColorTree.leafDepths]
  | red _ _ ihl ihr =>
    intro m hm
    simp only [ColorTree.leafDepths, List.mem_map, List.mem_append] at hm
    obtain ⟨k, hk, rfl⟩ := hm
    rcases hk with hk | hk
    · exact ihl k hk
    · exact ihr k hk
  | black _ _ ihl ihr =>
    intro m hm
    simp only [ColorTree.leafDepths, List.mem_map, List.mem_append] at hm
    obtain ⟨k, hk, rfl⟩ := hm
    rcases hk with hk | hk
    · simp [ihl k hk]
    · simp [ihr k hk]

end ColorTree
