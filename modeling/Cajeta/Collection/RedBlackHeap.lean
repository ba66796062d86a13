import Cajeta.Collection.RedBlackTree

/-!
# The tree that linked nodes form

When the nodes of a `RedBlackTree` form a tree: every link to a child is matched by the link back to
the parent. What a write, and what a rotation, does to the tree.
-/

namespace Cajeta.Collection

namespace RedBlackNode
variable {K V : Type} (n : RedBlackNode K V) (d : Dir) (x : Option Nat)

@[simp] theorem child_withChild : (n.withChild d x).child d = x := by cases d <;> rfl

@[simp] theorem child_withChild_flip : (n.withChild d x).child d.flip = n.child d.flip := by
  cases d <;> rfl

@[simp] theorem child_flip_withChild : (n.withChild d.flip x).child d = n.child d := by
  cases d <;> rfl

@[simp] theorem parent_withChild : (n.withChild d x).parent = n.parent := by cases d <;> rfl

@[simp] theorem red_withChild : (n.withChild d x).red = n.red := by cases d <;> rfl

@[simp] theorem key_withChild : (n.withChild d x).key = n.key := by cases d <;> rfl

@[simp] theorem value_withChild : (n.withChild d x).value = n.value := by cases d <;> rfl

@[simp] theorem child_parent (p : Option Nat) : child { n with parent := p } d = n.child d := by
  cases d <;> rfl

@[simp] theorem child_red (c : Bool) : child { n with red := c } d = n.child d := by
  cases d <;> rfl

end RedBlackNode

namespace RedBlackTree
open ColorTree
variable {K V : Type} {nodes nodes' : Nat → RedBlackNode K V}

/-- The nodes of the tree are linked as it says, its root to the parent `p`. -/
def Rep (nodes : Nat → RedBlackNode K V) : (p : Option Nat) → ColorTree Nat → Prop
  | _, .nil => True
  | p, .node c l a r => (nodes a).parent = p ∧ (nodes a).left = l.top ∧ (nodes a).right = r.top ∧
      (nodes a).red = c ∧ Rep nodes (some a) l ∧ Rep nodes (some a) r

theorem rep_fork : Rep nodes p (fork d c a s u) ↔ (nodes a).parent = p ∧ (nodes a).child d = s.top ∧
    (nodes a).child d.flip = u.top ∧ (nodes a).red = c ∧ Rep nodes (some a) s ∧
    Rep nodes (some a) u := by
  cases d with
  | left => simp only [fork, Rep, RedBlackNode.child, Dir.flip]
  | right =>
    simp only [fork, Rep, RedBlackNode.child, Dir.flip]
    tauto

theorem Rep.congr {s : ColorTree Nat} (h : Rep nodes p s)
    (hs : ∀ a ∈ s.inorder, nodes' a = nodes a) : Rep nodes' p s := by
  induction s generalizing p with
  | nil => trivial
  | node c l a r ihl ihr =>
    obtain ⟨hp, hl, hr, hc, hrl, hrr⟩ := h
    have ha := hs a (by simp [inorder])
    refine ⟨ha ▸ hp, ha ▸ hl, ha ▸ hr, ha ▸ hc, ihl hrl fun b hb => hs b ?_,
      ihr hrr fun b hb => hs b ?_⟩ <;> simp [inorder, hb]

theorem Rep.reparent {s : ColorTree Nat} (h : Rep nodes p s) (hnd : s.inorder.Nodup)
    (htop : ∀ a, s.top = some a → nodes' a = { nodes a with parent := q })
    (hs : ∀ a ∈ s.inorder, s.top ≠ some a → nodes' a = nodes a) : Rep nodes' q s := by
  cases s with
  | nil => trivial
  | node c l a r =>
    obtain ⟨-, hl, hr, hc, hrl, hrr⟩ := h
    have ha := htop a rfl
    obtain ⟨hndl, hndr, hdisj⟩ := List.nodup_append.mp hnd
    refine ⟨by rw [ha], by rw [ha]; exact hl, by rw [ha]; exact hr, by rw [ha]; exact hc,
      hrl.congr fun b hb => ?_, hrr.congr fun b hb => ?_⟩
    · refine hs b (by simp [inorder, hb]) ?_
      rintro ⟨⟩
      exact hdisj _ hb _ List.mem_cons_self rfl
    · refine hs b (by simp [inorder, hb]) ?_
      rintro ⟨⟩
      exact (List.nodup_cons.mp hndr).1 hb

def parentOf (path : List (Frame Nat)) : Option Nat := path.head?.map (·.label)

/-- The nodes of the path are linked as it says, with `x` in the hole. -/
def Around (nodes : Nat → RedBlackNode K V) (root : Option Nat) :
    (x : Option Nat) → List (Frame Nat) → Prop
  | x, [] => root = x
  | x, ⟨d, c, a, s⟩ :: path => (nodes a).child d = x ∧ (nodes a).child d.flip = s.top ∧
      (nodes a).parent = parentOf path ∧ (nodes a).red = c ∧ Rep nodes (some a) s ∧
      Around nodes root (some a) path

/-- The nodes form the tree: they are linked as it says, and none is in it twice. -/
structure Shows (t : RedBlackTree K V) (s : ColorTree Nat) : Prop where
  root : t.root = s.top
  rep : Rep t.nodes none s
  nodup : s.inorder.Nodup

theorem rep_plug {path : List (Frame Nat)} {s : ColorTree Nat} {root : Option Nat} :
    root = (plug path s).top ∧ Rep nodes none (plug path s) ↔
      Around nodes root s.top path ∧ Rep nodes (parentOf path) s := by
  induction path generalizing s with
  | nil => exact Iff.rfl
  | cons f path ih =>
    obtain ⟨d, c, a, u⟩ := f
    rw [plug, ih, attach, rep_fork, top_fork]
    simp only [Around, parentOf, List.head?_cons, Option.map_some]
    tauto

theorem Around.congr {path : List (Frame Nat)} {root : Option Nat} (h : Around nodes root x path)
    (hs : ∀ a ∈ before path ++ after path, nodes' a = nodes a) : Around nodes' root x path := by
  induction path generalizing x with
  | nil => exact h
  | cons f path ih =>
    obtain ⟨d, c, a, u⟩ := f
    obtain ⟨hx, hu, hp, hc, hrep, hrest⟩ := h
    have ha := hs a (by cases d <;> simp [before, after])
    refine ⟨ha ▸ hx, ha ▸ hu, ha ▸ hp, ha ▸ hc, hrep.congr fun b hb => hs b ?_,
      ih hrest fun b hb => hs b ?_⟩
    · cases d <;> simp [before, after, hb]
    · rcases List.mem_append.mp hb with hb | hb <;> simp [before, after, hb]

/-! ## Writes -/

variable {t t' : RedBlackTree K V}

@[simp] theorem nodes_setNode_self (t : RedBlackTree K V) (a : Nat) (n : RedBlackNode K V) :
    (t.setNode a n).nodes a = n := Function.update_self ..

theorem nodes_setNode_of_ne (h : b ≠ a) : (t.setNode a n).nodes b = t.nodes b :=
  Function.update_of_ne h ..

structure SameEntries (t t' : RedBlackTree K V) : Prop where
  registered : t'.registered = t.registered
  sizeCount : t'.sizeCount = t.sizeCount
  key : ∀ a, (t'.nodes a).key = (t.nodes a).key
  value : ∀ a, (t'.nodes a).value = (t.nodes a).value

theorem SameEntries.refl (t : RedBlackTree K V) : SameEntries t t :=
  ⟨rfl, rfl, fun _ => rfl, fun _ => rfl⟩

theorem SameEntries.trans (h : SameEntries t t') (h' : SameEntries t' t'') : SameEntries t t'' :=
  ⟨h'.1.trans h.1, h'.2.trans h.2, fun a => (h'.3 a).trans (h.3 a), fun a => (h'.4 a).trans (h.4 a)⟩

theorem SameEntries.setNode (h : SameEntries t t') (hk : n.key = (t'.nodes a).key)
    (hv : n.value = (t'.nodes a).value) : SameEntries t (t'.setNode a n) := by
  refine ⟨h.1, h.2, fun b => ?_, fun b => ?_⟩
  · by_cases hb : b = a
    · rw [hb, nodes_setNode_self, hk, h.3]
    · rw [nodes_setNode_of_ne hb, h.3]
  · by_cases hb : b = a
    · rw [hb, nodes_setNode_self, hv, h.4]
    · rw [nodes_setNode_of_ne hb, h.4]

theorem SameEntries.setChild (h : SameEntries t t') (d : Dir) (a : Nat) (x : Option Nat) :
    SameEntries t (t'.setChild d a x) := h.setNode (by simp) (by simp)

theorem SameEntries.setParent (h : SameEntries t t') (a : Nat) (x : Option Nat) :
    SameEntries t (t'.setParent a x) := h.setNode rfl rfl

theorem SameEntries.setRed (h : SameEntries t t') (a : Nat) (c : Bool) :
    SameEntries t (t'.setRed a c) := h.setNode rfl rfl

theorem SameEntries.adopt (h : SameEntries t t') (b : Option Nat) (x : Nat) :
    SameEntries t (t'.adopt b x) := by
  cases b with
  | none => exact h
  | some b => exact h.setParent ..

theorem SameEntries.replaceChild (h : SameEntries t t') (d : Dir) (x y : Nat) :
    SameEntries t (replaceChild d t' x y) := by
  unfold RedBlackTree.replaceChild
  split
  · exact ⟨h.1, h.2, h.3, h.4⟩
  · split <;> exact h.setChild ..

theorem nodes_setChild_self : (t.setChild d a x).nodes a = (t.nodes a).withChild d x :=
  nodes_setNode_self ..

theorem nodes_setChild_of_ne (h : b ≠ a) : (t.setChild d a x).nodes b = t.nodes b :=
  nodes_setNode_of_ne h

theorem nodes_setParent_self : (t.setParent a x).nodes a = { t.nodes a with parent := x } :=
  nodes_setNode_self ..

theorem nodes_setParent_of_ne (h : b ≠ a) : (t.setParent a x).nodes b = t.nodes b :=
  nodes_setNode_of_ne h

theorem nodes_adopt_self : (t.adopt (some b) x).nodes b = { t.nodes b with parent := some x } :=
  nodes_setNode_self ..

theorem nodes_adopt_of_ne (h : b ≠ some a) : (t.adopt b x).nodes a = t.nodes a := by
  cases b with
  | none => rfl
  | some b => exact nodes_setNode_of_ne fun heq => h (heq ▸ rfl)

theorem root_adopt : (t.adopt b x).root = t.root := by cases b <;> rfl

theorem replaceChild_spec (d : Dir) (t : RedBlackTree K V) (x y : Nat) :
    ((t.nodes x).parent = none → (replaceChild d t x y).root = some y) ∧
    (∀ p, (t.nodes x).parent = some p → (replaceChild d t x y).root = t.root ∧
      (replaceChild d t x y).nodes p = (t.nodes p).withChild
        (if (t.nodes p).child d = some x then d else d.flip) (some y)) ∧
    ∀ a, (t.nodes x).parent ≠ some a → (replaceChild d t x y).nodes a = t.nodes a := by
  unfold replaceChild
  cases hp : (t.nodes x).parent with
  | none => simp
  | some p =>
    dsimp only
    refine ⟨nofun, fun q hq => ?_, fun a ha => ?_⟩
    · cases hq
      split
      · exact ⟨rfl, nodes_setChild_self⟩
      · exact ⟨rfl, nodes_setChild_self⟩
    · have hne : a ≠ p := fun heq => ha (heq ▸ rfl)
      split <;> exact nodes_setChild_of_ne hne

/-- What a rotation writes at the two nodes it turns, at the subtree that changes sides and at the
parent. -/
structure Turned (d : Dir) (t t' : RedBlackTree K V) (x y : Nat) : Prop where
  same : SameEntries t t'
  lower : t'.nodes x =
    { (t.nodes x).withChild d.flip ((t.nodes y).child d) with parent := some y }
  upper : t'.nodes y = { (t.nodes y).withChild d (some x) with parent := (t.nodes x).parent }
  inner : ∀ b, (t.nodes y).child d = some b → t'.nodes b = { t.nodes b with parent := some x }
  root : (t.nodes x).parent = none → t'.root = some y
  parent : ∀ p, (t.nodes x).parent = some p → t'.root = t.root ∧ t'.nodes p = (t.nodes p).withChild
    (if (t.nodes p).child d = some x then d else d.flip) (some y)
  others : ∀ a, a ≠ x → a ≠ y → (t.nodes y).child d ≠ some a → (t.nodes x).parent ≠ some a →
    t'.nodes a = t.nodes a

theorem rotate_spec (hy : (t.nodes x).child d.flip = some y) (hxy : x ≠ y)
    (hb : ∀ b, (t.nodes y).child d = some b → b ≠ x ∧ b ≠ y)
    (hp : ∀ p, (t.nodes x).parent = some p → p ≠ x ∧ p ≠ y ∧ (t.nodes y).child d ≠ some p) :
    ∃ t', rotate d t x = some t' ∧ Turned d t t' x y := by
  have hyx := hxy.symm
  obtain ⟨t₁, ht₁⟩ : ∃ t₁, t₁ = t.setChild d.flip x ((t.nodes y).child d) := ⟨_, rfl⟩
  obtain ⟨t₂, ht₂⟩ : ∃ t₂, t₂ = t₁.adopt ((t₁.nodes y).child d) x := ⟨_, rfl⟩
  obtain ⟨t₃, ht₃⟩ : ∃ t₃, t₃ = t₂.setParent y (t₂.nodes x).parent := ⟨_, rfl⟩
  obtain ⟨t₄, ht₄⟩ : ∃ t₄, t₄ = replaceChild d t₃ x y := ⟨_, rfl⟩
  refine ⟨(t₄.setChild d y (some x)).setParent x (some y), by simp [rotate, hy, ht₁, ht₂, ht₃, ht₄],
    ?_⟩
  have hbx : (t.nodes y).child d ≠ some x := fun h => (hb x h).1 rfl
  have hby : (t.nodes y).child d ≠ some y := fun h => (hb y h).2 rfl
  have hpx : (t.nodes x).parent ≠ some x := fun h => (hp x h).1 rfl
  have hpy : (t.nodes x).parent ≠ some y := fun h => (hp y h).2.1 rfl
  have h₁x : t₁.nodes x = (t.nodes x).withChild d.flip ((t.nodes y).child d) :=
    ht₁ ▸ nodes_setChild_self
  have h₁ : ∀ a, a ≠ x → t₁.nodes a = t.nodes a := fun a ha => ht₁ ▸ nodes_setChild_of_ne ha
  rw [h₁ y hyx] at ht₂
  have h₂ : ∀ a, (t.nodes y).child d ≠ some a → t₂.nodes a = t₁.nodes a :=
    fun a ha => ht₂ ▸ nodes_adopt_of_ne ha
  have hparent : (t₂.nodes x).parent = (t.nodes x).parent := by
    rw [h₂ x hbx, h₁x, RedBlackNode.parent_withChild]
  rw [hparent] at ht₃
  have h₃y : t₃.nodes y = { t.nodes y with parent := (t.nodes x).parent } := by
    rw [ht₃, nodes_setParent_self, h₂ y hby, h₁ y hyx]
  have h₃ : ∀ a, a ≠ y → t₃.nodes a = t₂.nodes a :=
    fun a ha => ht₃ ▸ nodes_setParent_of_ne ha
  obtain ⟨hroot, hpar, h₄⟩ := replaceChild_spec d t₃ x y
  rw [h₃ x hxy, hparent, ← ht₄] at hroot hpar h₄
  have hs₄ : SameEntries t t₄ := by
    rw [ht₄, ht₃, ht₂, ht₁]
    exact ((((SameEntries.refl t).setChild ..).adopt ..).setParent ..).replaceChild ..
  refine ⟨(hs₄.setChild ..).setParent .., ?_, ?_, fun b hbv => ?_, hroot, fun p hpv => ?_,
    fun a hax hay hab hap => ?_⟩
  · rw [nodes_setParent_self, nodes_setChild_of_ne hxy, h₄ x hpx, h₃ x hxy, h₂ x hbx, h₁x]
  · rw [nodes_setParent_of_ne hyx, nodes_setChild_self, h₄ y hpy, h₃y]
    cases d <;> rfl
  · obtain ⟨hbx, hby⟩ := hb b hbv
    have hpb : (t.nodes x).parent ≠ some b := fun h => (hp b h).2.2 hbv
    rw [nodes_setParent_of_ne hbx, nodes_setChild_of_ne hby, h₄ b hpb, h₃ b hby, ht₂, hbv,
      nodes_adopt_self, h₁ b hbx]
  · obtain ⟨hpx, hpy, hpb⟩ := hp p hpv
    have h₃p : t₃.nodes p = t.nodes p := by rw [h₃ p hpy, h₂ p hpb, h₁ p hpx]
    obtain ⟨hr, hn⟩ := hpar p hpv
    refine ⟨?_, ?_⟩
    · change t₄.root = t.root
      rw [hr, ht₃]
      change t₂.root = t.root
      rw [ht₂, root_adopt, ht₁]
      rfl
    · rw [nodes_setParent_of_ne hpx, nodes_setChild_of_ne hpy, hn, h₃p]
  · rw [nodes_setParent_of_ne hax, nodes_setChild_of_ne hay, h₄ a hap, h₃ a hay, h₂ a hab, h₁ a hax]

theorem Around.fill {path : List (Frame Nat)} {root root' : Option Nat} (d : Dir)
    (h : Around nodes root (some x) path) (hx : x ∉ before path ++ after path)
    (hnd : (before path ++ after path).Nodup) (hroot : parentOf path = none → root' = some y)
    (hparent : ∀ p, parentOf path = some p → root' = root ∧ nodes' p = (nodes p).withChild
      (if (nodes p).child d = some x then d else d.flip) (some y))
    (hothers : ∀ a ∈ before path ++ after path, parentOf path ≠ some a → nodes' a = nodes a) :
    Around nodes' root' (some y) path := by
  cases path with
  | nil => exact hroot rfl
  | cons f path =>
    obtain ⟨e, c, p, s⟩ := f
    obtain ⟨hx', hs, hp, hc, hrep, hrest⟩ := h
    obtain ⟨hr, hn⟩ := hparent p rfl
    have hside : (if (nodes p).child d = some x then d else d.flip) = e := by
      rcases Dir.eq_or_flip e d with rfl | rfl
      · rw [if_pos hx']
      · rw [Dir.flip_flip, if_neg]
        rw [hs]
        intro htop
        have hmem := top_mem htop
        exact hx (by cases e <;> simp [before, after, hmem])
    rw [hside] at hn
    have hperm := frame_perm ⟨e, c, p, s⟩ path
    obtain ⟨hpn, -⟩ := List.nodup_cons.mp (hperm.nodup_iff.mp hnd)
    have hold : ∀ a, a ∈ s.inorder ∨ a ∈ before path ++ after path → nodes' a = nodes a := by
      intro a ha
      refine hothers a (hperm.mem_iff.mpr (List.mem_cons_of_mem _ (List.mem_append.mpr ha))) ?_
      rintro ⟨⟩
      exact hpn (List.mem_append.mpr ha)
    refine ⟨by rw [hn, RedBlackNode.child_withChild], by rw [hn,
      RedBlackNode.child_withChild_flip, hs],
      by rw [hn, RedBlackNode.parent_withChild, hp], by rw [hn, RedBlackNode.red_withChild, hc],
      hrep.congr fun a ha => hold a (.inl ha), ?_⟩
    rw [hr]
    exact hrest.congr fun a ha => hold a (.inr ha)

theorem parentOf_mem {path : List (Frame Nat)} (h : parentOf path = some p) :
    p ∈ before path ++ after path := by
  cases path with
  | nil => cases h
  | cons f path =>
    cases h
    exact (frame_perm f path).mem_iff.mpr List.mem_cons_self

theorem Shows.rotate {path : List (Frame Nat)} {A B C : ColorTree Nat}
    (h : Shows t (plug path (fork d c x A (fork d.flip c' y C B)))) :
    ∃ t', rotate d t x = some t' ∧ SameEntries t t' ∧
      Shows t' (plug path (fork d c' y (fork d c x A B) C)) := by
  obtain ⟨haround, hrep⟩ := rep_plug.mp ⟨h.root, h.rep⟩
  rw [top_fork] at haround
  obtain ⟨hxp, hxA, hxy, hxc, hA, hrepy⟩ := rep_fork.mp hrep
  obtain ⟨hyp, hyC, hyB, hyc, hC, hB⟩ := rep_fork.mp hrepy
  rw [top_fork] at hxy
  rw [Dir.flip_flip] at hyB
  -- The nodes that the rotation writes are different, and so are those of the three subtrees.
  have hperm : (plug path (fork d c x A (fork d.flip c' y C B))).inorder.Perm
      (x :: y :: (A.inorder ++ (B.inorder ++ (C.inorder ++ (before path ++ after path))))) := by
    classical
    refine (inorder_plug_perm _ _).trans (List.perm_iff_count.mpr fun a => ?_)
    have hx := (inorder_fork_perm d c x A (fork d.flip c' y C B)).count_eq a
    have hy := (inorder_fork_perm d.flip c' y C B).count_eq a
    simp only [List.count_append, List.count_cons] at hx hy ⊢
    omega
  have hnd := hperm.nodup_iff.mp h.nodup
  have hpathMem : ∀ p, parentOf path = some p → p ∈ before path ++ after path :=
    fun p hp => parentOf_mem hp
  obtain ⟨L, hL⟩ : ∃ L, before path ++ after path = L := ⟨_, rfl⟩
  rw [hL] at hnd hpathMem
  simp only [List.nodup_cons, List.nodup_append, List.mem_cons, List.mem_append, not_or] at hnd
  obtain ⟨⟨hxy', hxA', hxB', hxC', hxL⟩, ⟨hyA', hyB', hyC', hyL⟩, hndA,
    ⟨hndB, ⟨hndC, hndL, hCL⟩, hBL⟩,
    hAL⟩ := hnd
  have hb : ∀ b, (t.nodes y).child d = some b → b ≠ x ∧ b ≠ y := by
    intro b hb
    have hbB := top_mem (hyB ▸ hb)
    constructor
    · rintro rfl; exact hxB' hbB
    · rintro rfl; exact hyB' hbB
  have hp : ∀ p, (t.nodes x).parent = some p → p ≠ x ∧ p ≠ y ∧ (t.nodes y).child d ≠ some p := by
    intro p hp
    have hpL := hpathMem p (hxp ▸ hp)
    refine ⟨?_, ?_, fun hb => ?_⟩
    · rintro rfl; exact hxL hpL
    · rintro rfl; exact hyL hpL
    · exact hBL p (top_mem (hyB ▸ hb)) p (.inr hpL) rfl
  obtain ⟨t', hrotate, hturn⟩ := rotate_spec hxy hxy' hb hp
  have hA₁ : ∀ a ∈ A.inorder, t'.nodes a = t.nodes a := by
    intro a ha
    refine hturn.others a ?_ ?_ (fun hb => ?_) fun hp => ?_
    · rintro rfl; exact hxA' ha
    · rintro rfl; exact hyA' ha
    · exact hAL a ha a (.inl (top_mem (hyB ▸ hb))) rfl
    · exact hAL a ha a (.inr (.inr (hpathMem a (hxp ▸ hp)))) rfl
  have hC₁ : ∀ a ∈ C.inorder, t'.nodes a = t.nodes a := by
    intro a ha
    refine hturn.others a ?_ ?_ (fun hb => ?_) fun hp => ?_
    · rintro rfl; exact hxC' ha
    · rintro rfl; exact hyC' ha
    · exact hBL a (top_mem (hyB ▸ hb)) a (.inl ha) rfl
    · exact hCL a ha a (hpathMem a (hxp ▸ hp)) rfl
  have hB₁ : ∀ a ∈ B.inorder, B.top ≠ some a → t'.nodes a = t.nodes a := by
    intro a ha hne
    refine hturn.others a ?_ ?_ (fun hb => hne (hyB ▸ hb)) fun hp => ?_
    · rintro rfl; exact hxB' ha
    · rintro rfl; exact hyB' ha
    · exact hBL a ha a (.inr (hpathMem a (hxp ▸ hp))) rfl
  have hL₁ : ∀ a ∈ L, parentOf path ≠ some a → t'.nodes a = t.nodes a := by
    intro a ha hne
    refine hturn.others a ?_ ?_ (fun hb => ?_) fun hp => hne (hxp ▸ hp)
    · rintro rfl; exact hxL ha
    · rintro rfl; exact hyL ha
    · exact hBL a (top_mem (hyB ▸ hb)) a (.inr ha) rfl
  have hfill : Around t'.nodes t'.root (some y) path := by
    refine haround.fill d (hL ▸ hxL) (hL ▸ hndL) (fun hp => hturn.root (hxp.trans hp))
      (fun p hp => hturn.parent p (hxp.trans hp)) (hL ▸ hL₁)
  have hrep' : Rep t'.nodes (parentOf path) (fork d c' y (fork d c x A B) C) := by
    refine rep_fork.mpr ⟨?_, ?_, ?_, ?_, rep_fork.mpr ⟨?_, ?_, ?_, ?_, hA.congr hA₁,
      hB.reparent hndB (fun b hb => hturn.inner b (hyB.trans hb)) hB₁⟩, hC.congr hC₁⟩
    · rw [hturn.upper, hxp]
    · rw [hturn.upper, top_fork, RedBlackNode.child_parent, RedBlackNode.child_withChild]
    · rw [hturn.upper, RedBlackNode.child_parent, RedBlackNode.child_withChild_flip, hyC]
    · rw [hturn.upper]
      exact (RedBlackNode.red_withChild ..).trans hyc
    · rw [hturn.lower]
    · rw [hturn.lower, RedBlackNode.child_parent, RedBlackNode.child_flip_withChild, hxA]
    · rw [hturn.lower, RedBlackNode.child_parent, RedBlackNode.child_withChild, hyB]
    · rw [hturn.lower]
      exact (RedBlackNode.red_withChild ..).trans hxc
  obtain ⟨hroot, hrep''⟩ := rep_plug.mpr ⟨(top_fork (d := d)).symm ▸ hfill, hrep'⟩
  refine ⟨t', hrotate, hturn.same, hroot, hrep'', ?_⟩
  rw [inorder_plug_congr (inorder_rotate d c c' x y A B C)]
  exact h.nodup

end RedBlackTree
end Cajeta.Collection

/-!
## Insertion into `RedBlackTree`

The loop that restores the invariant after a red leaf was added: a round either moves the one place
where it may be broken two levels up, or turns a subtree so that it holds everywhere.
-/

namespace Cajeta.Collection.RedBlackTree
open ColorTree
variable {K V : Type} {t t' : RedBlackTree K V} {path : List (Frame Nat)}
  {s u A B C : ColorTree Nat}

theorem Shows.links (h : Shows t (plug path (fork d c a s u))) :
    (t.nodes a).parent = parentOf path ∧ (t.nodes a).child d = s.top ∧
      (t.nodes a).child d.flip = u.top ∧ (t.nodes a).red = c := by
  obtain ⟨hp, hd, hf, hc, -⟩ := rep_fork.mp (rep_plug.mp ⟨h.root, h.rep⟩).2
  exact ⟨hp, hd, hf, hc⟩

theorem plug_frame (path : List (Frame Nat)) (d : Dir) (c : Bool) (a : Nat)
    (s u : ColorTree Nat) : plug (⟨d, c, a, u⟩ :: path) s = plug path (fork d c a s u) := rfl

theorem plug_sibling (path : List (Frame Nat)) (d : Dir) (c : Bool) (a : Nat)
    (s u : ColorTree Nat) : plug path (fork d c a s u) = plug (⟨d.flip, c, a, s⟩ :: path) u := by
  rw [plug_frame, fork_flip]

theorem Shows.setRed (h : Shows t (plug path (fork d c a s u))) (c' : Bool) :
    Shows (t.setRed a c') (plug path (fork d c' a s u)) := by
  obtain ⟨haround, hrep⟩ := rep_plug.mp ⟨h.root, h.rep⟩
  obtain ⟨hp, hd, hf, -, hs, hu⟩ := rep_fork.mp hrep
  have hperm := (inorder_plug_perm path (fork d c a s u)).trans
    ((inorder_fork_perm d c a s u).append_right _)
  have hnd := hperm.nodup_iff.mp h.nodup
  rw [List.cons_append] at hnd
  have ha := (List.nodup_cons.mp hnd).1
  have hold : ∀ b, b ∈ (s.inorder ++ u.inorder) ++ (before path ++ after path) →
      (t.setRed a c').nodes b = t.nodes b := by
    intro b hb
    refine nodes_setNode_of_ne ?_
    rintro rfl
    exact ha hb
  have hself : (t.setRed a c').nodes a = { t.nodes a with red := c' } := nodes_setNode_self ..
  have hrep' : Rep (t.setRed a c').nodes (parentOf path) (fork d c' a s u) := by
    refine rep_fork.mpr ⟨?_, ?_, ?_, ?_, hs.congr fun b hb => hold b (by simp [hb]),
      hu.congr fun b hb => hold b (by simp [hb])⟩
    · rw [hself]
      exact hp
    · rw [hself, RedBlackNode.child_red, hd]
    · rw [hself, RedBlackNode.child_red, hf]
    · rw [hself]
  rw [top_fork, ← top_fork (d := d) (c := c') (s := s) (t := u)] at haround
  obtain ⟨hroot, hrep''⟩ := rep_plug.mpr
    ⟨haround.congr fun b hb => hold b (List.mem_append_right _ hb), hrep'⟩
  refine ⟨hroot, hrep'', ?_⟩
  rw [inorder_plug_congr (inorder_recolor d c' c a s u)]
  exact h.nodup

/-! ## One round -/

/-- What a round with a black uncle leaves: a subtree that is fine and has a black root, and under
it the node the loop goes on with. -/
structure Turn (t t' : RedBlackTree K V) (path : List (Frame Nat)) (old : ColorTree Nat) (n : Nat)
    (z' : Nat) (s : ColorTree Nat) : Prop where
  same : SameEntries t t'
  shown : Shows t' (plug path s)
  inorder : s.inorder = old.inorder
  ok : RedBlack s false (n + 1)
  ends : ∃ q, (t'.nodes z').parent = some q ∧ (t'.nodes q).red = false

theorem raise_spec (h : Shows t (plug path (fork d false g (fork d true p A B) u)))
    (hz : A.top = some z) (hA : RedBlack A true n) (hB : RedBlack B false n)
    (hu : RedBlack u false n) :
    ∃ t' s, raise d t z = some t' ∧
      Turn t t' path (fork d false g (fork d true p A B) u) n z s := by
  obtain ⟨w, A₁, A₂, rfl, -⟩ := hA.eq_fork d
  obtain rfl := Option.some.inj (top_fork.symm.trans hz)
  have h₀ : Shows t (plug (⟨d, false, g, u⟩ :: path) (fork d true p (fork d true w A₁ A₂) B)) := h
  have hwp : Shows t (plug (⟨d, true, p, B⟩ :: ⟨d, false, g, u⟩ :: path) (fork d true w A₁ A₂)) := h
  have h₁ := h₀.setRed false
  have hg : Shows (t.setRed p false)
    (plug path (fork d false g (fork d false p (fork d true w A₁ A₂) B) u)) := h₁
  have h₂ := hg.setRed true
  rw [← fork_flip] at h₂
  have h₃ : Shows ((t.setRed p false).setRed g true) (plug path (fork d.flip true g u
      (fork d.flip.flip false p (fork d true w A₁ A₂) B))) := by rwa [Dir.flip_flip]
  obtain ⟨t', hrotate, hsame, hshown⟩ := h₃.rotate
  refine ⟨t', _, ?_, ⟨((SameEntries.refl t).setRed ..).setRed .. |>.trans hsame, hshown, ?_,
    .fork_black (.fork_red hu hB) hA, p, ?_, ?_⟩⟩
  · simp [raise, hwp.links.1, h₁.links.1, parentOf, hrotate]
  · rw [inorder_rotate, Dir.flip_flip, fork_flip]
    cases d <;> rfl
  · rw [plug_sibling] at hshown
    exact hshown.links.1
  · exact hshown.links.2.2.2

theorem Shows.apart (h : Shows t (plug path (fork d c a s u))) (hs : s.top = some z) :
    u.top ≠ some z := by
  intro hu
  have hperm := (inorder_plug_perm path (fork d c a s u)).trans
    ((inorder_fork_perm d c a s u).append_right _)
  have hnd := (List.nodup_append.mp (hperm.nodup_iff.mp h.nodup)).1
  exact (List.nodup_append.mp (List.nodup_cons.mp hnd).2).2.2 z (top_mem hs) z (top_mem hu) rfl

theorem turn_spec (h : Shows t (plug path (fork d false g (fork e true p A B) u)))
    (hz : A.top = some z) (hA : RedBlack A true n) (hB : RedBlack B false n)
    (hu : RedBlack u false n) :
    ∃ t' z' s, turn d t z p = some (t', z') ∧
      Turn t t' path (fork d false g (fork e true p A B) u) n z' s := by
  have h₀ : Shows t (plug (⟨d, false, g, u⟩ :: path) (fork e true p A B)) := h
  rcases Dir.eq_or_flip d e with rfl | rfl
  · -- The node is on the outer side.
    have houter : (t.nodes p).child e.flip ≠ some z := by
      rw [h₀.links.2.2.1]
      exact h₀.apart hz
    obtain ⟨t', s, hraise, hturn⟩ := raise_spec h hz hA hB hu
    exact ⟨t', z, s, by simp [turn, houter, hraise], hturn⟩
  · have hinner : (t.nodes p).child d.flip = some z := h₀.links.2.1.trans hz
    obtain ⟨w, C, D, rfl, hC, hD⟩ := hA.eq_fork d.flip
    obtain rfl := Option.some.inj (top_fork.symm.trans hz)
    rw [fork_flip] at h₀
    obtain ⟨t₁, hrotate, hsame, hshown⟩ := h₀.rotate
    have h₁ : Shows t₁ (plug path (fork d false g (fork d true w (fork d true p B D) C) u)) :=
      hshown
    obtain ⟨t', s, hraise, hturn⟩ := raise_spec h₁ top_fork (.fork_red hB hD) hC hu
    refine ⟨t', p, s, by simp [turn, hinner, hrotate, hraise], hsame.trans hturn.same, hturn.shown,
      hturn.inorder.trans ?_, hturn.ok, hturn.ends⟩
    cases d <;> simp [fork, ColorTree.inorder, Dir.flip]

/-- The tree with the one red node whose parent may be red too: its subtrees are fine, and the path
takes a black root in its place. -/
structure Broken (t : RedBlackTree K V) (z : Nat) (path : List (Frame Nat)) (s : ColorTree Nat)
    (n : Nat) : Prop where
  shown : Shows t (plug path s)
  top : s.top = some z
  ok : RedBlack s true n
  fits : Fits path false n

theorem fixSide_spec (h : Broken t z (⟨e, true, p, B⟩ :: ⟨d, false, g, u⟩ :: path) A n) :
    ∃ t' z', fixSide d t z p g = some (t', z') ∧ SameEntries t t' ∧
      ((∃ s, Broken t' z' path s (n + 1) ∧
          s.inorder = (fork d false g (fork e true p A B) u).inorder) ∨
        ∃ s, Turn t t' path (fork d false g (fork e true p A B) u) n z' s ∧
          Fits path false (n + 1)) := by
  obtain ⟨hB, hparent⟩ : RedBlack B false n ∧ Fits (⟨d, false, g, u⟩ :: path) true n := by
    cases h.fits with
    | red hB hparent => exact ⟨hB, hparent⟩
  obtain ⟨c, hu, hfits⟩ : ∃ c, RedBlack u c n ∧ Fits path false (n + 1) := by
    cases hparent with
    | black hu hfits => exact ⟨_, hu, hfits⟩
  have hshown : Shows t (plug path (fork d false g (fork e true p A B) u)) := h.shown
  have huncle := hshown.links.2.2.1
  cases c with
  | false =>
    obtain ⟨t', z', s, hturn, hspec⟩ := turn_spec hshown h.top h.ok hB hu
    refine ⟨t', z', ?_, hspec.same, .inr ⟨s, hspec, hfits⟩⟩
    rw [fixSide, huncle]
    cases hu with
    | nil => exact hturn
    | @black l _ _ r _ a =>
      have hblack : (t.nodes a).red = false := by
        have hat : Shows t (plug (⟨d.flip, false, g, fork e true p A B⟩ :: path)
          (fork .left false a l r)) := plug_sibling .. ▸ hshown
        exact hat.links.2.2.2
      simpa [ColorTree.top, hblack] using hturn
  | true =>
    obtain ⟨a, l, r, rfl, hl, hr⟩ := hu.eq_fork .left
    have hred : (t.nodes a).red = true := by
      have hat : Shows t (plug (⟨d.flip, false, g, fork e true p A B⟩ :: path)
        (fork .left true a l r)) := plug_sibling .. ▸ hshown
      exact hat.links.2.2.2
    have h₀ : Shows t (plug (⟨d, false, g, fork .left true a l r⟩ :: path) (fork e true p A B)) :=
      hshown
    have h₁ := h₀.setRed false
    rw [plug_frame, plug_sibling] at h₁
    have h₂ := h₁.setRed false
    rw [plug_frame] at h₂
    have h₃ := h₂.setRed true
    refine ⟨_, g, by simp [fixSide, huncle, hred], ?_, .inl ⟨_, ⟨h₃, top_fork,
      .fork_red (.fork_black hl hr) (.fork_black h.ok hB), hfits⟩, ?_⟩⟩
    · exact (((SameEntries.refl t).setRed ..).setRed ..).setRed ..
    · rw [fork_flip]
      cases d <;> cases e <;> rfl

theorem insertFixupLoop_spec (h : Broken t z path s n) (hfuel : path.length < fuel) :
    ∃ t' T c m, insertFixupLoop fuel t z = some t' ∧ SameEntries t t' ∧ Shows t' T ∧
      RedBlack T c m ∧ T.inorder = (plug path s).inorder := by
  induction fuel using Nat.strong_induction_on generalizing t z path s n with
  | _ fuel ih =>
  obtain ⟨fuel, rfl⟩ := Nat.exists_eq_succ_of_ne_zero (Nat.ne_zero_of_lt hfuel)
  obtain ⟨w, A, B, rfl, -⟩ := h.ok.eq_fork .left
  obtain rfl := Option.some.inj (top_fork.symm.trans h.top)
  have hparent := h.shown.links.1
  match path, h, hparent with
  | [], h, hparent =>
    exact ⟨t, _, true, n, by simp [insertFixupLoop, hparent, parentOf], .refl t, h.shown, h.ok, rfl⟩
  | ⟨e, false, p, C⟩ :: path, h, hparent =>
    have hred := (Shows.links (plug_frame .. ▸ h.shown)).2.2.2
    obtain ⟨m, hok⟩ : ∃ m, RedBlack (plug (⟨e, false, p, C⟩ :: path) (fork .left true w A B))
        false m := by
      cases h.fits with
      | black hC hfits => exact (Fits.black hC hfits).plug h.ok
    exact ⟨t, _, false, m, by simp [insertFixupLoop, hparent, parentOf, hred], .refl t,
      h.shown, hok,
      rfl⟩
  | ⟨e, true, p, C⟩ :: path, h, hparent =>
    obtain ⟨d, g, u, path, rfl⟩ : ∃ d g u path', path = ⟨d, false, g, u⟩ :: path' := by
      cases h.fits with
      | red _ hfits => cases hfits with
        | black => exact ⟨_, _, _, _, rfl⟩
    have hp := Shows.links (plug_frame .. ▸ h.shown)
    have hg : Shows t (plug path (fork d false g (fork e true p (fork .left true w A B) C) u)) :=
      h.shown
    have hside : (if (t.nodes g).left = some p then fixSide .left t w p g
        else fixSide .right t w p g) = fixSide d t w p g := by
      cases d with
      | left => exact if_pos (hg.links.2.1.trans top_fork)
      | right =>
        refine if_neg fun hleft => hg.apart top_fork ?_
        exact hg.links.2.2.1.symm.trans hleft
    have hround : insertFixupLoop (fuel + 1) t w =
        (fixSide d t w p g).bind fun x => insertFixupLoop fuel x.1 x.2 := by
      rw [← hside]
      simp only [insertFixupLoop, hparent, parentOf, hp.1, hp.2.2.2, List.head?_cons,
        Option.map_some, Option.bind_eq_bind, Option.bind_some, Bool.true_eq_false, if_false]
      split <;> rfl
    obtain ⟨t₁, z₁, hfix, hsame, hbroken | hturned⟩ := fixSide_spec h
    · obtain ⟨s, hbroken, hin⟩ := hbroken
      have hlt : path.length < fuel := by
        simp only [List.length_cons] at hfuel
        omega
      obtain ⟨t', T, c, m, hloop, hsame', hT, hok, hinT⟩ := ih fuel (by omega) hbroken hlt
      refine ⟨t', T, c, m, ?_, hsame.trans hsame', hT, hok, hinT.trans (inorder_plug_congr hin)⟩
      rw [hround, hfix]
      exact hloop
    · obtain ⟨s, hturn, hfits⟩ := hturned
      obtain ⟨m, hok⟩ := hfits.plug hturn.ok
      obtain ⟨q, hq, hblack⟩ := hturn.ends
      obtain ⟨fuel, rfl⟩ : ∃ k, fuel = k + 1 := by
        cases fuel with
        | zero => simp at hfuel
        | succ k => exact ⟨k, rfl⟩
      refine ⟨t₁, _, false, m, ?_, hsame, hturn.shown, hok, inorder_plug_congr hturn.inorder⟩
      have hstop : insertFixupLoop (fuel + 1) t₁ z₁ = some t₁ := by
        simp [insertFixupLoop, hq, hblack]
      rw [hround, hfix]
      exact hstop

theorem insertFixup_spec (h : Broken t z path s n) (hfuel : path.length ≤ t.registered) :
    ∃ t' T m, insertFixup t z = some t' ∧ SameEntries t t' ∧ Shows t' T ∧ RedBlack T false m ∧
      T.inorder = (plug path s).inorder := by
  obtain ⟨t₁, T, c, m, hloop, hsame, hT, hok, hin⟩ :=
    insertFixupLoop_spec h (Nat.lt_succ_of_le hfuel)
  cases T with
  | nil =>
    have hz : z ∈ (plug path s).inorder := by
      rw [inorder_plug]
      simp [top_mem h.top]
    rw [← hin] at hz
    cases hz
  | node c l a r =>
    have hT' : Shows t₁ (plug [] (fork .left c a l r)) := hT
    have hblack := hT'.setRed false
    obtain ⟨m', hok'⟩ := hok.blacken
    refine ⟨t₁.setRed a false, node false l a r, m', ?_, hsame.setRed .., hblack, hok', hin⟩
    simp [insertFixup, hloop, hT.root, ColorTree.top]

end Cajeta.Collection.RedBlackTree
