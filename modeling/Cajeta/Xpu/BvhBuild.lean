import Cajeta.Xpu.Bvh

/-!
# What a build of a subtree writes

The nodes of a threaded tree over the primitives of the range, and their references.
-/

namespace Cajeta.Xpu.Bvh

open Slots Threaded

section Subtree

variable {F : Type} [LinearOrder F] {host : Host F}

/-- The second box encloses the first. -/
def Box.Inside (a b : Box F) : Prop := ∀ k, b.bmin k ≤ a.bmin k ∧ a.bmax k ≤ b.bmax k

theorem le_grow_fst {lo hi bmin bmax : F} : y ≤ (grow lo hi bmin bmax).1 ↔ y ≤ lo ∧ y ≤ bmin := by
  simp only [grow]
  split
  · next h => exact ⟨fun hy => ⟨hy, hy.trans h.le⟩, And.left⟩
  · next h => exact ⟨fun hy => ⟨hy.trans (not_lt.mp h), hy⟩, And.right⟩

theorem grow_snd_le {lo hi bmin bmax : F} : (grow lo hi bmin bmax).2 ≤ y ↔ hi ≤ y ∧ bmax ≤ y := by
  simp only [grow]
  split
  · next h => exact ⟨fun hy => ⟨hy, h.le.trans hy⟩, And.left⟩
  · next h => exact ⟨fun hy => ⟨(not_lt.mp h).trans hy, hy⟩, And.right⟩

/-- One step of the fold of `bounds`. -/
def takeIn (b : Box F) (p : Prim F) : Box F :=
  ⟨fun k => (grow (p.box.bmin k) (p.box.bmax k) (b.bmin k) (b.bmax k)).1,
    fun k => (grow (p.box.bmin k) (p.box.bmax k) (b.bmin k) (b.bmax k)).2⟩

theorem bounds_iff {L : List (Prim F)} {k : Fin 3} :
    (∀ y, y ≤ (bounds host L).bmin k ↔ y ≤ host.far ∧ ∀ p ∈ L, y ≤ p.box.bmin k) ∧
    (∀ y, (bounds host L).bmax k ≤ y ↔ host.negFar ≤ y ∧ ∀ p ∈ L, p.box.bmax k ≤ y) := by
  suffices hfold : ∀ b₀ : Box F,
      (∀ y, y ≤ (L.foldl takeIn b₀).bmin k ↔ y ≤ b₀.bmin k ∧ ∀ p ∈ L, y ≤ p.box.bmin k) ∧
      (∀ y, (L.foldl takeIn b₀).bmax k ≤ y ↔ b₀.bmax k ≤ y ∧ ∀ p ∈ L, p.box.bmax k ≤ y) from hfold _
  induction L with
  | nil => simp
  | cons p L ih =>
    intro b₀
    obtain ⟨hmin, hmax⟩ := ih (takeIn b₀ p)
    refine ⟨fun y => ?_, fun y => ?_⟩
    · rw [List.foldl_cons, hmin, takeIn, le_grow_fst, List.forall_mem_cons]
      tauto
    · rw [List.foldl_cons, hmax, takeIn, grow_snd_le, List.forall_mem_cons]
      tauto

theorem inside_bounds {L : List (Prim F)} (hp : p ∈ L) : p.box.Inside (bounds host L) := fun _ =>
  ⟨((bounds_iff.1 _).mp le_rfl).2 p hp, ((bounds_iff.2 _).mp le_rfl).2 p hp⟩

theorem bounds_inside {L M : List (Prim F)} (h : ∀ p ∈ L, p ∈ M) :
    (bounds host L).Inside (bounds host M) := fun _ =>
  ⟨(bounds_iff.1 _).mpr ⟨((bounds_iff.1 _).mp le_rfl).1,
      fun p hp => ((bounds_iff.1 _).mp le_rfl).2 p (h p hp)⟩,
    (bounds_iff.2 _).mpr ⟨((bounds_iff.2 _).mp le_rfl).1,
      fun p hp => ((bounds_iff.2 _).mp le_rfl).2 p (h p hp)⟩⟩

def Box.words (b : Box F) : List (Word F) := b.bmin.words ++ b.bmax.words

/-- The nine words of a place of the layout. -/
def entryWords (e : Entry (Box F)) : List (Word F) :=
  e.label.words ++
    [.ofU32 e.escape, .ofU32 (e.slot.getD 0), .ofU32 (if e.slot.isSome then 1 else 0)]

omit [LinearOrder F] in
theorem Box.length_words (b : Box F) : b.words.length = 6 := rfl

omit [LinearOrder F] in
theorem length_entryWords (e : Entry (Box F)) : (entryWords e).length = 9 := rfl

omit [LinearOrder F] in
theorem length_flatMap_entryWords (es : List (Entry (Box F))) :
    (es.flatMap entryWords).length = es.length * 9 := by
  induction es with
  | nil => rfl
  | cons e es ih =>
    rw [List.flatMap_cons, List.length_append, ih, length_entryWords, List.length_cons]
    omega

theorem store_tail {α : Type} {A R : List α} {a b c x y z : α} (hA : A.length = i) :
    store (A ++ a :: b :: c :: R) (i + 1) y = some (A ++ a :: y :: c :: R) ∧
    store (A ++ a :: y :: c :: R) (i + 2) z = some (A ++ a :: y :: z :: R) ∧
    store (A ++ a :: y :: z :: R) i x = some (A ++ x :: y :: z :: R) := by
  have h1 := store_length (A ++ [a]) b y (c :: R)
  have h2 := store_length (A ++ [a, y]) c z R
  have h3 := store_length A a x (y :: z :: R)
  simp only [List.length_append, List.length_cons, List.length_nil, List.append_assoc,
    List.cons_append, List.nil_append, Nat.zero_add, Nat.reduceAdd, hA] at h1 h2 h3
  exact ⟨h1, h2, h3⟩

variable {nodes primRef lo hi : Nat} {s s₁ s₂ : Build F}

theorem cajBvhBuild_leaf {slice : List (Prim F)} {blk₁ blk₂ blk₃ blk₄ blk₅ : List (Word F)}
    (hle : hi - lo ≤ 1) (hslice : readFrom s.prims lo (hi - lo) = some slice)
    (hbox : writeFrom s.blk (nodes + s.next * 9) (bounds host slice).words = some blk₁)
    (hprim : s.prims[lo]? = some p) (href : store blk₁ (primRef + s.pr) (.ofU32 p.orig) = some blk₂)
    (hfirst : store blk₂ (nodes + s.next * 9 + 7) (.ofU32 s.pr) = some blk₃)
    (hcount : store blk₃ (nodes + s.next * 9 + 8) (.ofU32 1) = some blk₄)
    (hescape : store blk₄ (nodes + s.next * 9 + 6) (.ofU32 (u32 (s.next + 1))) = some blk₅) :
    cajBvhBuild host nodes primRef lo hi s =
      some (s.next, ⟨s.prims, blk₅, u32 (s.next + 1), u32 (s.pr + 1)⟩) := by
  rw [cajBvhBuild]
  simp only [nodeWords, hslice, Option.bind_eq_bind, Option.bind_some, if_pos hle, hprim]
  rw [Box.words] at hbox
  simp only [hbox, href, hfirst, hcount, hescape, Option.bind_some]
  rfl

theorem cajBvhBuild_interior {slice prims : List (Prim F)} {blk₁ blk₂ blk₃ blk₄ : List (Word F)}
    (hgt : ¬ hi - lo ≤ 1) (hslice : readFrom s.prims lo (hi - lo) = some slice)
    (hbox : writeFrom s.blk (nodes + s.next * 9) (bounds host slice).words = some blk₁)
    (hsort : writeFrom s.prims lo
      (host.qsort (cmp host (longestAxis host (centroidBounds host slice))) slice) = some prims)
    (hnext : u32 (s.next + 1) = k)
    (hleft : cajBvhBuild host nodes primRef lo (lo + (hi - lo) / 2) ⟨prims, blk₁, k, s.pr⟩ =
      some (l, s₁))
    (hright : cajBvhBuild host nodes primRef (lo + (hi - lo) / 2) hi s₁ = some (r, s₂))
    (hfirst : store s₂.blk (nodes + s.next * 9 + 7) (.ofU32 0) = some blk₂)
    (hcount : store blk₂ (nodes + s.next * 9 + 8) (.ofU32 0) = some blk₃)
    (hescape : store blk₃ (nodes + s.next * 9 + 6) (.ofU32 s₂.next) = some blk₄) :
    cajBvhBuild host nodes primRef lo hi s = some (s.next, ⟨s₂.prims, blk₄, s₂.next, s₂.pr⟩) := by
  rw [cajBvhBuild]
  rw [Box.words] at hbox
  simp only [nodeWords, hslice, Option.bind_eq_bind, Option.bind_some, if_neg hgt, hbox, hsort,
    hnext, hleft, hright, hfirst, hcount, hescape]
  rfl

/-! ## A subtree -/

/-- The subtree that a build makes of the primitives. -/
structure Subtree (host : Host F) (box : Nat → Box F) (M M' : List (Prim F))
    (t : Tree (Box F) Nat) : Prop where
  perm : M'.Perm M
  items : t.items = M'.map Prim.orig
  encloses : t.Encloses Box.Inside box
  labels : ∀ c ∈ t.labels, ∃ L, (∀ p ∈ L, p ∈ M) ∧ c = bounds host L

/-- The words that a build writes: the nodes from the index `next` on, in place of `X`, and the
references from the slot `pr` on, in place of `Y`. -/
def Writes (host : Host F) (nodes primRef : Nat) (M M' : List (Prim F)) (t : Tree (Box F) Nat) :
    Prop :=
  ∀ (P Q : List (Prim F)) (A X B Y C : List (Word F)) (next pr : Nat),
    A.length = nodes + next * 9 → X.length = t.size * 9 →
    (A ++ X ++ B).length = primRef + pr → Y.length = M.length →
    next + t.size < 2 ^ 32 → pr + M.length < 2 ^ 32 →
    cajBvhBuild host nodes primRef P.length (P.length + M.length)
        ⟨P ++ M ++ Q, A ++ X ++ B ++ Y ++ C, next, pr⟩ =
      some (next, ⟨P ++ M' ++ Q,
        A ++ (t.thread next pr).flatMap entryWords ++ B ++ t.items.map .ofU32 ++ C,
        next + t.size, pr + M.length⟩)

variable {box : Nat → Box F}

omit [LinearOrder F] in
theorem exists_root_words {X : List (Word F)} (h : X.length = (k + 1) * 9) :
    ∃ Z a b c X', X = Z ++ a :: b :: c :: X' ∧ Z.length = 6 ∧ X'.length = k * 9 := by
  obtain ⟨a, b, c, X', hX'⟩ : ∃ a b c X', X.drop 6 = a :: b :: c :: X' := by
    have hlen : (X.drop 6).length = k * 9 + 3 := by
      rw [List.length_drop]
      omega
    match hX : X.drop 6 with
    | a :: b :: c :: X' => exact ⟨a, b, c, X', rfl⟩
    | [] | [_] | [_, _] => simp [hX] at hlen
  refine ⟨X.take 6, a, b, c, X', ?_, ?_, ?_⟩
  · rw [← hX', List.take_append_drop]
  · rw [List.length_take]
    omega
  · have hlen := congrArg List.length hX'
    simp only [List.length_drop, List.length_cons] at hlen
    omega

theorem writes_leaf (p : Prim F) :
    Writes host nodes primRef [p] [p] (.leaf (bounds host [p]) p.orig) := by
  intro P Q A X B Y C next pr hA hX hB hY hnext hpr
  simp only [Tree.size] at hX hnext
  obtain ⟨y, rfl⟩ := List.length_eq_one_iff.mp hY
  obtain ⟨Z, a, b, c, X', rfl, hZ, hX'⟩ := exists_root_words (k := 0) hX
  obtain rfl := List.length_eq_zero_iff.mp hX'
  obtain ⟨W, hbw⟩ : ∃ W, W = (bounds host [p]).words := ⟨_, rfl⟩
  have hW : W.length = 6 := by rw [hbw, Box.length_words]
  have hAW : (A ++ W).length = nodes + next * 9 + 6 := by rw [List.length_append, hA, hW]
  have hslice := readFrom_append P [p] Q
  have hbox := writeFrom_append A Z (a :: b :: c :: B ++ [y] ++ C) W (hZ.trans hW.symm)
  have href := store_length (A ++ W ++ a :: b :: c :: B) y (.ofU32 p.orig) C
  have hlen : (A ++ W ++ a :: b :: c :: B).length = primRef + pr := by
    rw [← hB]
    simp only [List.length_append, List.length_cons, List.length_nil, hZ, hW]
    omega
  obtain ⟨h7, h8, h6⟩ := @store_tail _ _ (A ++ W) (B ++ .ofU32 p.orig :: C) a b c
    (.ofU32 (u32 (next + 1))) (.ofU32 pr) (.ofU32 1) hAW
  rw [hlen] at href
  rw [hA] at hbox
  subst hbw
  have hone : P.length + 1 - P.length = 1 := Nat.add_sub_cancel_left ..
  simp only [List.append_assoc, List.cons_append, List.nil_append, List.length_singleton]
    at hslice hbox href h7 h8 h6 ⊢
  have hread : (P ++ p :: Q)[P.length]? = some p := by simp
  have hslice' : readFrom (P ++ p :: Q) P.length (P.length + 1 - P.length) = some [p] := by
    rw [hone]
    exact hslice
  have hbuild := cajBvhBuild_leaf
    (s := ⟨P ++ p :: Q, A ++ (Z ++ a :: b :: c :: (B ++ y :: C)), next, pr⟩)
    hone.le hslice' hbox hread href h7 h8 h6
  have hnext' : u32 (next + 1) = next + 1 := Nat.mod_eq_of_lt hnext
  have hpr' : u32 (pr + 1) = pr + 1 := Nat.mod_eq_of_lt hpr
  rw [hbuild]
  simp [hnext', hpr', Tree.thread, Tree.size, Tree.items, entryWords]

theorem writes_node {M M₁ M₂ M₁' M₂' : List (Prim F)} {l r : Tree (Box F) Nat}
    (hM : 2 ≤ M.length)
    (hsort : host.qsort (cmp host (longestAxis host (centroidBounds host M))) M = M₁ ++ M₂)
    (hlen₁ : M₁.length = M.length / 2) (hlen : M₁.length + M₂.length = M.length)
    (hsize₁ : l.items.length = M₁.length) (hsize₂ : r.items.length = M₂.length)
    (hl : Writes host nodes primRef M₁ M₁' l) (hr : Writes host nodes primRef M₂ M₂' r)
    (hperm₁ : M₁'.length = M₁.length) :
    Writes host nodes primRef M (M₁' ++ M₂') (.node (bounds host M) l r) := by
  intro P Q A X B Y C next pr hA hX hB hY hnext hpr
  simp only [Tree.size] at hX hnext
  obtain ⟨Z, a, b, c, X', rfl, hZ, hX'⟩ := exists_root_words hX
  obtain ⟨X₁, X₂, rfl, hX₁⟩ : ∃ X₁ X₂, X' = X₁ ++ X₂ ∧ X₁.length = l.size * 9 :=
    ⟨X'.take (l.size * 9), X'.drop (l.size * 9), (List.take_append_drop ..).symm,
      by rw [List.length_take]; omega⟩
  obtain ⟨Y₁, Y₂, rfl, hY₁⟩ : ∃ Y₁ Y₂, Y = Y₁ ++ Y₂ ∧ Y₁.length = M₁.length :=
    ⟨Y.take M₁.length, Y.drop M₁.length, (List.take_append_drop ..).symm,
      by rw [List.length_take]; omega⟩
  rw [List.length_append] at hX' hY
  obtain ⟨W, hbw⟩ : ∃ W, W = (bounds host M).words := ⟨_, rfl⟩
  have hW : W.length = 6 := by rw [hbw, Box.length_words]
  have hAW : (A ++ W).length = nodes + next * 9 + 6 := by rw [List.length_append, hA, hW]
  have hslice := readFrom_append P M Q
  have hbox := writeFrom_append A Z (a :: b :: c :: (X₁ ++ X₂ ++ B) ++ (Y₁ ++ Y₂) ++ C) W
    (hZ.trans hW.symm)
  have hput := writeFrom_append P M Q (M₁ ++ M₂) (by rw [List.length_append, hlen])
  have hnext₁ : u32 (next + 1) = next + 1 := Nat.mod_eq_of_lt (by omega)
  simp only [List.length_append, List.length_cons, hZ] at hB
  -- The two calls, and the three stores after them.
  have hleft := hl P (M₂ ++ Q) (A ++ W ++ [a, b, c]) X₁ (X₂ ++ B) Y₁ (Y₂ ++ C) (next + 1) pr
    (by simp only [List.length_append, List.length_cons, List.length_nil, hA, hW]; omega) hX₁
    (by simp only [List.length_append, List.length_cons, List.length_nil, hW]; omega) hY₁
    (by omega) (by omega)
  have hright := hr (P ++ M₁') Q
    (A ++ W ++ [a, b, c] ++ (l.thread (next + 1) pr).flatMap entryWords)
    X₂ (B ++ l.items.map .ofU32) Y₂ C (next + 1 + l.size) (pr + M₁.length)
    (by
      simp only [List.length_append, List.length_cons, List.length_nil, hA, hW,
        length_flatMap_entryWords, Tree.length_thread]
      omega)
    (by omega)
    (by
      simp only [List.length_append, List.length_cons, List.length_nil, hW, List.length_map, hsize₁,
        length_flatMap_entryWords, Tree.length_thread]
      omega)
    (by omega) (by omega) (by omega)
  obtain ⟨h7, h8, h6⟩ := @store_tail _ _ (A ++ W)
    ((l.thread (next + 1) pr).flatMap entryWords ++
      (r.thread (next + 1 + l.size) (pr + M₁.length)).flatMap entryWords ++ B ++
      l.items.map .ofU32 ++ r.items.map .ofU32 ++ C) a b c
    (.ofU32 (next + 1 + l.size + r.size)) (.ofU32 0) (.ofU32 0) hAW
  have hsub : P.length + M.length - P.length = M.length := Nat.add_sub_cancel_left ..
  have hend : P.length + M₁.length + M₂.length = P.length + M.length := by omega
  rw [hA] at hbox
  rw [List.length_append, hperm₁, hend] at hright
  subst hbw
  simp only [List.append_assoc, List.cons_append, List.nil_append]
    at hslice hbox hput hleft hright h7 h8 h6 ⊢
  have hgt : ¬ P.length + M.length - P.length ≤ 1 := by omega
  have hmid : P.length + (P.length + M.length - P.length) / 2 = P.length + M₁.length := by omega
  rw [← hsort] at hput
  rw [← hmid] at hleft
  rw [← hmid] at hright
  have hslice' : readFrom (P ++ (M ++ Q)) P.length (P.length + M.length - P.length) = some M := by
    rw [hsub]
    exact hslice
  have hbuild := cajBvhBuild_interior
    (s := ⟨P ++ (M ++ Q), A ++ (Z ++ a :: b :: c :: (X₁ ++ (X₂ ++ (B ++ (Y₁ ++ (Y₂ ++ C)))))),
      next, pr⟩)
    hgt hslice' hbox hput hnext₁ hleft hright h7 h8 h6
  rw [hbuild]
  simp [Tree.thread, Tree.size, Tree.items, entryWords, hsize₁, Nat.add_assoc, Nat.add_comm 1, hlen]

theorem subtree_leaf {p : Prim F} (hbox : box p.orig = p.box) :
    Subtree host box [p] [p] (.leaf (bounds host [p]) p.orig) where
  perm := .rfl
  items := rfl
  encloses := by
    rw [Tree.Encloses, hbox]
    exact inside_bounds (List.mem_singleton.mpr rfl)
  labels c hc := ⟨[p], fun _ => id, List.mem_singleton.mp hc⟩

theorem subtree_node {M M₁ M₂ M₁' M₂' : List (Prim F)} {l r : Tree (Box F) Nat}
    (hbox : ∀ p ∈ M, box p.orig = p.box) (hperm : (M₁ ++ M₂).Perm M)
    (hl : Subtree host box M₁ M₁' l) (hr : Subtree host box M₂ M₂' r) :
    Subtree host box M (M₁' ++ M₂') (.node (bounds host M) l r) := by
  have hall : (M₁' ++ M₂').Perm M := (hl.perm.append hr.perm).trans hperm
  have hitems : l.items ++ r.items = (M₁' ++ M₂').map Prim.orig := by
    rw [List.map_append, hl.items, hr.items]
  -- The labels below are the bounds of a part of the primitives.
  have hlabels : ∀ c ∈ l.labels ++ r.labels, ∃ L, (∀ p ∈ L, p ∈ M) ∧ c = bounds host L := by
    intro c hc
    rcases List.mem_append.mp hc with hc | hc
    · obtain ⟨L, hL, rfl⟩ := hl.labels c hc
      exact ⟨L, fun p hp => hperm.subset (List.mem_append_left _ (hL p hp)), rfl⟩
    · obtain ⟨L, hL, rfl⟩ := hr.labels c hc
      exact ⟨L, fun p hp => hperm.subset (List.mem_append_right _ (hL p hp)), rfl⟩
  refine ⟨hall, hitems, ⟨fun c hc => ?_, fun a ha => ?_, hl.encloses, hr.encloses⟩, fun c hc => ?_⟩
  · obtain ⟨L, hL, rfl⟩ := hlabels c hc
    exact bounds_inside hL
  · rw [hitems] at ha
    obtain ⟨p, hp, rfl⟩ := List.mem_map.mp ha
    have hpM := hall.subset hp
    rw [hbox p hpM]
    exact inside_bounds hpM
  · rcases List.mem_cons.mp hc with rfl | hc
    · exact ⟨M, fun _ => id, rfl⟩
    · exact hlabels c hc

theorem Subtree.length_items {M M' : List (Prim F)} {t : Tree (Box F) Nat}
    (h : Subtree host box M M' t) : t.items.length = M.length := by
  rw [h.items, List.length_map, h.perm.length_eq]

theorem exists_subtree (M : List (Prim F)) (hM : 0 < M.length)
    (hbox : ∀ p ∈ M, box p.orig = p.box) :
    ∃ t M', Subtree host box M M' t ∧ Writes host nodes primRef M M' t := by
  induction hn : M.length using Nat.strong_induction_on generalizing M with
  | _ n ih =>
  subst hn
  rcases Nat.lt_or_ge M.length 2 with hlt | hge
  · obtain ⟨p, rfl⟩ := List.length_eq_one_iff.mp (show M.length = 1 by omega)
    exact ⟨_, _, subtree_leaf (hbox p (List.mem_singleton.mpr rfl)), writes_leaf p⟩
  · obtain ⟨S, hS⟩ : ∃ S,
      S = host.qsort (cmp host (longestAxis host (centroidBounds host M))) M := ⟨_, rfl⟩
    have hperm : S.Perm M := hS ▸ host.qsort_perm _ _
    have hlen := hperm.length_eq
    obtain ⟨M₁, M₂, rfl, hlen₁⟩ : ∃ M₁ M₂, S = M₁ ++ M₂ ∧ M₁.length = M.length / 2 :=
      ⟨S.take (M.length / 2), S.drop (M.length / 2), (List.take_append_drop ..).symm,
        by rw [List.length_take]; omega⟩
    rw [List.length_append] at hlen
    obtain ⟨l, M₁', hl, hwl⟩ := ih M₁.length (by omega) M₁ (by omega)
      (fun p hp => hbox p (hperm.subset (List.mem_append_left _ hp))) rfl
    obtain ⟨r, M₂', hr, hwr⟩ := ih M₂.length (by omega) M₂ (by omega)
      (fun p hp => hbox p (hperm.subset (List.mem_append_right _ hp))) rfl
    exact ⟨_, _, subtree_node hbox hperm hl hr,
      writes_node hge hS.symm hlen₁ hlen hl.length_items hr.length_items hwl hwr
        hl.perm.length_eq⟩

end Subtree

/-!
## The layout of a finished block

What the reader of a block finds in it, while every structural integer has at most 24 bits.
-/

variable {F : Type} {count flags : Nat}

def headerFields (count flags : Nat) : List Nat :=
  [version, 2 * count - 1, count, 0, hdrWords, 18 * count - 1, flags, nodeWords]

/-- The words of a finished block. -/
def layout (count flags : Nat) (t : Tree (Box F) Nat) (primData : List (Word F)) :
    List (Word F) :=
  (headerFields count flags).map .ofU32 ++ (t.thread 0 0).flatMap entryWords ++
    t.items.map .ofU32 ++ primData

variable [LinearOrder F] in
/-- The block is a threaded tree over the primitives with these boxes, and reads back as it. -/
structure Faithful (count flags : Nat) (box : Nat → Box F) (primData blk : List (Word F)) :
    Prop where
  header : (blk.take 8).map Word.toU32 = (headerFields count flags).map some
  blockWords : cajBvhBlockWords blk = some blk.length
  primData : blk.drop (19 * count - 1) = primData
  tree : ∃ t : Tree (Box F) Nat, t.size = 2 * count - 1 ∧ t.items.Perm (List.range count) ∧
    t.Encloses Box.Inside box ∧
    (∀ i e, (t.thread 0 0)[i]? = some e → readNode blk i = some e) ∧
    (∀ j a, t.items[j]? = some a → readPrim blk j = some a) ∧
    ∀ hit descends, (∀ e : Entry (Box F), e.slot = none → descends e = hit e.label) →
      ∀ fuel ≥ t.size, walk descends blk fuel 0 = some (t.visits hit 0)

theorem toU32_ofU32 (h : n < 2 ^ 24) : (Word.ofU32 n : Word F).toU32 = some n := by
  rw [Word.ofU32, Rounding.round_of_lt h, Word.toU32, if_pos (h.trans (by decide))]

theorem vec_eta (v : Vec F) : ![v 0, v 1, v 2] = v := by
  funext k
  match k with
  | 0 | 1 | 2 => rfl

theorem readVec_eq {blk : List (Word F)} {v : Vec F} (hx : blk[i]? = some (.coord (v 0)))
    (hy : blk[i + 1]? = some (.coord (v 1))) (hz : blk[i + 2]? = some (.coord (v 2))) :
    readVec blk i = some v := by
  simp only [readVec, hx, hy, hz, Word.toCoord, Option.bind_eq_bind, Option.bind_some]
  exact congrArg some (vec_eta v)

theorem readNode_append {blk A C : List (Word F)} {e : Entry (Box F)} {i : Nat}
    (hoff : blk[4]? = some (.ofU32 8)) (hblk : blk = A ++ entryWords e ++ C)
    (hA : A.length = 8 + i * 9) (hi : i < 2 ^ 24) (hesc : e.escape < 2 ^ 24)
    (hslot : ∀ j ∈ e.slot, j < 2 ^ 24) : readNode blk i = some e := by
  have hbase : u32 (8 + u32 (i * 9)) = A.length := by
    simp only [u32]
    omega
  have hword : ∀ k < 9, blk[A.length + k]? = (entryWords e)[k]? := fun k hk => by
    rw [hblk, List.append_assoc, List.getElem?_append_right (by omega), Nat.add_sub_cancel_left,
      List.getElem?_append_left (by rwa [length_entryWords])]
  have hread : ∀ k < 9, ∀ n < 2 ^ 24, (entryWords e)[k]? = some (.ofU32 n) →
      ∃ w, blk[A.length + k]? = some w ∧ w.toU32 = some n := fun k hk n hn hw =>
    ⟨_, (hword k hk).trans hw, toU32_ofU32 hn⟩
  have hfirst : e.slot.getD 0 < 2 ^ 24 := by
    cases hs : e.slot with
    | none => exact Nat.two_pow_pos _
    | some j => exact hslot j hs
  obtain ⟨w₄, h4, hw₄⟩ : ∃ w, blk[4]? = some w ∧ w.toU32 = some 8 :=
    ⟨_, hoff, toU32_ofU32 (by decide)⟩
  obtain ⟨w₆, h6, hw₆⟩ := hread 6 (by decide) e.escape hesc rfl
  obtain ⟨w₇, h7, hw₇⟩ := hread 7 (by decide) (e.slot.getD 0) hfirst rfl
  obtain ⟨w₈, h8, hw₈⟩ := hread 8 (by decide) (if e.slot.isSome then 1 else 0)
    (by split <;> decide) rfl
  have hmin : readVec blk A.length = some e.label.bmin :=
    readVec_eq (hword 0 (by decide)) (hword 1 (by decide)) (hword 2 (by decide))
  have hmax : readVec blk (A.length + 3) = some e.label.bmax :=
    readVec_eq (hword 3 (by decide)) (hword 4 (by decide)) (hword 5 (by decide))
  simp only [readNode, h4, hw₄, Option.bind_eq_bind, Option.bind_some, nodeWords, hbase, h6, hw₆,
    h7, hw₇, h8, hw₈, hmin, hmax]
  obtain ⟨box, escape, slot⟩ := e
  cases slot <;> rfl

/-! ## The layout is faithful -/

section
variable {t : Tree (Box F) Nat} {primData : List (Word F)}

theorem getElem?_layout_header (h : i < 8) :
    (layout count flags t primData)[i]? = (headerFields count flags)[i]?.map .ofU32 := by
  have hlen : (headerFields count flags).length = 8 := rfl
  rw [layout, List.append_assoc, List.append_assoc, List.getElem?_append_left, List.getElem?_map]
  rwa [List.length_map, hlen]

theorem length_layout (hsize : t.size + 1 = 2 * count) (hitems : t.items.length = count) :
    (layout count flags t primData).length = 19 * count - 1 + primData.length := by
  simp only [layout, List.length_append, List.length_map, length_flatMap_entryWords,
    Tree.length_thread, hitems]
  have hlen : (headerFields count flags).length = 8 := rfl
  omega

theorem readNode_layout (hsize : t.size + 1 = 2 * count) (hitems : t.items.length = count)
    (hcount : 18 * count ≤ 2 ^ 24) (h : (t.thread 0 0)[i]? = some e) :
    readNode (layout count flags t primData) i = some e := by
  have hi : i < t.size := by
    rw [← t.length_thread (i := 0) (s := 0)]
    exact (List.getElem?_eq_some_iff.mp h).1
  obtain ⟨hesc, hslot⟩ := Tree.thread_bounds (List.mem_of_getElem? h)
  have hlen : (headerFields count flags).length = 8 := rfl
  have hsplit : t.thread 0 0 = (t.thread 0 0).take i ++ e :: (t.thread 0 0).drop (i + 1) := by
    obtain ⟨hlt, rfl⟩ := List.getElem?_eq_some_iff.mp h
    rw [List.getElem_cons_drop, List.take_append_drop]
  refine readNode_append (A := (headerFields count flags).map .ofU32 ++
      ((t.thread 0 0).take i).flatMap entryWords)
    (C := ((t.thread 0 0).drop (i + 1)).flatMap entryWords ++ t.items.map .ofU32 ++ primData)
    (getElem?_layout_header (by decide)) ?_ ?_ (by omega) (by omega)
    (fun j hj => by have := hslot j hj; omega)
  · conv_lhs => rw [layout, hsplit]
    simp only [List.flatMap_append, List.flatMap_cons, List.append_assoc]
  · rw [List.length_append, List.length_map, hlen, length_flatMap_entryWords, List.length_take,
      Tree.length_thread]
    omega

theorem readPrim_layout (hsize : t.size + 1 = 2 * count) (hitems : t.items.length = count)
    (hcount : 18 * count ≤ 2 ^ 24) (hrange : ∀ a ∈ t.items, a < count)
    (h : t.items[j]? = some a) : readPrim (layout count flags t primData) j = some a := by
  have hj : j < count := by
    rw [← hitems]
    exact (List.getElem?_eq_some_iff.mp h).1
  have ha := hrange a (List.mem_of_getElem? h)
  have hoff : (layout count flags t primData)[5]? = some (.ofU32 (18 * count - 1)) :=
    getElem?_layout_header (by decide)
  have hoff' : (Word.ofU32 (18 * count - 1) : Word F).toU32 = some (18 * count - 1) :=
    toU32_ofU32 (by omega)
  have haddr : u32 (18 * count - 1 + j) = 18 * count - 1 + j := Nat.mod_eq_of_lt (by omega)
  have hlen : ((headerFields count flags).map .ofU32 ++
      (t.thread 0 0).flatMap entryWords : List (Word F)).length = 18 * count - 1 := by
    have hhead : (headerFields count flags).length = 8 := rfl
    rw [List.length_append, List.length_map, hhead, length_flatMap_entryWords, Tree.length_thread]
    omega
  have hword : (layout count flags t primData)[18 * count - 1 + j]? = some (.ofU32 a) := by
    rw [layout, List.append_assoc, ← hlen, List.getElem?_append_right (by omega),
      Nat.add_sub_cancel_left, List.getElem?_append_left (by rw [List.length_map]; omega),
      List.getElem?_map, h]
    rfl
  simp only [readPrim, hoff, hoff', haddr, hword, Option.bind_eq_bind, Option.bind_some]
  exact toU32_ofU32 (by omega)

theorem walk_eq_of_reads {blk : List (Word F)} {es : List (Entry (Box F))}
    (hcount : blk[1]? = some (.ofU32 es.length)) (hlt : es.length < 2 ^ 24)
    (hreads : ∀ i e, es[i]? = some e → readNode blk i = some e)
    (descends : Entry (Box F) → Bool) (fuel i : Nat) :
    walk descends blk fuel i = Threaded.walk descends es fuel i := by
  induction fuel generalizing i with
  | zero =>
    simp only [walk, Threaded.walk, hcount, toU32_ofU32 hlt, Option.bind_eq_bind, Option.bind_some]
    rfl
  | succ fuel ih =>
    simp only [walk, hcount, toU32_ofU32 hlt, Option.bind_eq_bind, Option.bind_some]
    split
    · next hi =>
      obtain ⟨e, he⟩ : ∃ e, es[i]? = some e := ⟨_, List.getElem?_eq_getElem hi⟩
      have hnext : u32 (i + 1) = i + 1 := Nat.mod_eq_of_lt (by omega)
      rw [hreads i e he, Option.bind_some, walk_succ he, ih, hnext]
    · next hi => exact (walk_of_length_le (Nat.not_lt.mp hi)).symm

theorem cajBvhBlockWords_layout (hsize : t.size + 1 = 2 * count) (hitems : t.items.length = count)
    (hcount : 18 * count ≤ 2 ^ 24)
    (hflags : flags = flagAabbs ∧ primData.length = 0 ∨
      flags = flagTriangles ∧ primData.length = 9 * count) :
    cajBvhBlockWords (layout count flags t primData) =
      some (layout count flags t primData).length := by
  have hpos : 0 < count := hitems ▸ t.items_length_pos
  have h2 : (layout count flags t primData)[2]? = some (.ofU32 count) :=
    getElem?_layout_header (by decide)
  have h5 : (layout count flags t primData)[5]? = some (.ofU32 (18 * count - 1)) :=
    getElem?_layout_header (by decide)
  have h6 : (layout count flags t primData)[6]? = some (.ofU32 flags) :=
    getElem?_layout_header (by decide)
  have h2' : (Word.ofU32 count : Word F).toU32 = some count := toU32_ofU32 (by omega)
  have h5' : (Word.ofU32 (18 * count - 1) : Word F).toU32 = some (18 * count - 1) :=
    toU32_ofU32 (by omega)
  have h6' : (Word.ofU32 flags : Word F).toU32 = some flags :=
    toU32_ofU32 (by rcases hflags with ⟨rfl, -⟩ | ⟨rfl, -⟩ <;> decide)
  have hwords : u32 (18 * count - 1 + count) = 19 * count - 1 := by
    rw [u32, Nat.mod_eq_of_lt (by omega)]
    omega
  rw [length_layout hsize hitems]
  simp only [cajBvhBlockWords, h2, h5, h6, h2', h5', h6', Option.bind_eq_bind, Option.bind_some,
    hwords, triWords]
  rcases hflags with ⟨rfl, hdata⟩ | ⟨rfl, hdata⟩
  · rw [hdata]
    rfl
  · have hall : u32 (19 * count - 1 + count * 9) = 19 * count - 1 + 9 * count := by
      rw [u32, Nat.mod_eq_of_lt (by omega)]
      omega
    rw [hdata, hall]
    rfl

theorem header_layout (hcount : 18 * count ≤ 2 ^ 24) (hflags : flags < 2 ^ 24) :
    ((layout count flags t primData).take 8).map Word.toU32 =
      (headerFields count flags).map some := by
  have hlen : ((headerFields count flags).map .ofU32 : List (Word F)).length = 8 := rfl
  have htake : (layout count flags t primData).take 8 = (headerFields count flags).map .ofU32 := by
    rw [layout, List.append_assoc, List.append_assoc, List.take_left' hlen]
  rw [htake, List.map_map]
  refine List.map_congr_left fun n hn => toU32_ofU32 ?_
  simp only [headerFields, List.mem_cons, List.not_mem_nil, or_false, version, hdrWords,
    nodeWords] at hn
  omega

theorem faithful_layout [LinearOrder F] {box : Nat → Box F}
    (hitems : t.items.Perm (List.range count))
    (hencloses : t.Encloses Box.Inside box) (hcount : 18 * count ≤ 2 ^ 24)
    (hflags : flags = flagAabbs ∧ primData.length = 0 ∨
      flags = flagTriangles ∧ primData.length = 9 * count) :
    Faithful count flags box primData (layout count flags t primData) := by
  have hlen : t.items.length = count := by rw [hitems.length_eq, List.length_range]
  have hsize : t.size + 1 = 2 * count := hlen ▸ t.size_eq
  have hpos : 0 < count := hlen ▸ t.items_length_pos
  have hsmall : flags < 2 ^ 24 := by rcases hflags with ⟨rfl, -⟩ | ⟨rfl, -⟩ <;> decide
  refine ⟨header_layout hcount hsmall, cajBvhBlockWords_layout hsize hlen hcount hflags, ?_, t,
    by omega, hitems, hencloses, fun i e => readNode_layout hsize hlen hcount,
    fun j a => readPrim_layout hsize hlen hcount fun a ha => List.mem_range.mp (hitems.subset ha),
    fun hit descends hdesc fuel hfuel => ?_⟩
  · have hbefore : ((headerFields count flags).map .ofU32 ++ (t.thread 0 0).flatMap entryWords ++
        t.items.map .ofU32 : List (Word F)).length = 19 * count - 1 := by
      have hhead : (headerFields count flags).length = 8 := rfl
      simp only [List.length_append, List.length_map, hhead, length_flatMap_entryWords,
        Tree.length_thread]
      omega
    rw [layout, ← hbefore, List.drop_left]
  · have hnodes : (t.thread 0 0).length = 2 * count - 1 := by
      rw [Tree.length_thread]
      omega
    have hfield : (layout count flags t primData)[1]? = some (.ofU32 (t.thread 0 0).length) := by
      rw [hnodes]
      exact getElem?_layout_header (by decide)
    rw [walk_eq_of_reads hfield (by omega) (fun i e => readNode_layout hsize hlen hcount)]
    exact walk_thread hdesc t hfuel

end

section
variable [LinearOrder F] {host : Host F} {box : Nat → Box F} {prims : List (Prim F)}

theorem nodeCountOf_eq (hpos : 0 < count) (h : 2 * count < 2 ^ 32) :
    nodeCountOf count = 2 * count - 1 := by
  simp only [nodeCountOf, u32]
  omega

theorem primRefOffOf_eq (hpos : 0 < count) (h : 18 * count ≤ 2 ^ 32) :
    primRefOffOf count = 18 * count - 1 := by
  rw [primRefOffOf, nodeCountOf_eq hpos (by omega), hdrWords, nodeWords, u32,
    Nat.mod_eq_of_lt (by omega)]
  omega

/-- Where no index wraps, the block is the layout of a tree over the primitives. -/
theorem buildBlock_eq {primData : List (Word F)} (hlen : prims.length = count) (hpos : 0 < count)
    (hcount : 18 * count ≤ 2 ^ 32) (hbox : ∀ p ∈ prims, box p.orig = p.box)
    (horig : prims.map Prim.orig = List.range count) :
    ∃ t : Tree (Box F) Nat, t.items.Perm (List.range count) ∧ t.Encloses Box.Inside box ∧
      buildBlock host prims count flags (zeros (19 * count - 1) ++ primData) =
        some (layout count flags t primData) := by
  obtain ⟨t, prims', ht, hwrites⟩ := @exists_subtree _ _ host hdrWords (18 * count - 1) _ prims
    (by omega) hbox
  have hitems : t.items.length = count := ht.length_items.trans hlen
  have hsize : t.size + 1 = 2 * count := hitems ▸ t.size_eq
  refine ⟨t, ?_, ht.encloses, ?_⟩
  · rw [ht.items, ← horig]
    exact ht.perm.map _
  have hzeros : zeros (19 * count - 1) = (zeros 8 ++ zeros (t.size * 9) ++ zeros count :
      List (Word F)) := by
    simp only [zeros, ← List.replicate_add]
    congr 1
    omega
  have hbuild := hwrites [] [] (zeros 8) (zeros (t.size * 9)) [] (zeros count) primData 0 0
    (by simp [zeros, hdrWords]) (by simp [zeros]) (by simp [zeros]; omega) (by simp [zeros, hlen])
    (by omega) (by omega)
  have hwrite := writeFrom_append [] (zeros 8) ((t.thread 0 0).flatMap entryWords ++
    t.items.map .ofU32 ++ primData) ((headerFields count flags).map .ofU32) rfl
  simp only [List.nil_append, List.append_nil, List.length_nil, Nat.zero_add, hlen,
    List.append_assoc] at hbuild hwrite
  have hnodes : t.size = 2 * count - 1 := by omega
  rw [buildBlock, primRefOffOf_eq hpos hcount, hzeros]
  simp only [List.append_assoc, hbuild, Option.bind_eq_bind, Option.bind_some]
  rw [layout, hnodes]
  simpa only [List.append_assoc, headerFields, List.map_cons, List.map_nil] using hwrite

theorem header_of_buildBlock {blk₀ blk : List (Word F)}
    (h : buildBlock host prims count flags blk₀ = some blk)
    (hheader : (blk.take 8).map Word.toU32 = (headerFields count flags).map some) :
    count ≤ 932067 := by
  simp only [buildBlock, Option.bind_eq_bind, Option.bind_eq_some_iff] at h
  obtain ⟨⟨i, s⟩, -, hwrite⟩ := h
  have hword : blk[5]? = some (.ofU32 (primRefOffOf count)) := by
    simpa using writeFrom_eq_some hwrite 5 (by simp)
  have hfield : ((blk.take 8).map Word.toU32)[5]? = some (some (18 * count - 1)) := by
    rw [hheader]
    rfl
  rw [List.getElem?_map, List.getElem?_take_of_lt (by decide), hword, Option.map_some,
    Option.some.injEq, Word.ofU32, Word.toU32] at hfield
  split at hfield
  · rw [Option.some.injEq] at hfield
    by_contra hlt
    rcases Nat.lt_or_ge (primRefOffOf count) (2 ^ 24) with hsmall | hlarge
    · rw [Rounding.round_of_lt hsmall] at hfield
      omega
    · have heven := Rounding.even_round hlarge
      rw [hfield] at heven
      omega
  · cases hfield

end

end Cajeta.Xpu.Bvh
