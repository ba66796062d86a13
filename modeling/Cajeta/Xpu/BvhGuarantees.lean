import Cajeta.Xpu.BvhBuild
import Mathlib.Algebra.Ring.Int.Defs

/-!
# What the builders return

Up to 932067 primitives the block is a faithful threaded tree. Beyond that the offset of the
references is an odd integer of more than 24 bits, and its header field holds another one.
-/

namespace Cajeta.Xpu.Bvh

open Slots Threaded

variable {F : Type} [LinearOrder F] {host : Host F} {prims : List (Prim F)} {count flags : Nat}

/-! ## Boxes -/

/-- The box `i` of an array of boxes. -/
def aabb (host : Host F) (boxes : List F) (i : Nat) : Box F where
  bmin k := boxes.getD (i * 6 + k) host.zero
  bmax k := boxes.getD (i * 6 + (3 + k)) host.zero

omit [LinearOrder F] in
theorem boxPrim_eq_some {boxes : List F} (h : boxPrim host boxes i = some p) :
    p.orig = i ∧ aabb host boxes p.orig = p.box := by
  simp only [boxPrim, Option.bind_eq_bind, Option.bind_eq_some_iff] at h
  obtain ⟨b, hb, heq⟩ := h
  cases heq
  refine ⟨rfl, Box.mk.injEq .. ▸ ⟨funext fun k => ?_, funext fun k => ?_⟩⟩
  · exact (getD_of_readFrom hb (by omega) _).symm
  · exact (getD_of_readFrom hb (by omega) _).symm

omit [LinearOrder F] in
theorem prims_of_boxes {boxes : List F}
    (h : (List.range count).mapM (boxPrim host boxes) = some prims) :
    prims.length = count ∧ prims.map Prim.orig = List.range count ∧
      ∀ p ∈ prims, aabb host boxes p.orig = p.box := by
  obtain ⟨hlen, hget⟩ := mapM_eq_some h
  rw [List.length_range] at hlen
  have hprim : ∀ (i : Nat) p, prims[i]? = some p → boxPrim host boxes i = some p := by
    intro i p hp
    have hi := (List.getElem?_eq_some_iff.mp hp).1
    rwa [hget, List.getElem?_range (hlen ▸ hi), Option.bind_some] at hp
  refine ⟨hlen, List.ext_getElem? fun i => ?_, fun p hp => ?_⟩
  · rw [List.getElem?_map]
    cases hp : prims[i]? with
    | none =>
      rw [List.getElem?_eq_none_iff] at hp
      rw [List.getElem?_eq_none (by rw [List.length_range]; omega)]
      rfl
    | some p =>
      have hi := (List.getElem?_eq_some_iff.mp hp).1
      rw [List.getElem?_range (hlen ▸ hi), Option.map_some, (boxPrim_eq_some (hprim i p hp)).1]
  · obtain ⟨i, hi⟩ := List.mem_iff_getElem?.mp hp
    exact (boxPrim_eq_some (hprim i p hi)).2

theorem cpuAccelBuildAabbs_eq_some {boxes : List F} {blk : List (Word F)}
    (h : cpuAccelBuildAabbs host (some boxes) count = some (some blk)) :
    0 < count ∧ ∃ prims, (List.range count).mapM (boxPrim host boxes) = some prims ∧
      buildBlock host prims count flagAabbs
        (zeros (hdrWords + nodeCountOf count * nodeWords + count)) = some blk := by
  simp only [cpuAccelBuildAabbs] at h
  split at h
  · cases h
  · next hne =>
    split at h
    · cases h
    · simp only [Option.bind_eq_bind, Option.bind_eq_some_iff, Option.map_eq_map,
        Option.map_eq_some_iff, Option.some.injEq, exists_eq_right] at h
      exact ⟨Nat.pos_of_ne_zero hne, h⟩

theorem buildBlock_aabbs_eq {boxes : List F} (hpos : 0 < count) (hcount : 18 * count ≤ 2 ^ 32)
    (hprims : (List.range count).mapM (boxPrim host boxes) = some prims) :
    ∃ t : Tree (Box F) Nat, t.items.Perm (List.range count) ∧
      t.Encloses Box.Inside (aabb host boxes) ∧
      buildBlock host prims count flagAabbs
          (zeros (hdrWords + nodeCountOf count * nodeWords + count)) =
        some (layout count flagAabbs t []) := by
  obtain ⟨hlen, horig, hbox⟩ := prims_of_boxes hprims
  obtain ⟨t, hitems, hencloses, hbuild⟩ := @buildBlock_eq _ _ flagAabbs _ host _ prims []
    hlen hpos hcount hbox horig
  have hwords : hdrWords + nodeCountOf count * nodeWords + count = 19 * count - 1 := by
    rw [nodeCountOf_eq hpos (by omega), hdrWords, nodeWords]
    omega
  rw [List.append_nil] at hbuild
  exact ⟨t, hitems, hencloses, hwords ▸ hbuild⟩

theorem faithful_of_aabbs {boxes : List F} {blk : List (Word F)}
    (h : cpuAccelBuildAabbs host (some boxes) count = some (some blk)) (hcount : count ≤ 932067) :
    Faithful count flagAabbs (aabb host boxes) [] blk := by
  obtain ⟨hpos, prims, hprims, hblk⟩ := cpuAccelBuildAabbs_eq_some h
  obtain ⟨t, hitems, hencloses, hbuild⟩ := buildBlock_aabbs_eq hpos (by omega) hprims
  rw [hbuild, Option.some.injEq] at hblk
  subst hblk
  exact faithful_layout hitems hencloses (by omega) (.inl ⟨rfl, rfl⟩)

theorem exists_cpuAccelBuildAabbs {boxes : List F} (hcalloc : ∀ n, host.calloc n)
    (hmalloc : ∀ n, host.malloc n) (hpos : 0 < count) (hcount : 18 * count ≤ 2 ^ 32)
    (hboxes : count * 6 ≤ boxes.length) :
    ∃ blk, cpuAccelBuildAabbs host (some boxes) count = some (some blk) := by
  obtain ⟨prims, hprims⟩ : ∃ prims, (List.range count).mapM (boxPrim host boxes) = some prims := by
    refine exists_mapM fun i hi => ?_
    have hlt := List.mem_range.mp hi
    obtain ⟨b, hb⟩ := @exists_readFrom _ (i * 6) 6 boxes (by omega)
    simp [boxPrim, hb]
  obtain ⟨t, -, -, hbuild⟩ := buildBlock_aabbs_eq hpos hcount hprims
  refine ⟨layout count flagAabbs t [], ?_⟩
  simp only [cpuAccelBuildAabbs, if_neg (Nat.ne_of_gt hpos), hcalloc, hmalloc, hprims,
    Option.bind_eq_bind, Option.bind_some, hbuild]
  rfl

/-! ## Triangles -/

/-- The vertex `v` of the triangle `t` of a soup. -/
def soupVertex (host : Host F) (verts : List F) (stride t v : Nat) : Vec F :=
  fun k => verts.getD ((t * 3 + v) * stride + k) host.zero

/-- The least box around the triangle `t`. -/
def soupBox (host : Host F) (verts : List F) (stride t : Nat) : Box F where
  bmin k := min (min (soupVertex host verts stride t 0 k) (soupVertex host verts stride t 1 k))
    (soupVertex host verts stride t 2 k)
  bmax k := max (max (soupVertex host verts stride t 0 k) (soupVertex host verts stride t 1 k))
    (soupVertex host verts stride t 2 k)

/-- The words of the vertices of the triangle `t`. -/
def soupWords (host : Host F) (verts : List F) (stride t : Nat) : List (Word F) :=
  (soupVertex host verts stride t 0).words ++ (soupVertex host verts stride t 1).words ++
    (soupVertex host verts stride t 2).words

theorem ite_lt_eq_min (a b : F) : (if a < b then a else b) = min a b := by
  split
  · next h => exact (min_eq_left h.le).symm
  · next h => exact (min_eq_right (not_lt.mp h)).symm

theorem ite_gt_eq_max (a b : F) : (if b < a then a else b) = max a b := by
  split
  · next h => exact (max_eq_left h.le).symm
  · next h => exact (max_eq_right (not_lt.mp h)).symm

theorem triangleBox_soupVertex (verts : List F) (stride t : Nat) :
    triangleBox (soupVertex host verts stride t 0) (soupVertex host verts stride t 1)
      (soupVertex host verts stride t 2) = soupBox host verts stride t := by
  simp only [triangleBox, soupBox, ite_lt_eq_min, ite_gt_eq_max]

omit [LinearOrder F] in
theorem vertex_eq_some {verts : List F} (ht : t * 3 + v < 2 ^ 32)
    (h : vertex host verts stride t v = some p) : p = soupVertex host verts stride t v := by
  simp only [vertex, Option.bind_eq_bind, Option.bind_eq_some_iff] at h
  obtain ⟨ys, hys, heq⟩ := h
  cases heq
  have haddr : u32 (u32 (t * 3) + v) = t * 3 + v := by
    simp only [u32]
    omega
  rw [haddr] at hys
  exact funext fun k => getD_of_readFrom hys (by omega) _

omit [LinearOrder F] in
theorem exists_vertex {verts : List F} (ht : t * 3 + v < 2 ^ 32)
    (h : (t * 3 + v) * stride + 3 ≤ verts.length) :
    ∃ p, vertex host verts stride t v = some p := by
  have haddr : u32 (u32 (t * 3) + v) = t * 3 + v := by
    simp only [u32]
    omega
  obtain ⟨ys, hys⟩ := exists_readFrom h
  simp [vertex, haddr, hys]

def soupPrim (host : Host F) (verts : List F) (stride t : Nat) : Prim F where
  c k := host.centroid (soupVertex host verts stride t 0 k) (soupVertex host verts stride t 1 k)
    (soupVertex host verts stride t 2 k)
  box := soupBox host verts stride t
  orig := t

theorem exists_vertex_of_trianglePrims {verts : List F} {blk : List (Word F)}
    (h : trianglePrims host verts stride off t prims blk rem = some r) :
    ∀ j v, t ≤ j → j < t + rem → v < 3 → ∃ p, vertex host verts stride j v = some p := by
  induction rem generalizing t prims blk with
  | zero =>
    intro j v hle hlt
    omega
  | succ rem ih =>
    simp only [trianglePrims, Option.bind_eq_bind, Option.bind_eq_some_iff] at h
    obtain ⟨v₀, h₀, v₁, h₁, v₂, h₂, blk', -, hrest⟩ := h
    intro j v hle hlt hv
    rcases Nat.eq_or_lt_of_le hle with rfl | hle
    · match v with
      | 0 => exact ⟨v₀, h₀⟩
      | 1 => exact ⟨v₁, h₁⟩
      | 2 => exact ⟨v₂, h₂⟩
    · exact ih hrest j v hle (by omega) hv

theorem trianglePrims_eq {verts : List F} {A X C : List (Word F)}
    (hread : ∀ j v, t ≤ j → j < t + rem → v < 3 → ∃ p, vertex host verts stride j v = some p)
    (hlt : (t + rem) * 3 < 2 ^ 32) (hA : A.length = off + t * 9) (hX : X.length = rem * 9) :
    trianglePrims host verts stride off t prims (A ++ X ++ C) rem =
      some (prims ++ (List.range' t rem).map (soupPrim host verts stride),
        A ++ (List.range' t rem).flatMap (soupWords host verts stride) ++ C) := by
  induction rem generalizing t prims A X with
  | zero =>
    obtain rfl := List.length_eq_zero_iff.mp (hX.trans (Nat.zero_mul _))
    simp [trianglePrims]
  | succ rem ih =>
    have hvertex : ∀ v < 3, vertex host verts stride t v =
        some (soupVertex host verts stride t v) := fun v hv => by
      obtain ⟨p, hp⟩ := hread t v (Nat.le_refl _) (by omega) hv
      rw [hp, vertex_eq_some (by omega) hp]
    obtain ⟨X₁, X₂, rfl, hX₁⟩ : ∃ X₁ X₂, X = X₁ ++ X₂ ∧ X₁.length = 9 :=
      ⟨X.take 9, X.drop 9, (List.take_append_drop ..).symm, by rw [List.length_take]; omega⟩
    rw [List.length_append] at hX
    have hwrite := writeFrom_append A X₁ (X₂ ++ C) (soupWords host verts stride t) hX₁
    have hrest := @ih (prims ++ [soupPrim host verts stride t]) (t + 1)
      (A ++ soupWords host verts stride t) X₂ (fun j v hle hj => hread j v (by omega) (by omega))
      (by omega) (by rw [List.length_append, hA]; change _ + 9 = _; omega) (by omega)
    simp only [List.append_assoc] at hwrite hrest
    rw [hA, soupWords, List.append_assoc] at hwrite
    simp only [trianglePrims, hvertex 0 (by decide), hvertex 1 (by decide), hvertex 2 (by decide),
      Option.bind_eq_bind, Option.bind_some, triWords, List.append_assoc, hwrite,
      triangleBox_soupVertex]
    rw [soupWords, soupPrim] at hrest
    simp only [List.append_assoc] at hrest
    rw [hrest]
    simp [List.range'_succ, soupWords, soupPrim]

theorem cpuAccelBuildTriangles_eq_some {verts : List F} {blk : List (Word F)}
    (h : cpuAccelBuildTriangles host (some verts) count stride = some (some blk)) :
    0 < count ∧ ∃ prims blk₀,
      trianglePrims host verts stride (u32 (primRefOffOf count + count)) 0 []
        (zeros (hdrWords + nodeCountOf count * nodeWords + count + count * triWords)) count =
          some (prims, blk₀) ∧
      buildBlock host prims count flagTriangles blk₀ = some blk := by
  simp only [cpuAccelBuildTriangles] at h
  split at h
  · cases h
  · next hne =>
    split at h
    · cases h
    · simp only [Option.bind_eq_bind, Option.bind_eq_some_iff, Option.map_eq_map,
        Option.map_eq_some_iff, Option.some.injEq, exists_eq_right, Prod.exists] at h
      have hpos : count ≠ 0 := fun heq => hne (by simp [heq])
      exact ⟨Nat.pos_of_ne_zero hpos, h⟩

theorem trianglePrims_all {verts : List F} (hpos : 0 < count) (hcount : 28 * count ≤ 2 ^ 32)
    (hread : ∀ j v, 0 ≤ j → j < 0 + count → v < 3 → ∃ p, vertex host verts stride j v = some p) :
    trianglePrims host verts stride (u32 (primRefOffOf count + count)) 0 []
        (zeros (hdrWords + nodeCountOf count * nodeWords + count + count * triWords)) count =
      some ((List.range count).map (soupPrim host verts stride),
        zeros (19 * count - 1) ++ (List.range count).flatMap (soupWords host verts stride)) := by
  have hoff : u32 (primRefOffOf count + count) = 19 * count - 1 := by
    rw [primRefOffOf_eq hpos (by omega), u32, Nat.mod_eq_of_lt (by omega)]
    omega
  have hwords : (zeros (hdrWords + nodeCountOf count * nodeWords + count + count * triWords) :
      List (Word F)) = zeros (19 * count - 1) ++ zeros (count * 9) ++ [] := by
    rw [nodeCountOf_eq hpos (by omega), List.append_nil, hdrWords, nodeWords, triWords]
    simp only [zeros, ← List.replicate_add]
    congr 1
    omega
  rw [hwords, hoff, trianglePrims_eq hread (by omega) (by simp [zeros]) (by simp [zeros]),
    ← List.range_eq_range']
  simp

theorem buildBlock_triangles_eq {verts : List F} (hpos : 0 < count)
    (hcount : 18 * count ≤ 2 ^ 32) :
    ∃ t : Tree (Box F) Nat, t.items.Perm (List.range count) ∧
      t.Encloses Box.Inside (soupBox host verts stride) ∧
      buildBlock host ((List.range count).map (soupPrim host verts stride)) count flagTriangles
          (zeros (19 * count - 1) ++ (List.range count).flatMap (soupWords host verts stride)) =
        some (layout count flagTriangles t
          ((List.range count).flatMap (soupWords host verts stride))) := by
  refine buildBlock_eq (by simp) hpos hcount (fun p hp => ?_) ?_
  · obtain ⟨t, -, rfl⟩ := List.mem_map.mp hp
    rfl
  · rw [List.map_map]
    exact List.map_id _

omit [LinearOrder F] in
theorem length_flatMap_soupWords {verts : List F} (is : List Nat) :
    (is.flatMap (soupWords host verts stride)).length = 9 * is.length := by
  induction is with
  | nil => rfl
  | cons i is ih =>
    rw [List.flatMap_cons, List.length_append, ih, List.length_cons]
    change 9 + _ = _
    omega

theorem faithful_of_triangles {verts : List F} {blk : List (Word F)}
    (h : cpuAccelBuildTriangles host (some verts) count stride = some (some blk))
    (hcount : count ≤ 932067) :
    Faithful count flagTriangles (soupBox host verts stride)
      ((List.range count).flatMap (soupWords host verts stride)) blk := by
  obtain ⟨hpos, prims, blk₀, hprims, hblk⟩ := cpuAccelBuildTriangles_eq_some h
  have hread := exists_vertex_of_trianglePrims hprims
  rw [trianglePrims_all hpos (by omega) hread, Option.some.injEq, Prod.mk.injEq] at hprims
  obtain ⟨rfl, rfl⟩ := hprims
  obtain ⟨t, hitems, hencloses, hbuild⟩ :=
    @buildBlock_triangles_eq _ _ host _ stride verts hpos (by omega)
  rw [hbuild, Option.some.injEq] at hblk
  subst hblk
  refine faithful_layout hitems hencloses (by omega) (.inr ⟨rfl, ?_⟩)
  rw [length_flatMap_soupWords, List.length_range]

theorem exists_cpuAccelBuildTriangles {verts : List F} (hcalloc : ∀ n, host.calloc n)
    (hmalloc : ∀ n, host.malloc n) (hpos : 0 < count) (hcount : 28 * count ≤ 2 ^ 32)
    (hstride : 3 ≤ stride) (hverts : count * 3 * stride ≤ verts.length) :
    ∃ blk, cpuAccelBuildTriangles host (some verts) count stride = some (some blk) := by
  have hread : ∀ j v, 0 ≤ j → j < 0 + count → v < 3 →
      ∃ p, vertex host verts stride j v = some p := fun j v _ hj hv => by
    refine exists_vertex (by omega) ?_
    have hle : (j * 3 + v + 1) * stride ≤ count * 3 * stride :=
      Nat.mul_le_mul_right _ (by omega)
    rw [Nat.add_mul, Nat.one_mul] at hle
    omega
  obtain ⟨t, -, -, hbuild⟩ := @buildBlock_triangles_eq _ _ host _ stride verts hpos (by omega)
  refine ⟨layout count flagTriangles t
    ((List.range count).flatMap (soupWords host verts stride)), ?_⟩
  have hne : ¬ (decide (count = 0) || decide (stride < 3)) = true := by
    simp only [Bool.or_eq_true, decide_eq_true_eq]
    omega
  simp only [cpuAccelBuildTriangles, if_neg hne, hcalloc, hmalloc,
    trianglePrims_all hpos hcount hread, Option.bind_eq_bind, Option.bind_some, hbuild]
  rfl

/-- A returned block is a faithful threaded tree exactly up to 932067 primitives. -/
theorem build_faithful_iff (host : Host F) :
    (∀ boxes count blk, cpuAccelBuildAabbs host (some boxes) count = some (some blk) →
      (Faithful count flagAabbs (aabb host boxes) [] blk ↔ count ≤ 932067)) ∧
    (∀ verts count stride blk,
      cpuAccelBuildTriangles host (some verts) count stride = some (some blk) →
      (Faithful count flagTriangles (soupBox host verts stride)
          ((List.range count).flatMap (soupWords host verts stride)) blk ↔ count ≤ 932067)) := by
  refine ⟨fun boxes count blk h => ⟨fun hf => ?_, faithful_of_aabbs h⟩,
    fun verts count stride blk h => ⟨fun hf => ?_, faithful_of_triangles h⟩⟩
  · obtain ⟨-, prims, -, hblk⟩ := cpuAccelBuildAabbs_eq_some h
    exact header_of_buildBlock hblk hf.header
  · obtain ⟨-, prims, blk₀, -, hblk⟩ := cpuAccelBuildTriangles_eq_some h
    exact header_of_buildBlock hblk hf.header

/-- Integer coordinates, with a merge sort and memory for everything. -/
def intHost : Host Int where
  sub := (· - ·)
  centre a b := (a + b) / 2
  centroid a b c := (a + b + c) / 3
  zero := 0
  far := 10 ^ 30
  negFar := -10 ^ 30
  qsort cmp xs := xs.mergeSort fun a b => cmp a b ≤ 0
  qsort_perm _ xs := xs.mergeSort_perm _
  calloc _ := true
  malloc _ := true

/-- Six boxes, two of them the same, in no order of their centres. -/
def sixBoxes : List Int :=
  [0, 0, 0, 1, 1, 1] ++ [8, 0, 0, 9, 1, 1] ++ [2, 5, 0, 4, 6, 3] ++ [0, 0, 0, 1, 1, 1] ++
    [-7, 2, 2, -5, 3, 3] ++ [4, 4, -9, 6, 6, -8]

/-- Two triangles with a shared corner; each corner has a fourth word. -/
def twoTriangles : List Int :=
  [0, 0, 0, 1] ++ [3, 0, 0, 1] ++ [0, 3, 0, 1] ++ [3, 0, 0, 2] ++ [3, 3, 5, 2] ++ [0, 3, 5, 2]

theorem build_faithful_iff_sample :
    (∃ blk, cpuAccelBuildAabbs intHost (some sixBoxes) 6 = some (some blk) ∧
      (Faithful 6 flagAabbs (aabb intHost sixBoxes) [] blk ↔ 6 ≤ 932067)) ∧
    ∃ blk, cpuAccelBuildTriangles intHost (some twoTriangles) 2 4 = some (some blk) ∧
      (Faithful 2 flagTriangles (soupBox intHost twoTriangles 4)
        ((List.range 2).flatMap (soupWords intHost twoTriangles 4)) blk ↔ 2 ≤ 932067) := by
  obtain ⟨blk, hblk⟩ := @exists_cpuAccelBuildAabbs _ _ intHost 6 sixBoxes (fun _ => rfl)
    (fun _ => rfl) (by decide) (by decide) (by decide)
  obtain ⟨blk', hblk'⟩ := @exists_cpuAccelBuildTriangles _ _ intHost 2 4 twoTriangles
    (fun _ => rfl) (fun _ => rfl) (by decide) (by decide) (by decide) (by decide)
  exact ⟨⟨blk, hblk, (build_faithful_iff intHost).1 _ _ _ hblk⟩,
    blk', hblk', (build_faithful_iff intHost).2 _ _ _ _ hblk'⟩

/-- With 932068 equal boxes the header does not hold the offset of the references. -/
theorem not_faithful_of_932068 :
    ¬ ∀ blk, cpuAccelBuildAabbs intHost (some (List.replicate 5592408 0)) 932068 =
        some (some blk) →
      Faithful 932068 flagAabbs (aabb intHost (List.replicate 5592408 0)) [] blk := by
  intro hall
  have hlen : 932068 * 6 ≤ (List.replicate 5592408 (0 : Int)).length := by
    rw [List.length_replicate]
  obtain ⟨blk, hblk⟩ := @exists_cpuAccelBuildAabbs _ _ intHost 932068 _ (fun _ => rfl)
    (fun _ => rfl) (by decide) (by decide) hlen
  obtain ⟨-, prims, -, hbuild⟩ := cpuAccelBuildAabbs_eq_some hblk
  exact absurd (header_of_buildBlock hbuild (hall blk hblk).header) (by decide)

end Cajeta.Xpu.Bvh
