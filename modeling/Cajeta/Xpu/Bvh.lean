import Cajeta.Lib.Rounding
import Cajeta.Lib.Slots
import Cajeta.Lib.Threaded
import Mathlib.Data.Fin.VecNotation
import Mathlib.Order.Defs.LinearOrder

/-!
# The software bounding-volume hierarchy

The builders of the portable BVH block, and the walk over it.

A block is an array of float32 words. A word is a coordinate, of any linear order, or a structural
integer, which is stored with 24 significant bits. Arithmetic on indices is in 32-bit unsigned
integers. A write or a read beyond the block has no result.
-/

namespace Cajeta.Xpu.Bvh

open Slots

inductive Word (F : Type) where
  | coord (x : F)
  | whole (n : Nat)

variable {F : Type}

/-- Stores an integer as a float32. -/
def Word.ofU32 (n : Nat) : Word F := .whole (Rounding.round 24 n)

/-- The cast back to `uint32`; a value out of range has none. -/
def Word.toU32 : Word F → Option Nat
  | .coord _ => none
  | .whole n => if n < 2 ^ 32 then some n else none

def Word.toCoord : Word F → Option F
  | .coord x => some x
  | .whole _ => none

abbrev Vec (F : Type) := Fin 3 → F

def Vec.words (v : Vec F) : List (Word F) := [.coord (v 0), .coord (v 1), .coord (v 2)]

structure Box (F : Type) where
  bmin : Vec F
  bmax : Vec F

structure Prim (F : Type) where
  c : Vec F
  box : Box F
  orig : Nat

/-- What the builders take from the C library and from floating-point arithmetic. -/
structure Host (F : Type) where
  sub : F → F → F
  /-- `0.5f * (a + b)` -/
  centre : F → F → F
  /-- `(a + b + c) * (1.0f / 3.0f)` -/
  centroid : F → F → F → F
  zero : F
  /-- `1e30f` -/
  far : F
  /-- `-1e30f` -/
  negFar : F
  qsort : (Prim F → Prim F → Int) → List (Prim F) → List (Prim F)
  qsort_perm : ∀ cmp xs, (qsort cmp xs).Perm xs
  /-- Whether an allocation of so many bytes succeeds. -/
  calloc : Nat → Bool
  malloc : Nat → Bool

def hdrWords : Nat := 8
def nodeWords : Nat := 9
def triWords : Nat := 9
def version : Nat := 1
def flagAabbs : Nat := 1
def flagTriangles : Nat := 2

/-- Arithmetic of `uint32_t`. -/
def u32 (n : Nat) : Nat := n % 2 ^ 32

variable [LinearOrder F]

/-- `caj_bvh_cmp_x`, `caj_bvh_cmp_y` and `caj_bvh_cmp_z`. -/
def cmp (host : Host F) (axis : Fin 3) (a b : Prim F) : Int :=
  let d := host.sub (a.c axis) (b.c axis)
  if d < host.zero then -1 else if host.zero < d then 1 else 0

/-- Lowers and raises the bounds to take in the values. -/
def grow (lo hi : F) (bmin bmax : F) : F × F :=
  (if lo < bmin then lo else bmin, if bmax < hi then hi else bmax)

def bounds (host : Host F) (prims : List (Prim F)) : Box F :=
  prims.foldl (fun b p =>
    ⟨fun k => (grow (p.box.bmin k) (p.box.bmax k) (b.bmin k) (b.bmax k)).1,
      fun k => (grow (p.box.bmin k) (p.box.bmax k) (b.bmin k) (b.bmax k)).2⟩)
    ⟨fun _ => host.far, fun _ => host.negFar⟩

/-- The bounds of the centroids of the primitives. -/
def centroidBounds (host : Host F) (prims : List (Prim F)) : Box F :=
  prims.foldl (fun b p =>
    ⟨fun k => (grow (p.c k) (p.c k) (b.bmin k) (b.bmax k)).1,
      fun k => (grow (p.c k) (p.c k) (b.bmin k) (b.bmax k)).2⟩)
    ⟨fun _ => host.far, fun _ => host.negFar⟩

def longestAxis (host : Host F) (b : Box F) : Fin 3 :=
  let extent (k : Fin 3) := host.sub (b.bmax k) (b.bmin k)
  if extent 0 < extent 1 then
    if extent 1 < extent 2 then 2 else 1
  else
    if extent 0 < extent 2 then 2 else 0

structure Build (F : Type) where
  prims : List (Prim F)
  blk : List (Word F)
  next : Nat
  pr : Nat

/-- Builds the subtree over `prims[lo..hi)`, with its nodes from the word `nodes` of the block on
and its references from `primRef` on; the first result is the index of its root. -/
def cajBvhBuild (host : Host F) (nodes primRef lo hi : Nat) (s : Build F) :
    Option (Nat × Build F) := do
  let idx := s.next
  let s := { s with next := u32 (s.next + 1) }
  let nd := nodes + idx * nodeWords
  let slice ← readFrom s.prims lo (hi - lo)
  let box := bounds host slice
  let s := { s with blk := ← writeFrom s.blk nd (Vec.words box.bmin ++ Vec.words box.bmax) }
  if hi - lo ≤ 1 then
    let first := s.pr
    let prim ← s.prims[lo]?
    let blk ← store s.blk (primRef + s.pr) (.ofU32 prim.orig)
    let blk ← store blk (nd + 7) (.ofU32 first)
    let blk ← store blk (nd + 8) (.ofU32 1)
    let blk ← store blk (nd + 6) (.ofU32 s.next)
    return (idx, { s with blk, pr := u32 (s.pr + 1) })
  else
    let axis := longestAxis host (centroidBounds host slice)
    let s := { s with prims := ← writeFrom s.prims lo (host.qsort (cmp host axis) slice) }
    let mid := lo + (hi - lo) / 2
    let (_, s) ← cajBvhBuild host nodes primRef lo mid s
    let (_, s) ← cajBvhBuild host nodes primRef mid hi s
    let blk ← store s.blk (nd + 7) (.ofU32 0)
    let blk ← store blk (nd + 8) (.ofU32 0)
    let blk ← store blk (nd + 6) (.ofU32 s.next)
    return (idx, { s with blk })
termination_by hi - lo

/-- The size of a block as its header tells it. -/
def cajBvhBlockWords (blk : List (Word F)) : Option Nat := do
  let primCount ← (← blk[2]?).toU32
  let flags ← (← blk[6]?).toU32
  let words := u32 ((← (← blk[5]?).toU32) + primCount)
  return if flags &&& flagTriangles ≠ 0 then u32 (words + primCount * triWords) else words

/-- The `count` is a `uint32_t`, so the result is too. -/
def nodeCountOf (count : Nat) : Nat := u32 (2 * count + (2 ^ 32 - 1))

def primRefOffOf (count : Nat) : Nat := u32 (hdrWords + nodeCountOf count * nodeWords)

/-- The header, the nodes over all primitives and the references, in a block with room for them. -/
def buildBlock (host : Host F) (prims : List (Prim F)) (count flags : Nat) (blk : List (Word F)) :
    Option (List (Word F)) := do
  let (_, s) ← cajBvhBuild host hdrWords (primRefOffOf count) 0 count ⟨prims, blk, 0, 0⟩
  writeFrom s.blk 0 [.ofU32 version, .ofU32 s.next, .ofU32 count, .ofU32 0, .ofU32 hdrWords,
    .ofU32 (primRefOffOf count), .ofU32 flags, .ofU32 nodeWords]

/-- The bytes of a `struct caj_bvh_prim`. -/
def primBytes : Nat := 40

def zeros (words : Nat) : List (Word F) := List.replicate words (.whole 0)

/-- The primitive `i` of an array of boxes. -/
def boxPrim (host : Host F) (boxes : List F) (i : Nat) : Option (Prim F) := do
  let b ← readFrom boxes (i * 6) 6
  let box : Box F := ⟨fun k => b.getD k host.zero, fun k => b.getD (3 + k) host.zero⟩
  return ⟨fun k => host.centre (box.bmin k) (box.bmax k), box, i⟩

/-- `cajeta_xpu_cpu_accel_build_aabbs`. The outer option is an access beyond an array, the inner one
the handle 0. -/
def cpuAccelBuildAabbs (host : Host F) (boxes : Option (List F)) (count : Nat) :
    Option (Option (List (Word F))) :=
  match boxes with
  | none => some none
  | some boxes =>
    if count = 0 then some none
    else
      let words := hdrWords + nodeCountOf count * nodeWords + count
      if !host.calloc (words * 4) || !host.malloc (count * primBytes) then some none
      else do
        let prims ← (List.range count).mapM (boxPrim host boxes)
        some <$> buildBlock host prims count flagAabbs (zeros words)

/-- The vertex `v` of the triangle `t`. -/
def vertex (host : Host F) (verts : List F) (stride t v : Nat) : Option (Vec F) := do
  let p ← readFrom verts (u32 (u32 (t * 3) + v) * stride) 3
  return fun k => p.getD k host.zero

def triangleBox (v₀ v₁ v₂ : Vec F) : Box F where
  bmin k :=
    let lo := if v₀ k < v₁ k then v₀ k else v₁ k
    if lo < v₂ k then lo else v₂ k
  bmax k :=
    let hi := if v₁ k < v₀ k then v₀ k else v₁ k
    if v₂ k < hi then hi else v₂ k

/-- The loop over the triangles from `t` on, which copies their vertices into the block. -/
def trianglePrims (host : Host F) (verts : List F) (stride primDataOff : Nat) (t : Nat)
    (prims : List (Prim F)) (blk : List (Word F)) :
    (rem : Nat) → Option (List (Prim F) × List (Word F))
  | 0 => some (prims, blk)
  | rem + 1 => do
    let v₀ ← vertex host verts stride t 0
    let v₁ ← vertex host verts stride t 1
    let v₂ ← vertex host verts stride t 2
    let prim := ⟨fun k => host.centroid (v₀ k) (v₁ k) (v₂ k), triangleBox v₀ v₁ v₂, t⟩
    let blk ← writeFrom blk (primDataOff + t * triWords) (v₀.words ++ v₁.words ++ v₂.words)
    trianglePrims host verts stride primDataOff (t + 1) (prims ++ [prim]) blk rem

/-- `cajeta_xpu_cpu_accel_build_triangles`. -/
def cpuAccelBuildTriangles (host : Host F) (verts : Option (List F)) (triCount stride : Nat) :
    Option (Option (List (Word F))) :=
  match verts with
  | none => some none
  | some verts =>
    if triCount = 0 || stride < 3 then some none
    else
      let words := hdrWords + nodeCountOf triCount * nodeWords + triCount + triCount * triWords
      if !host.calloc (words * 4) || !host.malloc (triCount * primBytes) then some none
      else do
        let primDataOff := u32 (primRefOffOf triCount + triCount)
        let (prims, blk) ← trianglePrims host verts stride primDataOff 0 [] (zeros words) triCount
        some <$> buildBlock host prims triCount flagTriangles blk

def readVec (blk : List (Word F)) (i : Nat) : Option (Vec F) := do
  let x ← (← blk[i]?).toCoord
  let y ← (← blk[i + 1]?).toCoord
  let z ← (← blk[i + 2]?).toCoord
  return ![x, y, z]

/-- What the walk reads of the node `i`; the slot is that of a leaf. -/
def readNode (blk : List (Word F)) (i : Nat) : Option (Threaded.Entry (Box F)) := do
  let base := u32 ((← (← blk[4]?).toU32) + u32 (i * nodeWords))
  let escape ← (← blk[base + 6]?).toU32
  let firstPrim ← (← blk[base + 7]?).toU32
  let primCount ← (← blk[base + 8]?).toU32
  let bmin ← readVec blk base
  let bmax ← readVec blk (base + 3)
  return ⟨⟨bmin, bmax⟩, escape, if 0 < primCount then some firstPrim else none⟩

/-- The primitive that the walk finds in a slot. -/
def readPrim (blk : List (Word F)) (slot : Nat) : Option Nat := do
  (← blk[u32 ((← (← blk[5]?).toU32) + slot)]?).toU32

/-- `SoftwareRayQuery.step` until it is exhausted: the nodes it looks at, from `i` on. Whether it
descends into a node is the hit test, for a leaf with what `step` makes of the leaf. -/
def walk (descends : Threaded.Entry (Box F) → Bool) (blk : List (Word F)) :
    (fuel i : Nat) → Option (List Nat)
  | 0, i => do if i < (← (← blk[1]?).toU32) then none else return []
  | fuel + 1, i => do
    if i < (← (← blk[1]?).toU32) then
      let e ← readNode blk i
      (i :: ·) <$> walk descends blk fuel (if descends e then u32 (i + 1) else e.escape)
    else return []

end Cajeta.Xpu.Bvh
