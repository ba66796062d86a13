import Cajeta.Lib.Cells
import Cajeta.Lib.Result
import Cajeta.Lib.While
import Mathlib.Tactic.Common

/-!
# Directed graphs over dense ids

The staged edges, the index by node that the queries build when it is out of date, and the
traversals. Every access to an array is checked, and so is the room of every stack and queue. Sizes
of arrays are 32-bit integers, and so are the sums of the counting sort.
-/

namespace Cajeta.Collection.Graph
open Except While

/-- Why a query stops early. -/
inductive GraphFault where
  /-- an index outside of an array -/
  | outside
  /-- one more element than an array has slots -/
  | full
  /-- `heap` of a negative number of elements -/
  | negativeSize
  /-- a sum that an `int32` cannot hold -/
  | wraps
  | outOfFuel
  deriving DecidableEq

abbrev GraphM := Except GraphFault

def get (a : List α) (i : Nat) : GraphM α := orThrow a[i]? .outside

def put (a : List α) (i : Nat) (x : α) : GraphM (List α) :=
  if i < a.length then .ok (a.set i x) else .error .outside

/-- A stack in an array of `cap` slots, its top first. -/
def push (cap : Nat) (stack : List Nat) (x : Nat) : GraphM (List Nat) :=
  if stack.length < cap then .ok (x :: stack) else .error .full

/-- An array of `cap` slots that is filled from its start. -/
def append (cap : Nat) (xs : List α) (x : α) : GraphM (List α) :=
  if xs.length < cap then .ok (xs ++ [x]) else .error .full

/-- The size of the array that `heap` makes for an `int32` number of elements. -/
def heap (count : Int) : GraphM Nat :=
  if Cells.i32 count < 0 then .error .negativeSize else .ok (Cells.i32 count).toNat

def plus (a b : Nat) : GraphM Nat := if a + b < 2 ^ 31 then .ok (a + b) else .error .wraps

/-- Where the row of a node starts, and all rows one behind the other. -/
structure Csr where
  off : List Nat
  tgt : List Nat
  deriving DecidableEq

/-- `edges` are the first `eCount` elements of `eFrom` and `eTo`, which have `eCap` slots. -/
structure IndexGraph where
  nodeN : Nat
  edges : List (Nat × Nat)
  eCap : Nat
  fresh : Bool
  out : Csr
  inc : Csr
  deriving DecidableEq

namespace IndexGraph

def new : IndexGraph :=
  { nodeN := 0, edges := [], eCap := 16, fresh := false, out := ⟨[0], [0]⟩, inc := ⟨[0], [0]⟩ }

def ensureNodes (g : IndexGraph) (count : Int) : IndexGraph :=
  if count > g.nodeN then { g with nodeN := count.toNat, fresh := false } else g

/-- The edges move to arrays of twice the size. -/
def growEdges (g : IndexGraph) : GraphM IndexGraph := do
  let next ← heap (g.eCap * 2)
  return { g with eCap := next }

/-- There is a slot for one more edge behind this. -/
def makeRoom (g : IndexGraph) : GraphM IndexGraph :=
  if g.edges.length ≥ g.eCap then g.growEdges else return g

/-- Edges with an end outside of the graph are dropped. -/
def addEdge (g : IndexGraph) (src dst : Int) : GraphM IndexGraph :=
  if src < 0 ∨ src ≥ g.nodeN then return g
  else if dst < 0 ∨ dst ≥ g.nodeN then return g
  else do
    let g ← g.makeRoom
    let edges ← append g.eCap g.edges (src.toNat, dst.toNat)
    return { g with edges, fresh := false }

end IndexGraph

def countKey (off : List Nat) (p : Nat × Nat) : GraphM (List Nat) := do
  let c ← get off (p.1 + 1)
  let c ← plus c 1
  put off (p.1 + 1) c

def addBelow (off : List Nat) (i : Nat) : GraphM (List Nat) := do
  let c ← get off (i + 1)
  let below ← get off i
  let c ← plus c below
  put off (i + 1) c

def place (off : List Nat) : List Nat × List Nat → Nat × Nat → GraphM (List Nat × List Nat)
  | (tgt, cur), (key, value) => do
    let start ← get off key
    let c ← get cur key
    let slot ← plus start c
    let tgt ← put tgt slot value
    let c ← plus c 1
    let cur ← put cur key c
    return (tgt, cur)

/-- The counting sort of the edges by one of their ends. -/
def buildCsr (n : Nat) (pairs : List (Nat × Nat)) : GraphM Csr := do
  let slots ← heap (n + 1)
  let off ← pairs.foldlM countKey (List.replicate slots 0)
  let off ← (List.range n).foldlM addBelow off
  let (tgt, _) ← pairs.foldlM (place off) (List.replicate pairs.length 0, List.replicate n 0)
  return { off, tgt }

def IndexGraph.ensureCsr (g : IndexGraph) : GraphM IndexGraph :=
  if g.fresh then .ok g
  else do
    let out ← buildCsr g.nodeN g.edges
    let inc ← buildCsr g.nodeN (g.edges.map Prod.swap)
    return { g with fresh := true, out, inc }

section

variable (fuel : Nat)

def rowRound (csr : Csr) (stop : Nat) (f : Nat → σ → GraphM σ) :
    Nat × σ → GraphM (Next (Nat × σ) σ)
  | (e, s) =>
    if e < stop then do
      let nxt ← get csr.tgt e
      let s ← f nxt s
      return .again (e + 1, s)
    else return .done s

/-- The loop over the row of `cur`. -/
def scanRow (csr : Csr) (cur : Nat) (f : Nat → σ → GraphM σ) (s : σ) : GraphM σ := do
  let start ← get csr.off cur
  let stop ← get csr.off (cur + 1)
  loop .outOfFuel (rowRound csr stop f) fuel (start, s)

def visit (cap : Nat) (blank fill : Int) (nxt : Nat) :
    List Int × List Nat → GraphM (List Int × List Nat)
  | (marks, work) => do
    let mark ← get marks nxt
    if mark = blank then do
      let marks ← put marks nxt fill
      let work ← push cap work nxt
      return (marks, work)
    else return (marks, work)

def walkRound (csr : Csr) (cap : Nat) (blank fill : Int) :
    List Int × List Nat → GraphM (Next (List Int × List Nat) (List Int))
  | (marks, []) => return .done marks
  | (marks, cur :: work) => do
    let st ← scanRow fuel csr cur (visit cap blank fill) (marks, work)
    return .again st

/-- Marks what can be reached from the nodes on the stack over blank nodes. -/
def walk (csr : Csr) (cap : Nat) (blank fill : Int) (marks : List Int) (work : List Nat) :
    GraphM (List Int) :=
  loop .outOfFuel (walkRound fuel csr cap blank fill) fuel (marks, work)

def IndexGraph.reachableFrom (g : IndexGraph) (roots : List Int) :
    GraphM (List Int × IndexGraph) := do
  let g ← g.ensureCsr
  let n := g.nodeN
  let rn := Cells.i32 roots.length
  let (seen, work) ← (roots.take rn.toNat).foldlM (fun st (id : Int) =>
    if 0 ≤ id ∧ id < n then visit n 0 1 id.toNat st else return st) (List.replicate n 0, [])
  let seen ← walk fuel g.out n 0 1 seen work
  return (seen, g)

def enqueue (cap nxt : Nat) : List Int × List Nat → GraphM (List Int × List Nat)
  | (seen, queue) => do
    let mark ← get seen nxt
    if mark = 0 then do
      let seen ← put seen nxt 1
      let queue ← append cap queue nxt
      return (seen, queue)
    else return (seen, queue)

def bfsRound (csr : Csr) (cap : Nat) :
    List Int × List Nat × Nat → GraphM (Next (List Int × List Nat × Nat) (List Nat))
  | (seen, queue, head) =>
    if head < queue.length then do
      let cur ← get queue head
      let (seen, queue) ← scanRow fuel csr cur (enqueue cap) (seen, queue)
      return .again (seen, queue, head + 1)
    else return .done queue

def IndexGraph.bfsOrder (g : IndexGraph) (root : Int) : GraphM (List Nat × IndexGraph) := do
  let g ← g.ensureCsr
  let n := g.nodeN
  if root < 0 ∨ root ≥ n then return ([], g)
  else do
    let seen ← put (List.replicate n 0) root.toNat 1
    let queue ← append n [] root.toNat
    let order ← loop .outOfFuel (bfsRound fuel g.out n) fuel (seen, queue, 0)
    return (order, g)

structure DfsState where
  seen : List Int
  cursor : List Nat
  frames : List Nat
  order : List Nat

/-- Moves the cursor of `cur` until it descends or the row ends. -/
def descend (csr : Csr) (cap cur base deg : Nat) :
    DfsState × Bool → GraphM (Next (DfsState × Bool) (DfsState × Bool))
  | (s, descended) => do
    let c ← get s.cursor cur
    if c < deg ∧ descended = false then do
      let nxt ← get csr.tgt (base + c)
      let cursor ← put s.cursor cur (c + 1)
      let mark ← get s.seen nxt
      if mark = 0 then do
        let seen ← put s.seen nxt 1
        let order ← append cap s.order nxt
        let frames ← push cap s.frames nxt
        return .again ({ seen, cursor, frames, order }, true)
      else return .again ({ s with cursor }, false)
    else return .done (s, descended)

def dfsRound (csr : Csr) (cap : Nat) (s : DfsState) : GraphM (Next DfsState (List Nat)) :=
  match s.frames with
  | [] => return .done s.order
  | cur :: _ => do
    let base ← get csr.off cur
    let stop ← get csr.off (cur + 1)
    let (s, descended) ← loop .outOfFuel (descend csr cap cur base (stop - base)) fuel (s, false)
    if descended = false then return .again { s with frames := s.frames.tail } else return .again s

def IndexGraph.dfsOrder (g : IndexGraph) (root : Int) : GraphM (List Nat × IndexGraph) := do
  let g ← g.ensureCsr
  let n := g.nodeN
  if root < 0 ∨ root ≥ n then return ([], g)
  else do
    let seen ← put (List.replicate n 0) root.toNat 1
    let order ← append n [] root.toNat
    let frames ← push n [] root.toNat
    let order ← loop .outOfFuel (dfsRound fuel g.out n) fuel
      { seen, cursor := List.replicate n 0, frames, order }
    return (order, g)

/-- One edge into `nxt` less. -/
def release (cap nxt : Nat) : List Int × List Nat → GraphM (List Int × List Nat)
  | (indeg, queue) => do
    let d ← get indeg nxt
    let indeg ← put indeg nxt (d - 1)
    let d ← get indeg nxt
    if d = 0 then do
      let queue ← append cap queue nxt
      return (indeg, queue)
    else return (indeg, queue)

def topoRound (csr : Csr) (cap : Nat) :
    List Int × List Nat × Nat → GraphM (Next (List Int × List Nat × Nat) (List Nat))
  | (indeg, queue, head) =>
    if head < queue.length then do
      let cur ← get queue head
      let (indeg, queue) ← scanRow fuel csr cur (release cap) (indeg, queue)
      return .again (indeg, queue, head + 1)
    else return .done queue

def inDegreeAt (csr : Csr) (i : Nat) : GraphM Int := do
  let stop ← get csr.off (i + 1)
  let start ← get csr.off i
  return (stop : Int) - start

def enqueueRoot (cap : Nat) (indeg : List Int) (queue : List Nat) (i : Nat) : GraphM (List Nat) :=
  do
  let d ← get indeg i
  if d = 0 then append cap queue i else return queue

def IndexGraph.topoOrder (g : IndexGraph) : GraphM (List Nat × IndexGraph) := do
  let g ← g.ensureCsr
  let n := g.nodeN
  let indeg ← (List.range n).mapM (inDegreeAt g.inc)
  let queue ← (List.range n).foldlM (enqueueRoot n indeg) []
  let order ← loop .outOfFuel (topoRound fuel g.out n) fuel (indeg, queue, 0)
  return (order, g)

def IndexGraph.isCyclic (g : IndexGraph) : GraphM (Bool × IndexGraph) := do
  let (order, g) ← g.topoOrder fuel
  return (decide (order.length < g.nodeN), g)

/-- The first pass: `order` takes the nodes as they are finished. -/
def finishRound (csr : Csr) (cap : Nat) (s : DfsState) : GraphM (Next DfsState DfsState) :=
  match s.frames with
  | [] => return .done s
  | cur :: rest => do
    let base ← get csr.off cur
    let stop ← get csr.off (cur + 1)
    let c ← get s.cursor cur
    if c < stop - base then do
      let nxt ← get csr.tgt (base + c)
      let cursor ← put s.cursor cur (c + 1)
      let mark ← get s.seen nxt
      if mark = 0 then do
        let seen ← put s.seen nxt 1
        let frames ← push cap s.frames nxt
        return .again { s with seen, cursor, frames }
      else return .again { s with cursor }
    else do
      let order ← append cap s.order cur
      return .again { s with frames := rest, order }

def finishFrom (csr : Csr) (cap : Nat) (s : DfsState) (root : Nat) : GraphM DfsState := do
  let mark ← get s.seen root
  if mark = 0 then do
    let seen ← put s.seen root 1
    let frames ← push cap [] root
    loop .outOfFuel (finishRound csr cap) fuel { s with seen, frames }
  else return s

/-- The second pass: a node without a label starts a component. -/
def labelFrom (csr : Csr) (cap : Nat) : List Int × Int → Nat → GraphM (List Int × Int)
  | (comp, nextLabel), seed => do
    let label ← get comp seed
    if label = -1 then do
      let comp ← put comp seed nextLabel
      let work ← push cap [] seed
      let comp ← walk fuel csr cap (-1) nextLabel comp work
      return (comp, nextLabel + 1)
    else return (comp, nextLabel)

def IndexGraph.sccLabels (g : IndexGraph) : GraphM (List Int × IndexGraph) := do
  let g ← g.ensureCsr
  let n := g.nodeN
  let s ← (List.range n).foldlM (finishFrom fuel g.out n)
    { seen := List.replicate n 0, cursor := List.replicate n 0, frames := [], order := [] }
  let (comp, _) ← s.order.reverse.foldlM (labelFrom fuel g.inc n) (List.replicate n (-1), 0)
  return (comp, g)

def IndexGraph.sccCount (g : IndexGraph) : GraphM (Int × IndexGraph) := do
  let (labels, g) ← g.sccLabels fuel
  return (labels.foldl (fun maxLabel label => if label > maxLabel then label else maxLabel)
    (-1) + 1, g)

end

/-!
## The index holds the rows

The counting sort puts the other ends of the edges at a node one behind the other, in the order in
which the edges were added. The loop over a row of the index is then the loop over that list.
-/

theorem get_eq {a : List α} (h : a[i]? = some x) : get a i = .ok x := by
  rw [get, h]
  rfl

theorem plus_eq (h : a + b < 2 ^ 31) : plus a b = .ok (a + b) := if_pos h

theorem heap_eq {n : Nat} (h : n < 2 ^ 31) : heap n = .ok n := by
  have hwrap : Cells.i32 n = n := Cells.i32_eq (by omega) (by omega)
  rw [heap, hwrap, if_neg (by omega), Int.toNat_natCast]

theorem heap_negative {x : Int} (hlo : 2 ^ 31 ≤ x) (hhi : x < 2 ^ 32) :
    heap x = .error .negativeSize := by
  obtain ⟨k, hk, hmin, hmax⟩ := Cells.exists_i32 x
  exact if_pos (by omega)

theorem put_eq {a : List α} (h : i < a.length) : put a i x = .ok (a.set i x) := if_pos h

theorem exists_getElem? {a : List α} (h : i < a.length) : ∃ x, a[i]? = some x :=
  ⟨a[i], List.getElem?_eq_getElem h⟩

theorem getElem?_set_ne_of_lt {a : List α} (hne : i ≠ j) : (a.set i x)[j]? = a[j]? :=
  List.getElem?_set_ne hne

theorem getElem?_set_self_of_lt {a : List α} (h : i < a.length) : (a.set i x)[i]? = some x :=
  List.getElem?_set_self h

/-- The other ends of the edges at `k`, in the order of the edges. -/
def rowOf (pairs : List (Nat × Nat)) (k : Nat) : List Nat :=
  (pairs.filter fun p => p.1 = k).map Prod.snd

/-- How many edges have a smaller key. -/
def startOf (pairs : List (Nat × Nat)) (k : Nat) : Nat := pairs.countP fun p => p.1 < k

/-- The index gives every node its row. -/
def Indexes (csr : Csr) (n : Nat) (row : Nat → List Nat) : Prop :=
  ∀ k < n, ∃ start, csr.off[k]? = some start ∧ csr.off[k + 1]? = some (start + (row k).length) ∧
    ∀ j < (row k).length, csr.tgt[start + j]? = (row k)[j]?

theorem rowOf_append (done rest : List (Nat × Nat)) (k : Nat) :
    rowOf (done ++ rest) k = rowOf done k ++ rowOf rest k := by
  simp only [rowOf, List.filter_append, List.map_append]

theorem rowOf_cons_self (p : Nat × Nat) (rest : List (Nat × Nat)) :
    rowOf (p :: rest) p.1 = p.2 :: rowOf rest p.1 := by
  rw [rowOf, List.filter_cons_of_pos (by simp), List.map_cons]
  rfl

theorem rowOf_cons_of_ne (rest : List (Nat × Nat)) (h : p.1 ≠ k) :
    rowOf (p :: rest) k = rowOf rest k := by
  rw [rowOf, List.filter_cons_of_neg (by simpa using h)]
  rfl

theorem rowOf_singleton (p : Nat × Nat) (k : Nat) :
    rowOf [p] k = if p.1 = k then [p.2] else [] := by
  split
  · next h =>
    subst h
    rw [rowOf_cons_self]
    rfl
  · next h =>
    rw [rowOf_cons_of_ne [] h]
    rfl

theorem mem_rowOf : v ∈ rowOf pairs u ↔ (u, v) ∈ pairs := by
  simp only [rowOf, List.mem_map, List.mem_filter, decide_eq_true_eq]
  constructor
  · rintro ⟨⟨a, b⟩, ⟨hmem, rfl⟩, rfl⟩
    exact hmem
  · intro hmem
    exact ⟨(u, v), ⟨hmem, rfl⟩, rfl⟩

theorem startOf_zero (pairs : List (Nat × Nat)) : startOf pairs 0 = 0 :=
  List.countP_eq_zero.mpr fun p _ => by simp

theorem startOf_succ (pairs : List (Nat × Nat)) (k : Nat) :
    startOf pairs (k + 1) = startOf pairs k + (rowOf pairs k).length := by
  induction pairs with
  | nil => rfl
  | cons p rest ih =>
    have hcount : ∀ k, startOf (p :: rest) k = startOf rest k + if p.1 < k then 1 else 0 := by
      intro k
      rw [startOf, List.countP_cons]
      simp only [decide_eq_true_eq]
      rfl
    rw [hcount, hcount, ih]
    by_cases h : p.1 = k
    · subst h
      rw [rowOf_cons_self, List.length_cons, if_pos (by omega), if_neg (by omega)]
      omega
    · rw [rowOf_cons_of_ne rest h]
      split_ifs <;> omega

theorem startOf_mono (pairs : List (Nat × Nat)) (h : k ≤ l) :
    startOf pairs k ≤ startOf pairs l := by
  refine List.countP_mono_left fun p _ hp => ?_
  rw [decide_eq_true_eq] at hp ⊢
  omega

theorem startOf_le (pairs : List (Nat × Nat)) (k : Nat) : startOf pairs k ≤ pairs.length :=
  List.countP_le_length

theorem length_rowOf_le (pairs : List (Nat × Nat)) (k : Nat) :
    (rowOf pairs k).length ≤ pairs.length := by
  rw [rowOf, List.length_map]
  exact List.length_filter_le _ _

/-! ## The three passes of the counting sort -/

theorem countKey_fold (n : Nat) (pairs : List (Nat × Nat)) (hkeys : ∀ p ∈ pairs, p.1 < n)
    (hcount : pairs.length < 2 ^ 31) :
    ∃ off : List Nat, pairs.foldlM countKey (List.replicate (n + 1) 0) = .ok off ∧
      (off.length = n + 1 ∧ off[0]? = some 0 ∧
        ∀ k < n, off[k + 1]? = some (rowOf pairs k).length) := by
  refine fold_ok (I := fun done (off : List Nat) => off.length = n + 1 ∧ off[0]? = some 0 ∧
    ∀ k < n, off[k + 1]? = some (rowOf done k).length) pairs
    (fun done p rest off hdone hoff => ?_) ?_
  · obtain ⟨hlen, hzero, hoff⟩ := hoff
    have hp := hkeys p (hdone ▸ List.mem_append_right _ List.mem_cons_self)
    have hdoneLen : done.length + (rest.length + 1) = pairs.length := by
      rw [← hdone, List.length_append, List.length_cons]
    have hrow := length_rowOf_le done p.1
    rw [countKey, get_eq (hoff p.1 hp), ok_bind, plus_eq (by omega), ok_bind, put_eq (by omega)]
    refine ⟨_, rfl, by rw [List.length_set, hlen], ?_, fun k hk => ?_⟩
    · rw [getElem?_set_ne_of_lt (by omega), hzero]
    · rw [rowOf_append, List.length_append, rowOf_singleton]
      by_cases h : p.1 = k
      · subst h
        rw [getElem?_set_self_of_lt (by omega), if_pos rfl]
        rfl
      · rw [getElem?_set_ne_of_lt (by omega), if_neg h, hoff k hk]
        rfl
  · refine ⟨List.length_replicate, ?_, fun k hk => ?_⟩
    · rw [List.getElem?_replicate, if_pos (by omega)]
    · rw [List.getElem?_replicate, if_pos (by omega)]
      rfl

theorem range_split (h : done ++ i :: rest = List.range n) : done.length = i ∧ i < n := by
  have hget : (List.range n)[done.length]? = some i := by
    rw [← h, List.getElem?_append_right (Nat.le_refl _), Nat.sub_self]
    rfl
  obtain ⟨hlt, hi⟩ := List.getElem?_eq_some_iff.mp hget
  rw [List.getElem_range] at hi
  rw [List.length_range] at hlt
  omega

theorem addBelow_fold (n : Nat) (pairs : List (Nat × Nat)) {off : List Nat}
    (hlen : off.length = n + 1)
    (hzero : off[0]? = some 0) (hoff : ∀ k < n, off[k + 1]? = some (rowOf pairs k).length)
    (hcount : pairs.length < 2 ^ 31) :
    ∃ off' : List Nat, (List.range n).foldlM addBelow off = .ok off' ∧
      (off'.length = n + 1 ∧ (∀ k ≤ n, off'[k]? = some (startOf pairs k))) := by
  have hfold : ∃ off' : List Nat, (List.range n).foldlM addBelow off = .ok off' ∧
      (off'.length = n + 1 ∧ (∀ k ≤ (List.range n).length, off'[k]? = some (startOf pairs k)) ∧
        ∀ k < n, (List.range n).length ≤ k → off'[k + 1]? = some (rowOf pairs k).length) := by
    refine fold_ok (I := fun done (off : List Nat) => off.length = n + 1 ∧
      (∀ k ≤ done.length, off[k]? = some (startOf pairs k)) ∧
      ∀ k < n, done.length ≤ k → off[k + 1]? = some (rowOf pairs k).length) (List.range n)
      (fun done i rest off hdone hoff => ?_) ⟨hlen, fun k hk => ?_, fun k hk _ => hoff k hk⟩
    · obtain ⟨hlen, hbelow, habove⟩ := hoff
      obtain ⟨hi, hin⟩ := range_split hdone
      have hsum := startOf_succ pairs i
      have hle := startOf_le pairs (i + 1)
      rw [addBelow, get_eq (habove i hin (by omega)), ok_bind,
        get_eq (hbelow i (by omega)), ok_bind, plus_eq (by omega), ok_bind, put_eq (by omega)]
      refine ⟨_, rfl, by rw [List.length_set, hlen], fun k hk => ?_, fun k hk hik => ?_⟩
      · rw [List.length_append, List.length_singleton] at hk
        by_cases h : k = i + 1
        · subst h
          rw [getElem?_set_self_of_lt (by omega), startOf_succ, Nat.add_comm]
        · rw [getElem?_set_ne_of_lt (by omega), hbelow k (by omega)]
      · rw [List.length_append, List.length_singleton] at hik
        rw [getElem?_set_ne_of_lt (by omega), habove k hk (by omega)]
    · obtain rfl : k = 0 := by rw [List.length_nil] at hk; omega
      rw [hzero, startOf_zero]
  obtain ⟨off', hfold, hlen', hbelow, -⟩ := hfold
  rw [List.length_range] at hbelow
  exact ⟨off', hfold, hlen', hbelow⟩

theorem place_fold (n : Nat) (pairs : List (Nat × Nat)) (hkeys : ∀ p ∈ pairs, p.1 < n)
    (hoff : ∀ k ≤ n, off[k]? = some (startOf pairs k)) (hcount : pairs.length < 2 ^ 31) :
    ∃ st : List Nat × List Nat, pairs.foldlM (place off)
        (List.replicate pairs.length 0, List.replicate n 0) = .ok st ∧
      (st.1.length = pairs.length ∧ st.2.length = n ∧
        (∀ k < n, st.2[k]? = some (rowOf pairs k).length) ∧
        ∀ k < n, ∀ j < (rowOf pairs k).length,
          st.1[startOf pairs k + j]? = (rowOf pairs k)[j]?) := by
  refine fold_ok (I := fun done (st : List Nat × List Nat) => st.1.length = pairs.length ∧
    st.2.length = n ∧
    (∀ k < n, st.2[k]? = some (rowOf done k).length) ∧
    ∀ k < n, ∀ j < (rowOf done k).length, st.1[startOf pairs k + j]? = (rowOf done k)[j]?) pairs
    (fun done p rest st hdone hst => ?_) ?_
  · obtain ⟨tgt, cur⟩ := st
    obtain ⟨htgt, hcur, hcursor, hrows⟩ := hst
    obtain ⟨key, value⟩ := p
    have hkey : key < n := hkeys (key, value) (hdone ▸ List.mem_append_right _ List.mem_cons_self)
    dsimp only at htgt hcur hcursor hrows
    -- the new element stays inside of its row
    have hrow : (rowOf done key).length < (rowOf pairs key).length := by
      rw [← hdone, rowOf_append, rowOf_cons_self (key, value), List.length_append, List.length_cons]
      omega
    have hnext := startOf_succ pairs key
    have hle := startOf_le pairs (key + 1)
    rw [place, get_eq (hoff key (Nat.le_of_lt hkey)), ok_bind, get_eq (hcursor key hkey), ok_bind,
      plus_eq (by omega), ok_bind, put_eq (by omega), ok_bind, plus_eq (by omega), ok_bind,
      put_eq (by omega)]
    refine ⟨_, rfl, by rw [List.length_set, htgt], by rw [List.length_set, hcur], fun k hk => ?_,
      fun k hk j hj => ?_⟩
    · rw [rowOf_append, List.length_append, rowOf_singleton]
      by_cases h : key = k
      · subst h
        rw [getElem?_set_self_of_lt (by omega), if_pos rfl]
        rfl
      · rw [getElem?_set_ne_of_lt h, if_neg h, hcursor k hk]
        rfl
    · rw [rowOf_append, rowOf_singleton] at hj ⊢
      by_cases h : key = k
      · subst h
        rw [if_pos rfl] at hj ⊢
        rw [List.length_append, List.length_singleton] at hj
        by_cases hlast : j = (rowOf done key).length
        · subst hlast
          rw [getElem?_set_self_of_lt (by omega), List.getElem?_append_right (Nat.le_refl _),
            Nat.sub_self]
          rfl
        · rw [getElem?_set_ne_of_lt (by omega), hrows key hk j (by omega),
            List.getElem?_append_left (by omega)]
      · rw [if_neg h, List.append_nil] at hj ⊢
        have hjrow : j < (rowOf pairs k).length := by
          rw [← hdone, rowOf_append, List.length_append]
          omega
        have hnext' := startOf_succ pairs k
        -- rows of different keys do not overlap
        have hapart : startOf pairs key + (rowOf done key).length ≠ startOf pairs k + j := by
          rcases Nat.lt_or_gt_of_ne h with hlt | hlt
          · have hmono := startOf_mono pairs (show key + 1 ≤ k from hlt)
            omega
          · have hmono := startOf_mono pairs (show k + 1 ≤ key from hlt)
            omega
        rw [getElem?_set_ne_of_lt hapart, hrows k hk j hj]
  · refine ⟨List.length_replicate, List.length_replicate, fun k hk => ?_, fun k hk j hj => ?_⟩
    · rw [List.getElem?_replicate, if_pos hk]
      rfl
    · exact absurd hj (Nat.not_lt_zero j)

theorem buildCsr_spec (hkeys : ∀ p ∈ pairs, p.1 < n) (hn : n + 1 < 2 ^ 31)
    (hlength : pairs.length < 2 ^ 31) :
    ∃ csr, buildCsr n pairs = .ok csr ∧ Indexes csr n (rowOf pairs) := by
  obtain ⟨counts, hcount, hlen, hzero, hcounts⟩ := countKey_fold n pairs hkeys hlength
  obtain ⟨off, hsum, hoffLen, hoff⟩ := addBelow_fold n pairs hlen hzero hcounts hlength
  obtain ⟨⟨tgt, cur⟩, hplace, htgt, -, -, hrows⟩ := place_fold n pairs hkeys hoff hlength
  have hslots : heap (n + 1) = .ok (n + 1) := by
    rw [← Nat.cast_succ]
    exact heap_eq hn
  refine ⟨⟨off, tgt⟩, ?_, fun k hk => ⟨startOf pairs k, hoff k (Nat.le_of_lt hk), ?_, hrows k hk⟩⟩
  · rw [buildCsr, hslots, ok_bind, hcount, ok_bind, hsum, ok_bind, hplace]
    rfl
  · rw [← startOf_succ]
    exact hoff (k + 1) hk

theorem scanRow_eq (hcsr : Indexes csr n row) (hcur : cur < n) (f : Nat → σ → GraphM σ) (s : σ)
    (hfuel : (row cur).length < fuel) :
    scanRow fuel csr cur f s = (row cur).foldlM (fun s nxt => f nxt s) s := by
  obtain ⟨start, hstart, hstop, hrow⟩ := hcsr cur hcur
  rw [scanRow, get_eq hstart, ok_bind, get_eq hstop, ok_bind]
  -- by induction on what is left of the row
  suffices h : ∀ (rest : List Nat) (j : Nat) (s : σ) (fuel : Nat), (row cur).drop j = rest →
      rest.length < fuel →
      loop .outOfFuel (rowRound csr (start + (row cur).length) f) fuel (start + j, s) =
        rest.foldlM (fun s nxt => f nxt s) s from
    h (row cur) 0 s fuel rfl hfuel
  intro rest
  induction rest with
  | nil =>
    intro j s fuel hdrop hfuel
    obtain ⟨fuel, rfl⟩ := Nat.exists_eq_succ_of_ne_zero (Nat.ne_of_gt hfuel)
    have hj : (row cur).length ≤ j := List.drop_eq_nil_iff.mp hdrop
    rw [loop, rowRound, if_neg (by omega)]
    rfl
  | cons x rest ih =>
    intro j s fuel hdrop hfuel
    obtain ⟨fuel, rfl⟩ := Nat.exists_eq_succ_of_ne_zero (Nat.ne_of_gt (Nat.zero_lt_of_lt hfuel))
    have hget : (row cur)[j]? = some x := by
      rw [← List.head?_drop, hdrop]
      rfl
    obtain ⟨hj, -⟩ := List.getElem?_eq_some_iff.mp hget
    have htgt : csr.tgt[start + j]? = some x := (hrow j hj).trans hget
    rw [loop, rowRound, if_pos (by omega), get_eq htgt, ok_bind, List.foldlM_cons]
    cases hf : f x s with
    | error e => rfl
    | ok s' =>
      rw [List.length_cons] at hfuel
      exact ih (j + 1) s' fuel (by rw [← List.drop_drop, hdrop]; rfl) (by omega)

end Cajeta.Collection.Graph
