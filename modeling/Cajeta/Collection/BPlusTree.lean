import Mathlib.Data.Set.Function
import Cajeta.Lib.BPlus
import Cajeta.Lib.Slots
import Cajeta.Lib.SortedMap

/-!
# `cajeta.collection.BPlusTree`

The ordered map whose entries are all in the leaves. Nodes live at addresses in the order they are
registered, and `none` is the null pointer. An operation that follows a null pointer, or reads or
writes beyond an array, has no result, and neither has a loop that does not end within its fuel.

A loop of the source that moves elements of two arrays in step is one loop for each array.
-/

namespace Cajeta.Collection
open Slots

/-- An array that is null has no elements. -/
structure BPlusTreeNode (K V : Type) where
  leaf : Bool
  numKeys : Nat
  keys : List K
  values : List V
  children : List (Option Nat)
  next : Option Nat
  parent : Option Nat

namespace BPlusTreeNode
variable {K V : Type}

def new [Inhabited K] [Inhabited V] (leaf : Bool) (order : Nat) : BPlusTreeNode K V where
  leaf := leaf
  numKeys := 0
  keys := List.replicate (order + 1) default
  values := if leaf then List.replicate (order + 1) default else []
  children := if leaf then [] else List.replicate (order + 2) none
  next := none
  parent := none

end BPlusTreeNode

structure BPlusTree (K V : Type) where
  root : Option Nat
  nodes : Nat → BPlusTreeNode K V
  /-- How many nodes are registered: those at the addresses below. -/
  registered : Nat
  sizeCount : Nat
  order : Nat

namespace BPlusTree
variable {K V : Type}

def setNode (t : BPlusTree K V) (a : Nat) (n : BPlusTreeNode K V) : BPlusTree K V :=
  { t with nodes := Function.update t.nodes a n }

def setParent (t : BPlusTree K V) (a : Nat) (p : Option Nat) : BPlusTree K V :=
  t.setNode a { t.nodes a with parent := p }

/-- A new node in the registry, with the address `t.registered`. -/
def register (t : BPlusTree K V) (n : BPlusTreeNode K V) : BPlusTree K V :=
  { t.setNode t.registered n with registered := t.registered + 1 }

section
variable [Inhabited K] [Inhabited V]

/-- Makes `x` the parent of each child. -/
def adopt (t : BPlusTree K V) (x : Nat) : (children : List (Option Nat)) → Option (BPlusTree K V)
  | [] => some t
  | child :: children => do adopt (t.setParent (← child) (some x)) x children

/-- A root over two nodes. -/
def newRoot (t : BPlusTree K V) (left : Nat) (sep : K) (right : Nat) : Option (BPlusTree K V) := do
  let n : BPlusTreeNode K V := .new false t.order
  let keys ← store n.keys 0 sep
  let children ← store n.children 0 (some left)
  let children ← store children 1 (some right)
  let root := t.registered
  let t := t.register { n with keys, children, numKeys := 1 }
  let t := (t.setParent left (some root)).setParent right (some root)
  return { t with root := some root }

/-- Links `right` into the parent of `left`, behind it. -/
def linkChild (t : BPlusTree K V) (parent left : Nat) (sep : K) (right : Nat) :
    Option (BPlusTree K V) := do
  let n := t.nodes parent
  let i ← firstIndex (fun c => decide (c ≠ some left)) n.children 0 (n.numKeys + 1)
  let keys ← insertAt n.keys n.numKeys i sep
  let children ← insertAt n.children (n.numKeys + 1) (i + 1) (some right)
  let t := t.setNode parent { n with keys, children, numKeys := n.numKeys + 1 }
  return t.setParent right (some parent)

/-- The two halves of an inner node; the key between them goes to the parent, and is returned. -/
def halve (t : BPlusTree K V) (node : Nat) : Option (BPlusTree K V × K) := do
  let n := t.nodes node
  let total := n.numKeys
  let mid := total / 2
  let promote ← n.keys[mid]?
  let r : BPlusTreeNode K V := .new false t.order
  let keys ← copyFrom n.keys (mid + 1) r.keys 0 (total - mid - 1)
  let children ← copyFrom n.children (mid + 1) r.children 0 (total - mid)
  let right := t.registered
  let t := t.register { r with keys, children, numKeys := total - mid - 1, parent := n.parent }
  let t ← t.adopt right (children.take (total - mid))
  return (t.setNode node { t.nodes node with numKeys := mid }, promote)

/-- `insertIntoParent`, and `splitInternal` where the parent overflows. -/
def insertIntoParent : (fuel : Nat) → BPlusTree K V → (left : Nat) → (sep : K) → (right : Nat) →
    Option (BPlusTree K V)
  | 0, _, _, _, _ => none
  | fuel + 1, t, left, sep, right =>
    match (t.nodes left).parent with
    | none => t.newRoot left sep right
    | some parent => do
      let t ← t.linkChild parent left sep right
      if (t.nodes parent).numKeys > t.order then
        let right := t.registered
        let (t, promote) ← t.halve parent
        insertIntoParent fuel t parent promote right
      else return t

def splitLeaf (t : BPlusTree K V) (leaf : Nat) : Option (BPlusTree K V) := do
  let n := t.nodes leaf
  let total := n.numKeys
  let mid := total / 2
  let r : BPlusTreeNode K V := .new true t.order
  let keys ← copyFrom n.keys mid r.keys 0 (total - mid)
  let values ← copyFrom n.values mid r.values 0 (total - mid)
  let right := t.registered
  let t := t.register
    { r with keys, values, numKeys := total - mid, next := n.next, parent := n.parent }
  let t := t.setNode leaf { n with numKeys := mid, next := some right }
  let sep ← keys[0]?
  insertIntoParent t.registered t leaf sep right

end

/-! ## Insertion and lookup -/

section
variable [LinearOrder K]

/-- The leaf in which a key belongs: a key equal to a separator belongs to its right. -/
def findLeaf (t : BPlusTree K V) (key : K) : (fuel node : Nat) → Option Nat
  | 0, _ => none
  | fuel + 1, node =>
    let n := t.nodes node
    if n.leaf then some node
    else do
      let i ← firstIndex (fun k => decide (¬ key < k)) n.keys 0 n.numKeys
      let child ← n.children[i]?
      findLeaf t key fuel (← child)

def findInLeaf (n : BPlusTreeNode K V) (key : K) : Option (Option Nat) := do
  let i ← firstIndex (fun k => !(decide (¬ key < k) && decide (¬ k < key))) n.keys 0 n.numKeys
  return if i < n.numKeys then some i else none

variable [Inhabited K] [Inhabited V]

def put (t : BPlusTree K V) (key : K) (value : V) : Option (BPlusTree K V) :=
  match t.root with
  | none => do
    let n : BPlusTreeNode K V := .new true t.order
    let keys ← store n.keys 0 key
    let values ← store n.values 0 value
    let t' := t.register { n with keys, values, numKeys := 1 }
    return { t' with root := some t.registered, sizeCount := 1 }
  | some root => do
    let leaf ← t.findLeaf key t.registered root
    let n := t.nodes leaf
    let pos ← firstIndex (fun k => decide (k < key)) n.keys 0 n.numKeys
    let found ← if pos < n.numKeys then (n.keys[pos]?).map fun k => decide (¬ key < k)
      else some false
    if found then
      return t.setNode leaf { n with values := ← store n.values pos value }
    else
      let keys ← insertAt n.keys n.numKeys pos key
      let values ← insertAt n.values n.numKeys pos value
      let t := t.setNode leaf { n with keys, values, numKeys := n.numKeys + 1 }
      let t := { t with sizeCount := t.sizeCount + 1 }
      if n.numKeys + 1 > t.order then t.splitLeaf leaf else return t

/-- The zero of the value type when the key is absent. -/
def get (t : BPlusTree K V) (key : K) : Option V :=
  match t.root with
  | none => some default
  | some root => do
    let n := t.nodes (← t.findLeaf key t.registered root)
    match ← findInLeaf n key with
    | some i => n.values[i]?
    | none => return default

def containsKey (t : BPlusTree K V) (key : K) : Option Bool :=
  match t.root with
  | none => some false
  | some root => do
    let n := t.nodes (← t.findLeaf key t.registered root)
    return (← findInLeaf n key).isSome

end

def count (t : BPlusTree K V) : Nat := t.sizeCount

def isEmpty (t : BPlusTree K V) : Bool := t.root.isNone

def leftmost (t : BPlusTree K V) : (fuel node : Nat) → Option Nat
  | 0, _ => none
  | fuel + 1, node =>
    let n := t.nodes node
    if n.leaf then some node
    else do
      let child ← n.children[0]?
      leftmost t fuel (← child)

def min [Inhabited K] (t : BPlusTree K V) : Option K :=
  match t.root with
  | none => some default
  | some root => do (t.nodes (← t.leftmost t.registered root)).keys[0]?

/-- The keys of a leaf and of those after it. -/
def keysFrom (t : BPlusTree K V) : (fuel : Nat) → (node : Option Nat) → Option (List K)
  | _, none => some []
  | 0, some _ => none
  | fuel + 1, some node => do
    let n := t.nodes node
    let keys ← readFrom n.keys 0 n.numKeys
    return keys ++ (← keysFrom t fuel n.next)

def keysInOrder (t : BPlusTree K V) : Option (List K) :=
  match t.root with
  | none => some []
  | some root => do t.keysFrom t.registered (some (← t.leftmost t.registered root))

/-! ## Sequences of calls -/

variable [Inhabited K] [Inhabited V]

/-- The source has no other order than 32. -/
def new (order : Nat) : BPlusTree K V where
  root := none
  nodes := fun _ => .new true 0
  registered := 0
  sizeCount := 0
  order := order

def puts [LinearOrder K] (t : BPlusTree K V) (entries : List (K × V)) : Option (BPlusTree K V) :=
  entries.foldlM (fun t e => t.put e.1 e.2) t

example : ((new 3 : BPlusTree Nat Nat).puts ((List.range 16).map fun i => (5 * i % 16, i))).bind
    keysInOrder = some (List.range 16) := by decide +kernel

end BPlusTree
end Cajeta.Collection

/-!
## The tree that the nodes of a `BPlusTree` form

When the nodes of a `BPlusTree` form a multiway tree: the arrays hold what the tree says in front,
links to children are matched by links back to the parent, and the leaves are chained from left to
right. What each write does to the tree.
-/

namespace Cajeta.Collection.BPlusTree
open BTree Slots
variable {K V : Type} {nodes nodes' : Nat → BPlusTreeNode K V} {order d D : Nat}

structure LeafAt (order : Nat) (n : BPlusTreeNode K V) (es : List (K × V)) : Prop where
  leaf : n.leaf = true
  numKeys : n.numKeys = es.length
  keys : es.map Prod.fst <+: n.keys
  values : es.map Prod.snd <+: n.values
  keysLength : n.keys.length = order + 1
  valuesLength : n.values.length = order + 1

structure InnerAt (order : Nat) (n : BPlusTreeNode K V) (keys : List K) (kids : List Nat) :
    Prop where
  leaf : n.leaf = false
  numKeys : n.numKeys = keys.length
  keys : keys <+: n.keys
  children : kids.map some <+: n.children
  keysLength : n.keys.length = order + 1
  childrenLength : n.children.length = order + 2

theorem LeafAt.setParent (h : LeafAt order n es) (p : Option Nat) :
    LeafAt order { n with parent := p } es := ⟨h.1, h.2, h.3, h.4, h.5, h.6⟩

theorem InnerAt.setParent (h : InnerAt order n ks kids) (p : Option Nat) :
    InnerAt order { n with parent := p } ks kids := ⟨h.1, h.2, h.3, h.4, h.5, h.6⟩

/-- The nodes of the tree are as it says, its root under the parent `p`. -/
def Rep (order : Nat) (nodes : Nat → BPlusTreeNode K V) :
    {d : Nat} → (p : Option Nat) → BTree Nat K V d → Prop
  | 0, p, t => LeafAt order (nodes (Prod.fst t)) (Prod.snd t) ∧ (nodes (Prod.fst t)).parent = p
  | _ + 1, p, t => InnerAt order (nodes (InnerNode.addr t)) (InnerNode.keys t)
      ((InnerNode.children t).map addr) ∧ (nodes (InnerNode.addr t)).parent = p ∧
      ∀ c ∈ InnerNode.children t, Rep order nodes (some (InnerNode.addr t)) c

theorem rep_fork {a : Nat} {l : List (BTree Nat K V d × K)} {t : BTree Nat K V d}
    {r : List (K × BTree Nat K V d)} : Rep order nodes p (fork a l t r) ↔
    (InnerAt order (nodes a) (l.map Prod.snd ++ r.map Prod.fst)
      (l.map (addr ∘ Prod.fst) ++ t.addr :: r.map (addr ∘ Prod.snd)) ∧ (nodes a).parent = p ∧
      (∀ q ∈ l, Rep order nodes (some a) q.1) ∧ ∀ q ∈ r, Rep order nodes (some a) q.2) ∧
    Rep order nodes (some a) t := by
  rw [Rep, fork, InnerNode.addr_fork, InnerNode.keys_fork, InnerNode.children_fork]
  simp only [List.map_append, List.map_cons, List.map_map, List.mem_append, List.mem_map,
    List.mem_cons]
  constructor
  · rintro ⟨hat, hp, hall⟩
    exact ⟨⟨hat, hp, fun q hq => hall _ (.inl ⟨q, hq, rfl⟩),
      fun q hq => hall _ (.inr (.inr ⟨q, hq, rfl⟩))⟩, hall t (.inr (.inl rfl))⟩
  · rintro ⟨⟨hat, hp, hl, hr⟩, ht⟩
    refine ⟨hat, hp, ?_⟩
    rintro c (⟨q, hq, rfl⟩ | rfl | ⟨q, hq, rfl⟩)
    · exact hl q hq
    · exact ht
    · exact hr q hq

theorem Rep.congr {t : BTree Nat K V d} (h : Rep order nodes p t)
    (hs : ∀ a ∈ t.addrs, nodes' a = nodes a) : Rep order nodes' p t := by
  induction d generalizing p with
  | zero =>
    have ha : nodes' (Prod.fst t) = nodes (Prod.fst t) := hs _ t.addr_mem
    rw [Rep, ha]
    exact h
  | succ d ih =>
    obtain ⟨hat, hp, hall⟩ := h
    have ha : nodes' (InnerNode.addr t) = nodes (InnerNode.addr t) := hs _ t.addr_mem
    rw [Rep, ha]
    refine ⟨hat, hp, fun c hc => ih (hall c hc) fun b hb => hs b ?_⟩
    simp only [addrs, walk, List.mem_append, List.mem_flatMap]
    rcases List.mem_cons.mp hc with rfl | hc
    · exact .inl (.inr hb)
    · obtain ⟨q, hq, rfl⟩ := List.mem_map.mp hc
      exact .inr ⟨q, hq, .inr hb⟩

theorem Rep.reparent {t : BTree Nat K V d} (h : Rep order nodes p t) (hnd : t.addrs.Nodup)
    (hroot : nodes' t.addr = { nodes t.addr with parent := q })
    (hs : ∀ a ∈ t.addrs, a ≠ t.addr → nodes' a = nodes a) : Rep order nodes' q t := by
  cases d with
  | zero =>
    change nodes' (Prod.fst t) = _ at hroot
    rw [Rep, hroot]
    exact ⟨h.1.setParent q, rfl⟩
  | succ d =>
    obtain ⟨hat, -, hall⟩ := h
    change nodes' (InnerNode.addr t) = _ at hroot
    rw [Rep, hroot]
    refine ⟨hat.setParent q, rfl, fun c hc => (hall c hc).congr fun b hb => ?_⟩
    have hmem : b ∈ walk addrVisit (InnerNode.first t) ++
        (InnerNode.rest t).flatMap fun p => [] ++ walk addrVisit p.2 := by
      simp only [List.mem_append, List.mem_flatMap]
      rcases List.mem_cons.mp hc with rfl | hc
      · exact .inl hb
      · obtain ⟨q, hq, rfl⟩ := List.mem_map.mp hc
        exact .inr ⟨q, hq, .inr hb⟩
    have hnd' : (InnerNode.addr t :: (walk addrVisit (InnerNode.first t) ++
        (InnerNode.rest t).flatMap fun p => [] ++ walk addrVisit p.2)).Nodup := hnd
    refine hs b (List.mem_cons_of_mem _ hmem) ?_
    rintro rfl
    exact (List.nodup_cons.mp hnd').1 hmem

/-- The nodes of the path are as it says, with the node `x` in the hole. -/
def Around (order : Nat) (nodes : Nat → BPlusTreeNode K V) :
    {d : Nat} → Path Nat K V D d → (x : Nat) → Prop
  | _, .root, _ => True
  | _, .step a l r up, x => (InnerAt order (nodes a) (l.map Prod.snd ++ r.map Prod.fst)
      (l.map (addr ∘ Prod.fst) ++ x :: r.map (addr ∘ Prod.snd)) ∧ (nodes a).parent = up.parent ∧
      (∀ q ∈ l, Rep order nodes (some a) q.1) ∧ ∀ q ∈ r, Rep order nodes (some a) q.2) ∧
      Around order nodes up a

theorem rep_plug {path : Path Nat K V D d} {t : BTree Nat K V d} :
    Rep order nodes none (plug path t) ↔
      Around order nodes path t.addr ∧ Rep order nodes path.parent t := by
  induction path with
  | root => simp [plug, Around, Path.parent]
  | step a l r up ih =>
    rw [plug, ih, rep_fork, Around, addr_fork, Path.parent]
    tauto

theorem Around.congr {path : Path Nat K V D d} (h : Around order nodes path x)
    (hs : ∀ a ∈ before addrVisit path ++ after addrVisit path, nodes' a = nodes a) :
    Around order nodes' path x := by
  induction path generalizing x with
  | root => trivial
  | step a l r up ih =>
    obtain ⟨⟨hat, hp, hl, hr⟩, hup⟩ := h
    simp only [before, after, addrVisit, List.mem_append, List.mem_flatMap, List.append_nil,
      List.nil_append, List.mem_singleton] at hs
    have ha := hs a (by tauto)
    refine ⟨⟨ha ▸ hat, ha ▸ hp, fun q hq => (hl q hq).congr fun b hb => hs b ?_,
      fun q hq => (hr q hq).congr fun b hb => hs b ?_⟩, ih hup fun b hb => hs b ?_⟩
    · exact .inl (.inr ⟨q, hq, hb⟩)
    · exact .inr (.inl ⟨q, hq, hb⟩)
    · rcases List.mem_append.mp hb with hb | hb
      · exact .inl (.inl (.inl hb))
      · exact .inr (.inr hb)

def Chain (nodes : Nat → BPlusTreeNode K V) : List Nat → Prop
  | [] => True
  | a :: l => (nodes a).next = l.head? ∧ Chain nodes l

theorem Chain.congr (h : Chain nodes l) (hs : ∀ a ∈ l, (nodes' a).next = (nodes a).next) :
    Chain nodes' l := by
  induction l with
  | nil => trivial
  | cons a l ih =>
    obtain ⟨ha, hl⟩ := h
    exact ⟨(hs a List.mem_cons_self).trans ha, ih hl fun b hb => hs b (List.mem_cons_of_mem _ hb)⟩

theorem Chain.insert {A B : List Nat} (h : Chain nodes (A ++ a :: B))
    (ha : (nodes' a).next = some b) (hnext : (nodes' b).next = (nodes a).next)
    (hs : ∀ c ∈ A ++ B, (nodes' c).next = (nodes c).next) : Chain nodes' (A ++ a :: b :: B) := by
  induction A with
  | nil =>
    obtain ⟨hhead, hB⟩ := h
    exact ⟨ha, hnext.trans hhead, hB.congr hs⟩
  | cons c A ih =>
    obtain ⟨hc, hrest⟩ := h
    refine ⟨(hs c List.mem_cons_self).trans (hc.trans ?_),
      ih hrest fun x hx => hs x (List.mem_cons_of_mem _ hx)⟩
    cases A <;> rfl

structure Shows (t : BPlusTree K V) (T : BTree Nat K V D) : Prop where
  root : t.root = some T.addr
  rep : Rep t.order t.nodes none T
  nodup : T.addrs.Nodup
  registered : ∀ a ∈ T.addrs, a < t.registered
  chain : Chain t.nodes T.leaves

variable {t t' : BPlusTree K V}

@[simp] theorem nodes_setNode_self (t : BPlusTree K V) (a : Nat) (n : BPlusTreeNode K V) :
    (t.setNode a n).nodes a = n := Function.update_self ..

theorem nodes_setNode_of_ne (h : b ≠ a) : (t.setNode a n).nodes b = t.nodes b :=
  Function.update_of_ne h ..

theorem nodes_setParent_self : (t.setParent a x).nodes a = { t.nodes a with parent := x } :=
  nodes_setNode_self ..

theorem nodes_setParent_of_ne (h : b ≠ a) : (t.setParent a x).nodes b = t.nodes b :=
  nodes_setNode_of_ne h

theorem nodes_register_self : (t.register n).nodes t.registered = n := nodes_setNode_self ..

theorem nodes_register_of_ne (h : b ≠ t.registered) : (t.register n).nodes b = t.nodes b :=
  nodes_setNode_of_ne h

theorem adopt_spec (t : BPlusTree K V) (x : Nat) (kids : List Nat) :
    ∃ t', t.adopt x (kids.map some) = some t' ∧ t'.root = t.root ∧ t'.registered = t.registered ∧
      t'.sizeCount = t.sizeCount ∧ t'.order = t.order ∧
      ∀ a, t'.nodes a = if a ∈ kids then { t.nodes a with parent := some x } else t.nodes a := by
  induction kids generalizing t with
  | nil => exact ⟨t, rfl, rfl, rfl, rfl, rfl, fun a => by simp⟩
  | cons c kids ih =>
    obtain ⟨t', hadopt, hroot, hreg, hsize, horder, hnodes⟩ := ih (t.setParent c (some x))
    refine ⟨t', hadopt, hroot, hreg, hsize, horder, fun a => ?_⟩
    rw [hnodes]
    rcases eq_or_ne a c with rfl | hac
    · simp [nodes_setParent_self]
    · simp [nodes_setParent_of_ne hac, hac]

end Cajeta.Collection.BPlusTree
