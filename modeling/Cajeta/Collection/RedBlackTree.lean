import Mathlib.Data.Set.Function
import Cajeta.Lib.RedBlack
import Cajeta.Lib.SortedMap

/-!
# `cajeta.collection.RedBlackTree`

The ordered map over nodes that are linked to their children and their parent. Nodes live at
addresses in the order they are registered, and `none` is the null pointer. An operation that would
follow a null pointer has no result, and neither has a loop that does not end within its fuel.

What the source writes twice, once for each side, is one definition with the side as a parameter.
-/

namespace Cajeta.Collection

structure RedBlackNode (K V : Type) where
  key : K
  value : V
  red : Bool := true
  left : Option Nat := none
  right : Option Nat := none
  parent : Option Nat := none
  deriving Inhabited

namespace RedBlackNode
variable {K V : Type}

def child (n : RedBlackNode K V) : Dir → Option Nat
  | .left => n.left
  | .right => n.right

def withChild (n : RedBlackNode K V) (d : Dir) (x : Option Nat) : RedBlackNode K V :=
  match d with
  | .left => { n with left := x }
  | .right => { n with right := x }

end RedBlackNode

structure RedBlackTree (K V : Type) where
  root : Option Nat
  nodes : Nat → RedBlackNode K V
  /-- How many nodes are registered: those at the addresses below. -/
  registered : Nat
  sizeCount : Nat

namespace RedBlackTree
variable {K V : Type}

def setNode (t : RedBlackTree K V) (a : Nat) (n : RedBlackNode K V) : RedBlackTree K V :=
  { t with nodes := Function.update t.nodes a n }

def setChild (t : RedBlackTree K V) (d : Dir) (a : Nat) (x : Option Nat) : RedBlackTree K V :=
  t.setNode a ((t.nodes a).withChild d x)

def setParent (t : RedBlackTree K V) (a : Nat) (x : Option Nat) : RedBlackTree K V :=
  t.setNode a { t.nodes a with parent := x }

def setRed (t : RedBlackTree K V) (a : Nat) (red : Bool) : RedBlackTree K V :=
  t.setNode a { t.nodes a with red }

/-- Makes `x` the parent of a child that is not null. -/
def adopt (t : RedBlackTree K V) (b : Option Nat) (x : Nat) : RedBlackTree K V :=
  match b with
  | some b => t.setParent b (some x)
  | none => t

/-- Puts `y` where the parent of `x`, or the root, points to `x`. -/
def replaceChild (d : Dir) (t : RedBlackTree K V) (x y : Nat) : RedBlackTree K V :=
  match (t.nodes x).parent with
  | none => { t with root := some y }
  | some p =>
    if (t.nodes p).child d = some x then t.setChild d p (some y)
    else t.setChild d.flip p (some y)

/-- Rotates around `x` towards the side `d`. -/
def rotate (d : Dir) (t : RedBlackTree K V) (x : Nat) : Option (RedBlackTree K V) := do
  let y ← (t.nodes x).child d.flip
  let t := t.setChild d.flip x ((t.nodes y).child d)
  let t := t.adopt ((t.nodes y).child d) x
  let t := t.setParent y (t.nodes x).parent
  let t := replaceChild d t x y
  let t := t.setChild d y (some x)
  return t.setParent x (some y)

def rotateLeft (t : RedBlackTree K V) (x : Nat) : Option (RedBlackTree K V) := rotate .left t x

def rotateRight (t : RedBlackTree K V) (x : Nat) : Option (RedBlackTree K V) := rotate .right t x

/-- Swaps the colours of the parent and the grandparent, and rotates around the grandparent. -/
def raise (d : Dir) (t : RedBlackTree K V) (z : Nat) : Option (RedBlackTree K V) := do
  let p ← (t.nodes z).parent
  let t := t.setRed p false
  let g ← (t.nodes p).parent
  let t := t.setRed g true
  rotate d.flip t g

/-- The round when the uncle is black. -/
def turn (d : Dir) (t : RedBlackTree K V) (z p : Nat) : Option (RedBlackTree K V × Nat) := do
  let (t, z) ← if (t.nodes p).child d.flip = some z then (rotate d t p).map (·, p)
    else some (t, z)
  return (← raise d t z, z)

/-- One round at a red parent on the side `d` of the grandparent. -/
def fixSide (d : Dir) (t : RedBlackTree K V) (z p g : Nat) : Option (RedBlackTree K V × Nat) :=
  match (t.nodes g).child d.flip with
  | some u =>
    if (t.nodes u).red then
      some (((t.setRed p false).setRed u false).setRed g true, g)
    else turn d t z p
  | none => turn d t z p

def insertFixupLoop : (fuel : Nat) → RedBlackTree K V → (z : Nat) → Option (RedBlackTree K V)
  | 0, _, _ => none
  | fuel + 1, t, z =>
    match (t.nodes z).parent with
    | none => some t
    | some p =>
      if (t.nodes p).red = false then some t
      else do
        -- The parent is red, so it is not the root.
        let g ← (t.nodes p).parent
        let (t, z) ← if (t.nodes g).left = some p then fixSide .left t z p g
          else fixSide .right t z p g
        insertFixupLoop fuel t z

def insertFixup (t : RedBlackTree K V) (z : Nat) : Option (RedBlackTree K V) := do
  let t ← insertFixupLoop (t.registered + 1) t z
  return t.setRed (← t.root) false

section
variable [LinearOrder K]

/-- Where the search for a key ends: at the node that holds it, or at a free side of a node. -/
inductive Place where
  | holds (a : Nat)
  | free (parent : Nat) (side : Dir)

def findPlace (t : RedBlackTree K V) (key : K) : (fuel parent : Nat) → Option Place
  | 0, _ => none
  | fuel + 1, parent =>
    if key < (t.nodes parent).key then
      match (t.nodes parent).left with
      | none => some (.free parent .left)
      | some l => findPlace t key fuel l
    else if (t.nodes parent).key < key then
      match (t.nodes parent).right with
      | none => some (.free parent .right)
      | some r => findPlace t key fuel r
    else some (.holds parent)

/-- A new red node in the registry, with its address. -/
def register (t : RedBlackTree K V) (n : RedBlackNode K V) : RedBlackTree K V :=
  { t.setNode t.registered n with registered := t.registered + 1 }

def put (t : RedBlackTree K V) (key : K) (value : V) : Option (RedBlackTree K V) :=
  match t.root with
  | none =>
    let r := t.registered
    let t := (t.register { key, value }).setRed r false
    some { t with root := some r, sizeCount := 1 }
  | some root => do
    match ← t.findPlace key t.registered root with
    | .holds a => return t.setNode a { t.nodes a with value }
    | .free parent side =>
      let z := t.registered
      let t := (t.register { key, value }).setParent z (some parent)
      let t := t.setChild side parent (some z)
      let t := { t with sizeCount := t.sizeCount + 1 }
      t.insertFixup z

/-- The node that holds a key. -/
def find (t : RedBlackTree K V) (key : K) : (fuel : Nat) → (cur : Option Nat) → Option (Option Nat)
  | _, none => some none
  | 0, some _ => none
  | fuel + 1, some cur =>
    if key < (t.nodes cur).key then find t key fuel (t.nodes cur).left
    else if (t.nodes cur).key < key then find t key fuel (t.nodes cur).right
    else some (some cur)

/-- The zero of the value type when the key is absent. -/
def get [Inhabited V] (t : RedBlackTree K V) (key : K) : Option V := do
  match ← t.find key t.registered t.root with
  | some a => return (t.nodes a).value
  | none => return default

def containsKey (t : RedBlackTree K V) (key : K) : Option Bool := do
  return (← t.find key t.registered t.root).isSome

end

def count (t : RedBlackTree K V) : Nat := t.sizeCount

def isEmpty (t : RedBlackTree K V) : Bool := t.root.isNone

/-- The last node on the way from `n` to the side `d`. -/
def outermost (t : RedBlackTree K V) (d : Dir) : (fuel n : Nat) → Option Nat
  | 0, _ => none
  | fuel + 1, n =>
    match (t.nodes n).child d with
    | none => some n
    | some m => outermost t d fuel m

def minNode (t : RedBlackTree K V) : Option (Option Nat) :=
  match t.root with
  | none => some none
  | some root => (t.outermost .left t.registered root).map some

def min [Inhabited K] (t : RedBlackTree K V) : Option K := do
  match ← t.minNode with
  | none => return default
  | some n => return (t.nodes n).key

def max [Inhabited K] (t : RedBlackTree K V) : Option K :=
  match t.root with
  | none => some default
  | some root => (t.outermost .right t.registered root).map fun n => (t.nodes n).key

def climb (t : RedBlackTree K V) : (fuel n : Nat) → (p : Option Nat) → Option (Option Nat)
  | _, _, none => some none
  | 0, _, some _ => none
  | fuel + 1, n, some p =>
    if (t.nodes p).right = some n then climb t fuel p (t.nodes p).parent else some (some p)

def successor (t : RedBlackTree K V) (node : Nat) : Option (Option Nat) :=
  match (t.nodes node).right with
  | some n => (t.outermost .left t.registered n).map some
  | none => t.climb t.registered node (t.nodes node).parent

def keysFrom (t : RedBlackTree K V) : (fuel : Nat) → (cur : Option Nat) → Option (List K)
  | _, none => some []
  | 0, some _ => none
  | fuel + 1, some cur => do
    let next ← t.successor cur
    return (t.nodes cur).key :: (← keysFrom t fuel next)

def keysInOrder (t : RedBlackTree K V) : Option (List K) := do
  keysFrom t t.registered (← t.minNode)

variable [LinearOrder K]

def new [Inhabited K] [Inhabited V] : RedBlackTree K V :=
  { root := none, nodes := fun _ => default, registered := 0, sizeCount := 0 }

def puts (t : RedBlackTree K V) (entries : List (K × V)) : Option (RedBlackTree K V) :=
  entries.foldlM (fun t e => t.put e.1 e.2) t

example : ((new : RedBlackTree Nat Nat).puts [(3, 1), (1, 2), (2, 3), (5, 4), (4, 5), (3, 9)]).bind
    keysInOrder = some [1, 2, 3, 4, 5] := by decide

end RedBlackTree
end Cajeta.Collection
