import Cajeta.Collection.HashMap
import Cajeta.Lib.LinkRing
import Cajeta.Lib.Lru

/-!
# `cajeta.collection.Cache`

A bounded cache with LRU eviction and optional expiry: a `HashMap` from keys to nodes, and the nodes
linked both ways from the most to the least recently used. Nodes live at addresses and `none` is the
null pointer.

Each operation is given the time that `Cajeta.currentTimeNanos()` answers during it. Ownership
titles are left out.
-/

namespace Cajeta.Collection

abbrev Addr := Nat

structure CacheNode (K V : Type) where
  key : K
  value : V
  /-- Nanoseconds, at the last `get` or `put`. -/
  accessedAt : Int
  prev : Option Addr := none
  next : Option Addr := none
  deriving Inhabited

structure Cache (K V : Type) where
  entries : HashMap K (Option Addr)
  nodes : Addr → CacheNode K V
  /-- Addresses from here on have not been handed out. -/
  allocated : Addr
  mruHead : Option Addr
  lruTail : Option Addr
  /-- An `int32`. -/
  maxEntries : Int
  /-- An `int64`; 0 disables expiry. -/
  maxAgeNanos : Int

namespace Cache
variable {K V : Type}

def setNode (c : Cache K V) (a : Addr) (n : CacheNode K V) : Cache K V :=
  { c with nodes := Function.update c.nodes a n }

/-- A new node, unlinked. -/
def alloc (c : Cache K V) (n : CacheNode K V) : Cache K V :=
  { c.setNode c.allocated n with allocated := c.allocated + 1 }

/-- Writes the `next` of a node, or the head when there is none. -/
def setNext (c : Cache K V) (p y : Option Addr) : Cache K V :=
  match p with
  | some a => c.setNode a { c.nodes a with next := y }
  | none => { c with mruHead := y }

/-- Writes the `prev` of a node, or the tail when there is none. -/
def setPrev (c : Cache K V) (n y : Option Addr) : Cache K V :=
  match n with
  | some a => c.setNode a { c.nodes a with prev := y }
  | none => { c with lruTail := y }

def linkAtHead (c : Cache K V) (a : Addr) : Cache K V :=
  let c := c.setPrev (some a) none
  let c := c.setNext (some a) c.mruHead
  let c := if c.mruHead.isSome then c.setPrev c.mruHead (some a) else c
  let c := { c with mruHead := some a }
  if c.lruTail.isNone then { c with lruTail := some a } else c

def unlinkOnly (c : Cache K V) (a : Addr) : Cache K V :=
  let c := c.setNext (c.nodes a).prev (c.nodes a).next
  let c := c.setPrev (c.nodes a).next (c.nodes a).prev
  let c := c.setPrev (some a) none
  c.setNext (some a) none

def moveToHead (c : Cache K V) (a : Addr) : Cache K V :=
  if some a = c.mruHead then c else (c.unlinkOnly a).linkAtHead a

def removeNode (c : Cache K V) (a : Addr) : Cache K V := c.unlinkOnly a

/-- The subtraction wraps at 64 bits. -/
def isExpired (c : Cache K V) (a : Addr) (nowNanos : Int) : Bool :=
  if c.maxAgeNanos = 0 then false
  else (nowNanos - (c.nodes a).accessedAt).bmod (2 ^ 64) > c.maxAgeNanos

/-! ## Operations -/

variable [Inhabited K] [Inhabited V] [BEq K] [Hashable K]

def new (maxEntries : Int) : Option (Cache K V) := do
  let entries ← HashMap.new 16
  return { entries, nodes := fun _ => default, allocated := 0, mruHead := none, lruTail := none,
           maxEntries, maxAgeNanos := 0 }

def setMaxAge (c : Cache K V) (maxAge : Int) : Cache K V := { c with maxAgeNanos := maxAge }

def count (c : Cache K V) : Nat := c.entries.count

def containsKey (c : Cache K V) (now : Int) (key : K) : Option Bool := do
  match ← c.entries.get key with
  | none => return false
  | some n => return !c.isExpired n now

def removeEntry (c : Cache K V) (key : K) : Option (Cache K V) := do
  let (_, entries) ← c.entries.remove key
  return { c with entries }

def get (c : Cache K V) (now : Int) (key : K) : Option (Option V × Cache K V) := do
  match ← c.entries.get key with
  | none => return (none, c)
  | some node =>
    if c.isExpired node now then
      let c ← (c.removeNode node).removeEntry key
      return (none, c)
    else
      let c := c.setNode node { c.nodes node with accessedAt := now }
      let c := c.moveToHead node
      return (some (c.nodes node).value, c)

def evictLru (c : Cache K V) : Option (Cache K V) :=
  match c.lruTail with
  | none => some c
  | some victim =>
    let c := c.unlinkOnly victim
    c.removeEntry (c.nodes victim).key

def put (c : Cache K V) (now : Int) (key : K) (value : V) : Option (Cache K V) := do
  match ← c.entries.get key with
  | some node =>
    let c := c.setNode node { c.nodes node with value }
    let c := c.setNode node { c.nodes node with accessedAt := now }
    return c.moveToHead node
  | none =>
    let fresh := c.allocated
    let c := c.alloc { key, value, accessedAt := now }
    let c := c.linkAtHead fresh
    let entries ← c.entries.put key (some fresh)
    let c := { c with entries }
    if (c.entries.count : Int) > c.maxEntries then c.evictLru else return c

def remove (c : Cache K V) (key : K) : Option (Cache K V) := do
  match ← c.entries.get key with
  | none => return c
  | some existing => (c.removeNode existing).removeEntry key

def clear (c : Cache K V) : Option (Cache K V) := do
  let entries ← HashMap.new 16
  return { c with entries, mruHead := none, lruTail := none }

/-- The walk from the tail; `none` when the fuel does not reach its end. -/
def evictLoop (now : Int) : (fuel : Nat) → (cursor : Option Addr) → Cache K V → Option (Cache K V)
  | 0, _, _ => none
  | _ + 1, none, c => some c
  | fuel + 1, some cursor, c =>
    if !c.isExpired cursor now then some c
    else do
      let prev := (c.nodes cursor).prev
      let c := c.removeNode cursor
      let c ← c.removeEntry (c.nodes cursor).key
      evictLoop now fuel prev c

def evict (c : Cache K V) (now : Int) : Option (Cache K V) :=
  if c.maxAgeNanos = 0 then some c else evictLoop now (c.count + 1) c.lruTail c

/-- One call, at the time given. -/
def call (c : Cache K V) (now : Int) : Lru.Op K V → Option (Lru.Ret V × Cache K V)
  | .put k v => (c.put now k v).map (.unit, ·)
  | .get k => (c.get now k).map fun (v, c) => (.value v, c)
  | .containsKey k => (c.containsKey now k).map fun b => (.bool b, c)
  | .remove k => (c.remove k).map (.unit, ·)
  | .evict => (c.evict now).map (.unit, ·)
  | .clear => c.clear.map (.unit, ·)
  | .setMaxAge maxAge => some (.unit, c.setMaxAge maxAge)
  | .count => some (.int c.count, c)

/-- The links, the null pointer standing for both ends of the list. -/
def links (c : Cache K V) : LinkRing Addr where
  next
    | some a => (c.nodes a).next
    | none => c.mruHead
  prev
    | some a => (c.nodes a).prev
    | none => c.lruTail

def list (c : Cache K V) : List Addr := c.links.walk c.count c.mruHead

def entryOf (c : Cache K V) (a : Addr) : Lru.Entry K V :=
  ⟨(c.nodes a).key, (c.nodes a).value, (c.nodes a).accessedAt⟩

def lru (c : Cache K V) (ns : List Addr) : Lru K V :=
  ⟨ns.map c.entryOf, c.maxEntries, c.maxAgeNanos⟩

end Cache
end Cajeta.Collection
