import Cajeta.Lib.Cells
import Cajeta.Lib.Probe
import Mathlib.Data.Finset.Card
import Mathlib.Data.Nat.Bitwise

/-!
# The live-allocation set

A table of pointers with linear probing. A claim leaves a tombstone, an add takes the first slot on
its probe that holds no pointer, and counters of pointers and tombstones say when the table is
rebuilt. The allocation of a table succeeds.
-/

namespace Cajeta.Memory

open Cells LinearProbe

/-- A taken slot; `NULL` is no entry. -/
inductive LiveSlot where
  | tombstone
  | ptr (p : Nat)
  deriving DecidableEq

/-- `CAJETA_LIVE_SET_TOMBSTONE` -/
def tombstoneAddr : Nat := 1

/-- `CAJETA_LIVE_SET_INITIAL_CAPACITY` -/
def initialCapacity : Nat := 262144

/-- `(size_t) n`, of an `int`. -/
def sizeT (n : Int) : Nat := (n % 18446744073709551616).toNat

/-- Without a table `table` is `none` and `cap` is zero. -/
structure LiveSet where
  table : Option (List (Option LiveSlot))
  cap : Nat
  count : Int
  tombstones : Nat
  deriving DecidableEq

namespace LiveSet

def new : LiveSet := ⟨none, 0, 0, 0⟩

/-- The loop of `__cajeta_live_set_insert_into`, with `n` of the `cap` slots left to try. -/
def insertLoop (cap p : Nat) :
    (n : Nat) → (i : Nat) → (table : List (Option LiveSlot)) → List (Option LiveSlot) × Bool
  | 0, _, table => (table, false)
  | n + 1, i, table =>
    let idx := (p >>> 3 &&& (cap - 1)) + i &&& (cap - 1)
    match slot table idx with
    | none | some .tombstone => (table.set idx (some (.ptr p)), true)
    | some (.ptr q) => if q = p then (table, false) else insertLoop cap p n (i + 1) table

/-- `__cajeta_live_set_insert_into` -/
def insertInto (table : List (Option LiveSlot)) (cap p : Nat) : List (Option LiveSlot) × Bool :=
  insertLoop cap p cap 0 table

/-- The loop of the rehash over the old slots. -/
def reinsert (want : Nat) :
    (old : List (Option LiveSlot)) → (fresh : List (Option LiveSlot)) → List (Option LiveSlot)
  | [], fresh => fresh
  | some (.ptr p) :: old, fresh => reinsert want old (insertInto fresh want p).1
  | _ :: old, fresh => reinsert want old fresh

/-- `__cajeta_live_set_rehash` -/
def rehash (s : LiveSet) (want : Nat) : LiveSet :=
  { s with
    table := some (reinsert want (s.table.getD []) (.replicate want none))
    cap := want
    tombstones := 0 }

def grown (s : LiveSet) : LiveSet :=
  let s := if s.table = none then s.rehash initialCapacity else s
  let used := sizeT s.count + s.tombstones
  if used ≥ s.cap * 3 / 4 then
    s.rehash (if sizeT s.count ≥ s.cap / 2 then s.cap * 2 else s.cap)
  else s

/-- `__cajeta_live_set_add_locked` -/
def add (s : LiveSet) (p : Nat) : LiveSet :=
  if p = 0 ∨ p = tombstoneAddr then s
  else
    let s := s.grown
    let (table, inserted) := insertInto (s.table.getD []) s.cap p
    { s with table := some table, count := if inserted then i32 (s.count + 1) else s.count }

/-- The loop of `__cajeta_live_set_remove_locked`, with `n` slots left to try. -/
def removeLoop (cap p : Nat) :
    (n : Nat) → (i : Nat) → (table : List (Option LiveSlot)) → Option (List (Option LiveSlot))
  | 0, _, _ => none
  | n + 1, i, table =>
    let idx := (p >>> 3 &&& (cap - 1)) + i &&& (cap - 1)
    match slot table idx with
    | none => none
    | some .tombstone => removeLoop cap p n (i + 1) table
    | some (.ptr q) =>
      if q = p then some (table.set idx (some .tombstone)) else removeLoop cap p n (i + 1) table

/-- `__cajeta_live_set_remove_locked` -/
def claim (s : LiveSet) (p : Nat) : LiveSet × Bool :=
  if p = 0 ∨ p = tombstoneAddr then (s, false)
  else
    match s.table with
    | none => (s, false)
    | some table =>
      match removeLoop s.cap p s.cap 0 table with
      | none => (s, false)
      | some table =>
        ({ s with
            table := some table, count := i32 (s.count - 1), tombstones := s.tombstones + 1 },
          true)

/-- `__cajeta_live_set_population` -/
def population (s : LiveSet) : Int := s.count

inductive Call where
  | add (p : Nat)
  | claim (p : Nat)
  deriving DecidableEq

def run : LiveSet → List Call → LiveSet × List Bool
  | s, [] => (s, [])
  | s, .add p :: calls => run (s.add p) calls
  | s, .claim p :: calls =>
    let (s, won) := s.claim p
    let (s, rest) := run s calls
    (s, won :: rest)

end LiveSet

def setRun : Finset Nat → List LiveSet.Call → Finset Nat × List Bool
  | S, [] => (S, [])
  | S, .add p :: calls => setRun (insert p S) calls
  | S, .claim p :: calls =>
    let (S', rest) := setRun (S.erase p) calls
    (S', decide (p ∈ S) :: rest)

end Cajeta.Memory
