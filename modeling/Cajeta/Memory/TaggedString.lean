import Cajeta.Lib.Bytes
import Mathlib.Logic.Function.Basic
import Mathlib.Tactic.Common

/-!
# Tagged strings

The 16 bytes of a string: a length word with tag bits, and 12 bytes that are the text of a short
string or else an offset and the root of a long one. The routines that make a string from another
one read and write these bytes and the roots.
-/

namespace Cajeta.Memory.TaggedString

abbrev Addr := Nat

abbrev Text := List UInt8

/-- `CAJ_STR_LEN_MASK` -/
def lenMask : BitVec 32 := 0x1FFFFFFF

/-- `CAJ_STR_SHARED_BIT` -/
def sharedBit : BitVec 32 := 0x80000000

/-- `CAJ_STR_BORROW_BIT` -/
def borrowBit : BitVec 32 := 0x40000000

/-- `CAJ_STR_STATIC_BIT` -/
def staticBit : BitVec 32 := 0x20000000

/-- `CAJ_STR_INLINE_CAP` -/
def inlineCap : Nat := 12

/-- Up to this many bytes `resolve` copies. -/
def copySmall : Nat := 256

/-- A buffer under an array header. -/
structure Root where
  /-- The count word, whose sign bit says that the buffer is shared. -/
  count : BitVec 64
  /-- What is behind the count word. -/
  bytes : List UInt8
  /-- Its entry in the shared table. -/
  stakes : Option Int
  /-- It is in a segment that faults on a write. -/
  readOnly : Bool

structure Heap where
  roots : Addr → Option Root

namespace Heap

/-- `n` bytes at `base + 8 + pos`, all of them behind the count word of the root. -/
def read (m : Heap) (base : Addr) (pos : Int) (n : Nat) : Option (List UInt8) :=
  match m.roots base with
  | none => none
  | some r =>
    if 0 ≤ pos ∧ pos.toNat + n ≤ r.bytes.length then some (Bytes.slice r.bytes pos.toNat n)
    else none

/-- `caj_str_new_root`, in the buffer that the allocator returns. -/
def newRoot (m : Heap) (buf : Addr) (src : Text) : Heap :=
  ⟨Function.update m.roots buf
    (some ⟨BitVec.ofNat 64 src.length, src ++ [0], none, false⟩)⟩

/-- `__cajeta_shared_promote`; `grow` tells whether the table has or gets room. -/
def promote (m : Heap) (grow : Bool) (base : Addr) (stakes : Int) : Option Heap :=
  if base = 0 then some m
  else
    match m.roots base with
    | none => none
    | some r =>
      match r.stakes with
      | some rc => some ⟨Function.update m.roots base
          (some { r with stakes := some (rc + stakes - 1) })⟩
      | none =>
        if r.readOnly then none
        else
          some ⟨Function.update m.roots base (some { r with
            count := r.count ||| 0x8000000000000000
            stakes := if grow then some stakes else none })⟩

/-- `__cajeta_shared_retain` -/
def retain (m : Heap) (base : Addr) : Heap :=
  ⟨Function.update m.roots base
    ((m.roots base).map fun r => { r with stakes := r.stakes.map (· + 1) })⟩

end Heap

/-- `cajeta_string_layout` -/
structure Layout where
  lenTag : BitVec 32
  data : List UInt8
  size : data.length = 12

namespace Layout

/-- `caj_str_len` -/
def len (s : Layout) : Nat := (s.lenTag &&& lenMask).toNat

/-- `caj_str_is_pointer` -/
def isPointer (s : Layout) : Bool := inlineCap < s.len

/-- `caj_str_off` -/
def off (s : Layout) : Int := (Bytes.ofLE (s.data.take 4) : Int).bmod 4294967296

/-- `caj_str_base` -/
def base (s : Layout) : Addr := Bytes.ofLE (s.data.drop 4)

/-- The `n` bytes at `caj_str_ptr(s) + begin`. -/
def read (m : Heap) (s : Layout) (begin : Int) (n : Nat) : Option (List UInt8) :=
  if s.isPointer then m.read s.base (s.off + begin) n
  else if 0 ≤ begin ∧ begin.toNat + n ≤ 12 then some (Bytes.slice s.data begin.toNat n)
  else none

/-- `caj_str_set_inline`; more text than `data` holds would be written over what is behind it. -/
def setInline (src : Text) : Option Layout :=
  if h : src.length ≤ 12 then
    some {
      lenTag := BitVec.ofNat 32 src.length
      data := src ++ List.replicate (12 - src.length) 0
      size := by rw [List.length_append, List.length_replicate]; omega }
  else none

/-- `caj_str_set_window` -/
def setWindow (lenTag : BitVec 32) (off : Int) (base : Addr) : Layout where
  lenTag := lenTag
  data := Bytes.toLE 4 (off % 4294967296).toNat ++ Bytes.toLE 8 base
  size := by rw [List.length_append, Bytes.length_toLE, Bytes.length_toLE]

end Layout

/-- What a call gets from outside: the buffer of the allocator, the answer of
`__cajeta_arena_owns`, and whether the shared table grows. -/
structure Env where
  buf : Addr
  arenaOwns : Addr → Bool
  grow : Bool

/-- `__cajeta_string_resolve` -/
def resolve (env : Env) (m : Heap) (src : Layout) : Option (Heap × Layout) :=
  if !src.isPointer then do
    let out ← Layout.setInline (src.data.take src.len)
    return (m, out)
  else if src.lenTag &&& staticBit ≠ 0 then
    return (m, .setWindow (BitVec.ofNat 32 src.len ||| staticBit) src.off src.base)
  else if env.arenaOwns src.base ∨ src.len ≤ copySmall then do
    let text ← m.read src.base src.off src.len
    return (m.newRoot env.buf text, .setWindow (BitVec.ofNat 32 src.len) 0 env.buf)
  else do
    let m ← m.promote env.grow src.base 2
    return (m, .setWindow (BitVec.ofNat 32 src.len ||| sharedBit) src.off src.base)

/-- `__cajeta_string_slice_borrow` -/
def sliceBorrow (m : Heap) (src : Layout) (begin len : Int) : Option (Heap × Layout) :=
  if len ≤ 0 ∨ src.len = 0 then do
    let out ← Layout.setInline []
    return (m, out)
  else if len ≤ inlineCap then do
    let text ← src.read m begin len.toNat
    let out ← Layout.setInline text
    return (m, out)
  else
    let tag := BitVec.ofInt 32 len ||| borrowBit ||| src.lenTag &&& staticBit
    return (m, .setWindow tag (src.off + begin) src.base)

/-- `__cajeta_string_slice` -/
def slice (env : Env) (m : Heap) (src : Layout) (begin len : Int) : Option (Heap × Layout) :=
  if len ≤ 0 ∨ src.len = 0 then do
    let out ← Layout.setInline []
    return (m, out)
  else if len ≤ inlineCap then do
    let text ← src.read m begin len.toNat
    let out ← Layout.setInline text
    return (m, out)
  else if src.lenTag &&& staticBit = 0 ∧ env.arenaOwns src.base then do
    let text ← m.read src.base (src.off + begin) len.toNat
    return (m.newRoot env.buf text, .setWindow (BitVec.ofInt 32 len) 0 env.buf)
  else if src.lenTag &&& staticBit ≠ 0 then
    return (m, .setWindow (BitVec.ofInt 32 len ||| staticBit) (src.off + begin) src.base)
  else if src.lenTag &&& sharedBit ≠ 0 then
    return (m.retain src.base,
      .setWindow (BitVec.ofInt 32 len ||| sharedBit) (src.off + begin) src.base)
  else do
    let m ← m.promote env.grow src.base 2
    return (m, .setWindow (BitVec.ofInt 32 len ||| sharedBit) (src.off + begin) src.base)

/-- `__cajeta_object_clone` of a string -/
def clone (env : Env) (m : Heap) (src : Layout) : Option (Heap × Layout) :=
  if src.len ≤ inlineCap then do
    let text ← src.read m 0 src.len
    let out ← Layout.setInline text
    return (m, out)
  else do
    let text ← src.read m 0 src.len
    return (m.newRoot env.buf text, .setWindow (BitVec.ofNat 32 src.len) 0 env.buf)

/-- An operation on the string at an index. -/
inductive Op where
  | slice (i : Nat) (b e : Nat)
  | sliceBorrow (i : Nat) (b e : Nat)
  | resolve (i : Nat)
  | clone (i : Nat)

/-- The memory, and every string that was made. -/
structure State where
  mem : Heap
  strings : List Layout

def Op.index : Op → Nat
  | .slice i _ _ => i
  | .sliceBorrow i _ _ => i
  | .resolve i => i
  | .clone i => i

def Op.apply (env : Env) (m : Heap) (src : Layout) : Op → Option (Heap × Layout)
  | .slice _ b e => TaggedString.slice env m src b (e - b)
  | .sliceBorrow _ b e => TaggedString.sliceBorrow m src b (e - b)
  | .resolve _ => TaggedString.resolve env m src
  | .clone _ => TaggedString.clone env m src

namespace State

/-- `none` if the operation reads or writes where it may not. -/
def step (s : State) (env : Env) (op : Op) : Option State :=
  match s.strings[op.index]? with
  | none => none
  | some src => (op.apply env s.mem src).map fun (m, out) => ⟨m, s.strings ++ [out]⟩

def run (s : State) : List (Env × Op) → Option State
  | [] => some s
  | (env, op) :: ops =>
    match s.step env op with
    | none => none
    | some s' => s'.run ops

end State

end Cajeta.Memory.TaggedString
