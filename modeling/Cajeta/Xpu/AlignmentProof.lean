import Cajeta.Lib.LowZeros
import Cajeta.Lib.While

/-!
# The alignment an address provably has

The number of low zero bits of every value of an expression graph, as the descending fixpoint of a
transfer rule for each operator. A value starts at all zeros and is only ever lowered.
-/

namespace Cajeta.Xpu.Alignment
open LowZeros While

inductive Opcode where
  | add | sub | or | xor | and | mul | shl
  | udiv | sdiv | urem | srem | lshr | ashr
deriving DecidableEq, Repr

/-- The casts. `other` stands for those that are not between integers. -/
inductive CastOp where
  | zext | sext | trunc
  | other
deriving DecidableEq, Repr

inductive MinMax where
  | umin | umax | smin | smax
deriving DecidableEq, Repr

/-- An index of an address computation: a field of a struct at a byte offset, or an element of an
array, vector or pointer by the bytes from one to the next. -/
inductive Index (n : Nat) where
  | field (operand : Fin n) (offset : Nat)
  | element (operand : Fin n) (stride : BitVec 64)
deriving Repr

namespace Index

def operand : Index n → Fin n
  | .field v _ | .element v _ => v

def isStruct : Index n → Bool
  | .field .. => true
  | .element .. => false

end Index

/-- A value of a graph of `n` values. `argument` and `other` come from outside of the expression. -/
inductive Value (n : Nat) where
  | constantInt (width : Nat) (bits : BitVec width)
  | argument
  | binary (op : Opcode) (l r : Fin n)
  | cast (op : CastOp) (width : Nat) (v : Fin n)
  | select (cond trueValue falseValue : Fin n)
  | phi (incoming : List (Fin n))
  | gep (pointer : Fin n) (indices : List (Index n))
  | minMax (op : MinMax) (a b : Fin n)
  | other

/-- `interior`: the values the algebra has a rule for. -/
def Value.interior : Value n → Bool
  | .binary op _ _ => op ∈ [Opcode.add, .sub, .or, .xor, .and, .mul, .shl]
  | .cast op _ _ => op ≠ .other
  | .select .. | .phi _ | .minMax .. => true
  | .gep _ indices => indices.all fun i => !i.isStruct
  | .constantInt .. | .argument | .other => false

def Value.isConstantInt : Value n → Bool
  | .constantInt .. => true
  | _ => false

/-- The operands that `collect` pushes, in the order of the pushes. -/
def Value.pushed : Value n → List (Fin n)
  | .select _ t f => [t, f]
  | .minMax _ a b => [a, b]
  | .binary _ l r => [l, r]
  | .cast _ _ v => [v]
  | .phi incoming => incoming
  | .gep pointer indices => pointer :: indices.map Index.operand
  | .constantInt .. | .argument | .other => []

/-- The values, which of them are integers or pointers, and what `computeKnownBits` answers. -/
structure Graph (n : Nat) where
  value : Fin n → Value n
  isIntOrPtrTy : Fin n → Bool
  minTrailingZeros : Fin n → Nat

def kAll : Nat := 64

/-! ## The proof -/

structure TrailingZeroProof (n : Nat) where
  graph : Graph n
  base : Option (Fin n)
  baseBits : Nat

/-- `val`: the low zeros of the values met so far. -/
abbrev Val (n : Nat) := Fin n → Option Nat

namespace TrailingZeroProof

def leaf (p : TrailingZeroProof n) (v : Fin n) : Nat :=
  if p.graph.isIntOrPtrTy v then min kAll (p.graph.minTrailingZeros v) else 0

/-- What `collect` fills: the values met so far, and the interior ones in order. -/
structure Collected (n : Nat) where
  val : Val n
  order : List (Fin n)

def collectStep (p : TrailingZeroProof n) :
    List (Fin n) × Collected n → Except Unit (Next (List (Fin n) × Collected n) (Collected n))
  | ([], c) => .ok (.done c)
  | (v :: work, c) =>
    if (p.graph.value v).isConstantInt ∨ some v = p.base ∨ (c.val v).isSome then
      .ok (.again (work, c))
    else if (p.graph.value v).interior then
      .ok (.again ((p.graph.value v).pushed.reverse ++ work,
        ⟨Function.update c.val v (some kAll), c.order ++ [v]⟩))
    else .ok (.again (work, { c with val := Function.update c.val v (some (p.leaf v)) }))

def collect (p : TrailingZeroProof n) (fuel : Nat) (root : Fin n) : Except Unit (Collected n) :=
  loop () p.collectStep fuel ([root], ⟨fun _ => none, []⟩)

def get (p : TrailingZeroProof n) (val : Val n) (v : Fin n) : Nat :=
  match p.graph.value v with
  | .constantInt width bits => if bits = 0 then kAll else min kAll (countrZero width bits.toNat)
  | _ => if some v = p.base then p.baseBits else (val v).getD 0

def scaleTz (stride : BitVec 64) : Nat :=
  if stride = 0 then kAll else countrZero 64 stride.toNat

def transfer (p : TrailingZeroProof n) (val : Val n) (v : Fin n) : Nat :=
  match p.graph.value v with
  | .binary .and l r => max (p.get val l) (p.get val r)
  | .binary .mul l r => min kAll (p.get val l + p.get val r)
  | .binary .shl l r =>
    match p.graph.value r with
    | .constantInt _ bits => min kAll (p.get val l + min bits.toNat kAll)
    | _ => p.get val l
  | .binary _ l r => min (p.get val l) (p.get val r)
  | .cast _ _ v => p.get val v
  | .select _ t f => min (p.get val t) (p.get val f)
  | .phi incoming => incoming.foldl (fun tz v => min tz (p.get val v)) kAll
  | .gep pointer indices =>
    indices.foldl (fun tz i => match i with
      | .field .. => tz
      | .element v stride => min tz (min kAll (p.get val v + scaleTz stride))) (p.get val pointer)
  | .minMax _ a b => min (p.get val a) (p.get val b)
  | .constantInt .. | .argument | .other => 0

/-- One value of a pass, and whether the pass has changed one. -/
def lower (p : TrailingZeroProof n) (acc : Val n × Bool) (v : Fin n) : Val n × Bool :=
  let now := p.transfer acc.1 v
  if now < (acc.1 v).getD 0 then (Function.update acc.1 v (some now), true) else acc

def pass (p : TrailingZeroProof n) (order : List (Fin n)) (val : Val n) :
    Except Unit (Next (Val n) (Val n)) :=
  let (val, changed) := order.foldl p.lower (val, false)
  if changed then .ok (.again val) else .ok (.done val)

/-- `of`, with fuel for its two loops. -/
def of (p : TrailingZeroProof n) (fuel : Nat) (v : Fin n) : Except Unit Nat := do
  let c ← p.collect fuel v
  let val ← loop () (p.pass c.order) fuel c.val
  .ok (p.get val v)

end TrailingZeroProof

def kMaxProvenAlignment : BitVec 64 := 16

def baseBits (baseAlign : BitVec 64) : Nat :=
  if baseAlign ≠ 0 then countrZero 64 baseAlign.toNat else 0

def provenAlignment (graph : Graph n) (fuel : Nat) (addr : Fin n) (base : Option (Fin n))
    (baseAlign : BitVec 64) : Except Unit Nat := do
  let tz ← TrailingZeroProof.of ⟨graph, base, baseBits baseAlign⟩ fuel addr
  .ok (2 ^ min tz (countrZero 64 kMaxProvenAlignment.toNat))

end Cajeta.Xpu.Alignment
