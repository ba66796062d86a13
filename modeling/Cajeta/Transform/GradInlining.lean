import Mathlib.Logic.Function.Basic
import Mathlib.Logic.Relation
import Mathlib.Tactic.Common

/-!
# Inlining the helpers of a differentiated body

The builder of the forward graph inlines a helper where it is called: it looks the call up and
lowers the helper's body in place, calls in it included. So the recursion follows the calls and not
the syntax, and it comes to an end exactly when nothing is lowered again inside itself with the same
ranks of the names in scope.
-/

namespace Cajeta.Transform

inductive MathFn where
  | exp
  | log
  | sqrt
deriving DecidableEq, Repr

def MathFn.text : MathFn → String
  | .exp => "exp"
  | .log => "log"
  | .sqrt => "sqrt"

inductive Prim where
  | add
  | mul
  | sub
  | div
  | negate
  | math (fn : MathFn)
deriving DecidableEq, Repr

def Prim.name : Prim → String
  | .add => "add"
  | .mul => "mul"
  | .sub => "sub"
  | .div => "div"
  | .negate => "negate"
  | .math fn => fn.text

inductive BinaryOp where
  | mul
  | add
  | sub
  | div
  | other (symbol : Option String)
deriving DecidableEq, Repr

def BinaryOp.prim : BinaryOp → Option Prim
  | .mul => some .mul
  | .add => some .add
  | .sub => some .sub
  | .div => some .div
  | .other _ => none

def BinaryOp.symbol : BinaryOp → Option String
  | .mul => some "*"
  | .add => some "+"
  | .sub => some "-"
  | .div => some "/"
  | .other s => s

inductive UnaryOp where
  | negative
  | other
deriving DecidableEq, Repr

/-! ## Names in scope -/

abbrev Scope (β : Type*) := String → Option β

def Scope.bind (s : Scope β) (n : String) (v : β) : Scope β := Function.update s n (some v)

def Scope.erase (s : Scope β) (n : String) : Scope β := Function.update s n none

/-- The bindings inside a helper, and what is put back after it. -/
structure Entered (β : Type*) where
  scope : Scope β
  shadowed : List (String × β) := []
  added : List String := []

def Entered.enter (e : Entered β) (n : String) (v : β) : Entered β :=
  match e.scope n with
  | some old => { e with scope := e.scope.bind n v, shadowed := e.shadowed ++ [(n, old)] }
  | none => { e with scope := e.scope.bind n v, added := e.added ++ [n] }

def Scope.enter (s : Scope β) (ps : List (String × β)) : Entered β :=
  ps.foldl (fun e p => e.enter p.1 p.2) ⟨s, [], []⟩

/-- The bindings after the helper, `s` being those its body leaves. -/
def Entered.leave (e : Entered β) (s : Scope β) : Scope β :=
  e.added.foldl Scope.erase (e.shadowed.foldl (fun s p => s.bind p.1 p.2) s)

/-! ## Refusals -/

def unsupportedBinary (op : BinaryOp) : String :=
  "unsupported binary operator '" ++ op.symbol.getD "?" ++
    "' in the transformed body (v1 supports + - * / and unary -)"

def unsupportedUnary : String :=
  "Grad: unsupported unary operator in the differentiated body (v1: unary -)"

def cannotInline (op : String) : String :=
  "Grad: cannot inline '" ++ op ++ "' — it must be a single-return-expression function whose " ++
    "parameter count matches the call"

def unsupportedExpression : String :=
  "Grad: unsupported expression in the differentiated body (v1 supports + - * and unary - over " ++
    "scalars, and Tensor.mul/add/sub/matmul/sum over tensors)"

namespace Inlining

/-! ## Bodies and helpers -/

/-- The body of a function. A call has the text of its receiver where that is a name, and its
explicit type arguments as written. -/
inductive Expression where
  | identifier (textValue : String)
  | literal (rawValue : String)
  | binary (op : BinaryOp) (left right : Expression)
  | unary (op : UnaryOp) (operand : Expression)
  | call (recv op typeArgs : String) (args : List Expression)
  | other

/-- How a call resolves. A helper that is not held constant has its parameters and, when it returns
a single expression, that expression. -/
inductive InlineTarget where
  | notFound
  | noGrad (qualifiedName : String) (returnIsTensor : Bool)
  | inlined (paramNames : List String) (body : Option Expression)

/-- A function that calls can resolve to: the receiver, the name and the number of arguments of such
a call, and what it resolves to. -/
structure Helper where
  recv : String
  op : String
  arity : Nat
  target : InlineTarget

/-- What the builder is given with a body: the ranks of the parameters, the functions that can be
seen, and the source text of an argument. -/
structure Env where
  paramIsTensor : String → Option Bool
  helpers : List Helper
  sourceText : Expression → String

def Env.resolveCall (env : Env) (recv op : String) (arity : Nat) : InlineTarget :=
  ((env.helpers.find? fun h => h.recv = recv ∧ h.op = op ∧ h.arity = arity).map (·.target)).getD
    .notFound

/-! ## The forward graph -/

structure AdNode where
  valueExpr : String
  isInputParam : Bool := false
  primitive : String := ""
  operands : List Nat := []
  isTensor : Bool := false
deriving DecidableEq, Repr

structure Dag where
  nodes : List AdNode := []
  paramIdx : String → Option Nat := fun _ => none
  bindings : Scope Nat := fun _ => none

namespace Dag

def push (d : Dag) (nd : AdNode) : Nat × Dag :=
  (d.nodes.length, { d with nodes := d.nodes ++ [nd] })

def valueExpr (d : Dag) (i : Nat) : String := (d.nodes[i]?).elim "" (·.valueExpr)

def isTensor (d : Dag) (i : Nat) : Bool := (d.nodes[i]?).elim false (·.isTensor)

/-- The values of nodes as the arguments of a call. -/
def valueExprs (d : Dag) (is : List Nat) : String := ", ".intercalate (is.map d.valueExpr)

/-- The node of an input parameter, which is built once. -/
def internParam (d : Dag) (name : String) (rank : Bool) : Nat × Dag :=
  match d.paramIdx name with
  | some i => (i, d)
  | none =>
    let r := d.push { valueExpr := name, isInputParam := true, isTensor := rank }
    (r.1, { r.2 with paramIdx := Function.update d.paramIdx name (some r.1) })

end Dag

def tensorOps : List String :=
  ["mul", "add", "sub", "matmul", "sum", "exp", "log", "sqrt", "mean", "relu", "addScalar",
    "subScalar", "mulScalar", "divScalar", "std"]

def tensorUnary : List String := ["sum", "exp", "log", "sqrt", "mean", "relu"]

def mathUnary : List String := ["exp", "log", "sqrt"]

def operandCount (op : String) : Nat := if op ∈ tensorUnary ∨ op = "std" then 1 else 2

def rankName (isTensor : Bool) : String := if isTensor then "tensor" else "scalar"

/-- Why a tensor operation refuses operands of these ranks. -/
def rankMismatch (op typeArgs : String) (ranks : List Bool) : Option String :=
  if op = "matmul" then
    match ranks with
    | [l, r] =>
      if !l || !r then
        some ("Tensor.matmul" ++ typeArgs ++ " rank mismatch: left operand is " ++ rankName l ++
          ", right operand is " ++ rankName r ++ " (matmul contracts two tensors)")
      else none
    | _ => none
  else if op = "sum" then
    if ranks = [false] then
      some ("Tensor.sum" ++ typeArgs ++ " expects a tensor operand, got scalar")
    else none
  else none

/-- What lowering yields: nothing as long as it has not come back, else an error or a value. -/
abbrev Lowering := ExceptT String Option

/-- Lowers expressions from left to right, up to the first that is refused. -/
def visitAll (visit : Expression → Dag → Lowering (Nat × Dag)) :
    List Expression → Dag → Lowering (List Nat × Dag)
  | [], d => pure ([], d)
  | e :: es, d => do
    let (i, d) ← visit e d
    let (is, d) ← visitAll visit es d
    pure (i :: is, d)

/-- The node of an expression, `fuel` being how deep the recursion may go. -/
def buildNode (env : Env) : Nat → Expression → Dag → Lowering (Nat × Dag)
  | 0, _, _ => ExceptT.mk none
  | _ + 1, .identifier name, d =>
    match d.bindings name with
    | some i => pure (i, d)
    | none =>
      match env.paramIsTensor name with
      | some rank => pure (d.internParam name rank)
      | none => pure (d.push { valueExpr := name })
  | _ + 1, .literal raw, d => pure (d.push { valueExpr := raw })
  | fuel + 1, .binary op left right, d =>
    match op.prim with
    | none => throw (unsupportedBinary op)
    | some p => do
      let (is, d) ← visitAll (buildNode env fuel) [left, right] d
      pure (d.push {
        valueExpr :=
          "(" ++ (" " ++ op.symbol.getD "?" ++ " ").intercalate (is.map d.valueExpr) ++ ")"
        primitive := p.name
        operands := is })
  | fuel + 1, .unary op operand, d =>
    match op with
    | .other => throw unsupportedUnary
    | .negative => do
      let (is, d) ← visitAll (buildNode env fuel) [operand] d
      pure (d.push {
        valueExpr := "-(" ++ d.valueExprs is ++ ")"
        primitive := "negate"
        operands := is })
  | fuel + 1, .call recv op typeArgs args, d =>
    if recv = "Math" ∧ op ∈ mathUnary then
      if args.length ≠ 1 then throw ("malformed Math." ++ op ++ " in the transformed body")
      else do
        let (is, d) ← visitAll (buildNode env fuel) args d
        pure (d.push {
          valueExpr := "Math." ++ op ++ "(" ++ d.valueExprs is ++ ")"
          primitive := op
          operands := is })
    else if recv = "Tensor" ∧ op ∈ tensorOps then
      if args.length < operandCount op then
        throw ("Grad: malformed Tensor." ++ op ++ " in the differentiated body")
      else do
        let (is, d) ← visitAll (buildNode env fuel) (args.take (operandCount op)) d
        match rankMismatch op typeArgs (is.map d.isTensor) with
        | some err => throw err
        | none =>
          let ddof := if op = "std" then (args[1]?).elim "" (", " ++ env.sourceText ·) else ""
          pure (d.push {
            valueExpr := "Tensor." ++ op ++ typeArgs ++ "(" ++ d.valueExprs is ++ ddof ++ ")"
            primitive := op
            operands := is
            isTensor := op ≠ "sum" ∧ op ≠ "mean" ∧ op ≠ "std" })
    else
      match env.resolveCall recv op args.length with
      | .notFound => throw unsupportedExpression
      | .noGrad qualifiedName returnIsTensor => do
        let (is, d) ← visitAll (buildNode env fuel) args d
        pure (d.push {
          valueExpr := qualifiedName ++ "(" ++ d.valueExprs is ++ ")"
          isTensor := returnIsTensor })
      | .inlined paramNames body => do
        let (is, d) ← visitAll (buildNode env fuel) args d
        match body with
        | none => throw (cannotInline op)
        | some body =>
          if paramNames.length ≠ args.length then throw (cannotInline op)
          else
            let inner := d.bindings.enter (paramNames.zip is)
            let (r, d) ← buildNode env fuel body { d with bindings := inner.scope }
            pure (r, { d with bindings := inner.leave d.bindings })
  | _ + 1, .other, _ => throw unsupportedExpression

/-- The forward graph of a body, or why it is refused. -/
def buildDag (env : Env) (fuel : Nat) (body : Expression) : Option (Except String Dag) :=
  (buildNode env fuel body {}).run.map fun r => r.map Prod.snd

namespace Expression

/-- The operands that an expression has lowered first; there are none where it is refused before. -/
def operands (env : Env) : Expression → Option (List Expression)
  | .identifier _ | .literal _ => some []
  | .binary op left right => if op.prim.isSome then some [left, right] else none
  | .unary .negative operand => some [operand]
  | .unary .other _ => none
  | .call recv op _ args =>
    if recv = "Math" ∧ op ∈ mathUnary then if args.length ≠ 1 then none else some args
    else if recv = "Tensor" ∧ op ∈ tensorOps then
      if args.length < operandCount op then none else some (args.take (operandCount op))
    else match env.resolveCall recv op args.length with
      | .notFound => none
      | _ => some args
  | .other => none

def helper (env : Env) : Expression → Option (List String × Expression)
  | .call recv op _ args =>
    if recv = "Math" ∧ op ∈ mathUnary then none
    else if recv = "Tensor" ∧ op ∈ tensorOps then none
    else match env.resolveCall recv op args.length with
      | .inlined paramNames (some body) =>
        if paramNames.length ≠ args.length then none else some (paramNames, body)
      | _ => none
  | _ => none

/-- Whether the value of an expression is a tensor, from the ranks of the names in scope and of the
operands; there is none where it is refused after them. -/
def rank (env : Env) (scope : Scope Bool) (ranks : List Bool) : Expression → Option Bool
  | .identifier name => some ((scope name).getD ((env.paramIsTensor name).getD false))
  | .literal _ | .binary .. | .unary .. => some false
  | .call recv op typeArgs args =>
    if recv = "Math" ∧ op ∈ mathUnary then some false
    else if recv = "Tensor" ∧ op ∈ tensorOps then
      if (rankMismatch op typeArgs ranks).isSome then none
      else some (op ≠ "sum" ∧ op ≠ "mean" ∧ op ≠ "std")
    else match env.resolveCall recv op args.length with
      | .noGrad _ returnIsTensor => some returnIsTensor
      | _ => none
  | .other => none

end Expression

/-- The ranks of expressions, read from left to right with the names in scope, and the names after
them; there are none where one of the expressions is refused. -/
inductive Ranks (env : Env) :
    List Expression → Scope Bool → Option (List Bool × Scope Bool) → Prop
  | nil : Ranks env [] Γ (some ([], Γ))
  | refused (ho : e.operands env = none) : Ranks env (e :: es) Γ none
  | operand (ho : e.operands env = some ops) (h : Ranks env ops Γ none) :
    Ranks env (e :: es) Γ none
  | mismatch (ho : e.operands env = some ops) (h : Ranks env ops Γ (some (rs, Γ')))
    (hh : e.helper env = none) (hr : e.rank env Γ' rs = none) : Ranks env (e :: es) Γ none
  | node (ho : e.operands env = some ops) (h : Ranks env ops Γ (some (rs, Γ')))
    (hh : e.helper env = none) (hr : e.rank env Γ' rs = some b) (hes : Ranks env es Γ' r) :
    Ranks env (e :: es) Γ (r.map fun p => (b :: p.1, p.2))
  | body (ho : e.operands env = some ops) (h : Ranks env ops Γ (some (rs, Γ')))
    (hh : e.helper env = some (ps, body))
    (hb : Ranks env [body] (Γ'.enter (ps.zip rs)).scope none) : Ranks env (e :: es) Γ none
  | inlined (ho : e.operands env = some ops) (h : Ranks env ops Γ (some (rs, Γ')))
    (hh : e.helper env = some (ps, body))
    (hb : Ranks env [body] (Γ'.enter (ps.zip rs)).scope (some ([b], Γ'')))
    (hes : Ranks env es ((Γ'.enter (ps.zip rs)).leave Γ'') r) :
    Ranks env (e :: es) Γ (r.map fun p => (b :: p.1, p.2))

/-- Reading an expression goes on with an operand once those before it are accepted, and with the
helper's body once all of them are. -/
inductive Enters (env : Env) : Expression × Scope Bool → Expression × Scope Bool → Prop
  | operand (ho : e.operands env = some (before ++ x :: after))
    (h : Ranks env before Γ (some (rs, Γ'))) : Enters env (e, Γ) (x, Γ')
  | helper (ho : e.operands env = some ops) (h : Ranks env ops Γ (some (rs, Γ')))
    (hh : e.helper env = some (ps, body)) :
    Enters env (e, Γ) (body, (Γ'.enter (ps.zip rs)).scope)

/-- Somewhere below a body an expression is come to again while it is being lowered, with the same
ranks of the names in scope. -/
def Reenters (env : Env) (body : Expression) : Prop :=
  ∃ s, Relation.ReflTransGen (Enters env) (body, fun _ => none) s ∧
    Relation.TransGen (Enters env) s s

end Inlining

end Cajeta.Transform
