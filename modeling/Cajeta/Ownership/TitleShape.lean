import Mathlib.Tactic.Common

/-!
# Title shapes and the policy of their consumers

What title a value carries, how two arms of a conditional and a move change it, and what a consumer
makes of it in its role.
-/

namespace Cajeta.Ownership

inductive TitleAnswer where
  | borrow
  | owned
  /-- It dies with the frame. -/
  | stackBound
  /-- Decided at run time. -/
  | runtime
  /-- No title at all. -/
  | scalar
deriving DecidableEq

inductive TitleSource where
  | none | dropEntry | transferWord | returnFlag | armPhi | slot
deriving DecidableEq

inductive TitleFamily where
  | literal | localRead | thisRead | fieldRead | elementRead | fresh | concat | move | callResult
  | closureCall | conditional | closure | scalar | unsupported
deriving DecidableEq

def TitleFamily.label : TitleFamily → String
  | .literal => "a literal"
  | .localRead => "a bare local or formal (no `#`)"
  | .thisRead => "`this`"
  | .fieldRead => "a field read"
  | .elementRead => "an element read"
  | .fresh => "a fresh value"
  | .concat => "a String concatenation"
  | .move => "a `#` move"
  | .callResult => "a call result"
  | .closureCall => "a closure call result"
  | .conditional => "a conditional"
  | .closure => "a closure"
  | .scalar => "a scalar"
  | .unsupported => "an unsupported construct"

inductive ConsumerRole where
  | bind | storeString | storeSlot | reassign | returnOwned | returnPlain | argPlain | argOwned
  | arm
deriving DecidableEq

inductive TitleFlag where
  | arena | stack | shared | hasEntry | isParam | transferredParam | borrowOrigin | string | value
  | interface | array | view | sharpStore | ownedDecl | staticTitle | runtimeOwner | function
deriving DecidableEq

abbrev Flags := TitleFlag → Bool

namespace Flags

def empty : Flags := fun _ => false

def of (fs : List TitleFlag) : Flags := fun f => fs.contains f

def union (a b : Flags) : Flags := fun f => a f || b f

/-- The flag is added if the condition holds. -/
def withIf (a : Flags) (c : Bool) (f : TitleFlag) : Flags := fun g => a g || (c && decide (g = f))

end Flags

/-- The named local or formal of a shape: the locals that an array's slots borrow. -/
structure Field where
  name : String
  slotBorrowedLocals : List (Int × String)
deriving DecidableEq

structure TitleShape where
  family : TitleFamily
  answer : TitleAnswer
  source : TitleSource
  flags : Flags
  label : String
  field : Option Field
  /-- The index among the formals but `this`. -/
  paramIndex : Option Nat

namespace TitleShape

def make (family : TitleFamily) (answer : TitleAnswer) (source : TitleSource)
    (flags : Flags) : TitleShape :=
  ⟨family, answer, source, flags, family.label, none, none⟩

def has (s : TitleShape) (f : TitleFlag) : Bool := s.flags f

def read (family : TitleFamily) (flags : Flags) : TitleShape := make family .borrow .none flags

def scalar : TitleShape := make .scalar .scalar .none .empty

@[simp] theorem make_family : (make f x src fs).family = f := rfl

@[simp] theorem make_answer : (make f x src fs).answer = x := rfl

@[simp] theorem make_flags : (make f x src fs).flags = fs := rfl

@[simp] theorem read_family : (read f fs).family = f := rfl

@[simp] theorem read_answer : (read f fs).answer = .borrow := rfl

@[simp] theorem scalar_family : scalar.family = .scalar := rfl

@[simp] theorem scalar_answer : scalar.answer = .scalar := rfl

end TitleShape

/-- It has a title to give, perhaps. -/
def TitleAnswer.hasTitle (x : TitleAnswer) : Bool := x = .owned || x = .runtime

/-- The flags that the join of two arms keeps. -/
def joinMask : Flags := .of [.string, .array, .interface, .value, .view]

/-- The join of two arms: equal static answers fold, else the choice is made at run time. -/
def join (a b : TitleShape) : TitleShape :=
  let s := TitleShape.make .conditional .runtime .armPhi
    fun f => (a.flags f || b.flags f) && joinMask f
  if !a.answer.hasTitle && !b.answer.hasTitle then { s with answer := .borrow, source := .none }
  else if a.answer = .owned ∧ b.answer = .owned then { s with answer := .owned, source := .none }
  else s

def moveLocal (s : TitleShape) : TitleAnswer × TitleSource :=
  if s.has .stack then (.stackBound, .none)
  else if s.has .hasEntry then
    if s.has .staticTitle && !s.has .runtimeOwner then (.owned, .none) else (.runtime, .dropEntry)
  else if s.has .isParam then
    if s.has .transferredParam then (.owned, .none) else (.runtime, .transferWord)
  else if s.has .staticTitle then (.owned, .none)
  else (.borrow, .none)

/-- The shape of a `#x` move. -/
def moveFrom (s : TitleShape) (sharpStore : Bool) : TitleShape :=
  let (answer, source) :=
    match s.family with
    | .localRead => moveLocal s
    | .fieldRead | .elementRead => (.runtime, .slot)
    | .literal | .thisRead => (.borrow, .none)
    | _ => (s.answer, s.source)
  { TitleShape.make .move answer source (s.flags.withIf sharpStore .sharpStore) with
    field := s.field, paramIndex := s.paramIndex }

inductive TitleError where
  | stackTransfer | arraySlotBorrowsLocal | stackReturnEscapes | ownedReturnOfBorrowedThis
  | ownedReturnOfBorrow | borrowParamEscapes | freshReturnNeedsTransfer | transferRequired
deriving DecidableEq

structure TitleVerdict where
  answer : TitleAnswer
  source : TitleSource
  error : Option TitleError
  label : String
deriving DecidableEq

namespace TitleShape

def pass (s : TitleShape) : TitleVerdict := ⟨s.answer, s.source, none, s.label⟩

def refuse (s : TitleShape) (e : TitleError) : TitleVerdict := { s.pass with error := some e }

def decide (s : TitleShape) (answer : TitleAnswer) (source : TitleSource) : TitleVerdict :=
  { s.pass with answer, source }

/-- A moved array whose slots borrow locals of the frame. -/
def escapesBorrowedSlots (s : TitleShape) : Bool :=
  s.family = .move && s.field.any fun f => !f.slotBorrowedLocals.isEmpty

def storePolicy (s : TitleShape) (string : Bool) : TitleVerdict :=
  if s.family = .move ∧ s.answer = .stackBound then s.refuse .stackTransfer
  else if s.escapesBorrowedSlots then s.refuse .arraySlotBorrowsLocal
  else if s.family = .localRead ∧ s.has .isParam ∧ s.has .transferredParam then
    if string && s.has .hasEntry then s.decide .runtime .dropEntry else s.decide .owned .none
  else s.pass

def returnOwnedLocal (s : TitleShape) : TitleVerdict :=
  if s.has .borrowOrigin then s.refuse .ownedReturnOfBorrow
  else if s.has .hasEntry then
    if s.has .runtimeOwner then s.decide .runtime .dropEntry else s.decide .owned .none
  else if s.has .isParam then
    if s.has .transferredParam || s.has .interface then s.decide .owned .none
    else s.refuse .borrowParamEscapes
  else s.refuse .ownedReturnOfBorrow

def returnOwnedPolicy (s : TitleShape) : TitleVerdict :=
  if s.answer = .stackBound ∨ s.family = .localRead ∧ s.has .stack then s.refuse .stackReturnEscapes
  else if s.escapesBorrowedSlots then s.refuse .arraySlotBorrowsLocal
  else if s.family = .thisRead then s.refuse .ownedReturnOfBorrowedThis
  else if s.family = .move then s.pass
  else if s.family = .localRead then s.returnOwnedLocal
  else if s.family = .literal ∧ s.has .string then s.decide .owned .none
  else if s.answer = .borrow then s.refuse .ownedReturnOfBorrow
  else s.pass

def returnPlainPolicy (s : TitleShape) : TitleVerdict :=
  match s.family with
  | .fresh =>
    if s.answer = .stackBound then s.refuse .stackReturnEscapes
    else if s.answer = .owned then s.refuse .freshReturnNeedsTransfer
    else s.pass
  | .localRead =>
    if s.has .isParam then if s.has .hasEntry then s.decide .runtime .dropEntry else s.pass
    else if s.has .stack then s.refuse .stackReturnEscapes
    else if s.has .hasEntry && !s.has .value && !s.has .function && !s.has .interface then
      s.refuse .freshReturnNeedsTransfer
    else s.pass
  | _ => s.pass

def argOwnedPolicy (s : TitleShape) : TitleVerdict :=
  if s.answer = .stackBound ∧ !s.has .value then s.refuse .stackTransfer
  else if s.escapesBorrowedSlots then s.refuse .arraySlotBorrowsLocal
  else if s.family = .literal ∧ s.has .string then s.decide .owned .none
  else
    match s.family with
    | .fieldRead | .elementRead | .literal => s.refuse .transferRequired
    | .callResult | .closureCall =>
      if s.answer = .borrow then s.refuse .transferRequired else s.pass
    | .localRead =>
      if s.has .isParam && !s.has .transferredParam then s.refuse .transferRequired
      else if !s.has .hasEntry && !s.has .isParam && !s.has .arena then s.refuse .transferRequired
      else if s.has .hasEntry then s.refuse .transferRequired
      else s.pass
    | _ => s.pass

def policy (s : TitleShape) (role : ConsumerRole) : TitleVerdict :=
  if s.answer = .scalar then s.pass
  else
    match role with
    | .storeString => s.storePolicy true
    | .storeSlot => s.storePolicy false
    | .bind | .reassign | .argPlain | .arm => s.pass
    | .returnOwned => s.returnOwnedPolicy
    | .returnPlain => s.returnPlainPolicy
    | .argOwned => s.argOwnedPolicy

end TitleShape

/-!
## The title classifier

The static shape of every expression: what the parser and the type resolver have left on its nodes
is data here. A conditional joins its arms, a move and a reference cast look through to their
operand.
-/

open TitleShape

/-- A resolved type: whether it is a scalar without ownership, and its flags. -/
structure TypeFacts where
  scalar : Bool
  flags : Flags

/-- A name that the scope resolves. -/
structure LocalFacts where
  field : Field
  type : TypeFacts
  dropEntry : Bool
  runtimeConditionalOwner : Bool
  stackInstance : Bool
  callBorrowOrigin : Bool
  paramBorrowOrigin : Bool
  /-- For a parameter: whether it is declared owned, and its index but for `this`. -/
  parameter : Option (Bool × Option Nat)
  arenaEligible : Bool
  holdsStaticTitle : Bool
  /-- Whether the function it stands in takes a transfer word. -/
  transferWord : Bool := true

structure FunctionFacts where
  usesSret : Bool
  returnsClass : Bool

structure MethodFacts where
  returnType : TypeFacts
  returnsStackValue : Bool
  /-- Static, private, final, or of a final class. -/
  staticDispatch : Bool
  returnsView : Bool
  returnsOwnership : Bool
  returnsInteriorView : Bool
  returnsStaticTitle : Bool
  emitsReturnFlag : Bool
  returnsTitledPointer : Bool
  native : Bool
  hasBlock : Bool
  isAbstract : Bool

structure CallFacts where
  /-- A call of `__cajeta_inject`: whether the component is transient. -/
  inject : Option Bool
  resolved : Option MethodFacts
  /-- Of an unresolved call: the function type of the name it calls. -/
  functionType : Option FunctionFacts
  /-- The callee by name and number of arguments. -/
  shallow : Option MethodFacts
  hasGenerated : Bool
  flaggedTitleValue : Bool
  bindingTakesTitle : Bool

/-- An expression that is classified without a look at its operands. -/
inductive Leaf where
  | unsupported
  | literal
  | classLiteral
  | this
  | super
  | text (string : Bool)
  /-- Integer and float literals, `instanceof`, prefix, postfix, primitive casts, `detach`, and the
  binary operators but for assignment and concatenation. -/
  | scalarOp
  /-- None for `this`; a name that the scope does not know has no facts. -/
  | identifier (facts : Option (Option LocalFacts))
  | dot (materializesViewField : Bool)
  | arrayIndex
  | arraySlice
  | arrayLiteral (stackAlloc arenaEligible : Bool)
  | mapLiteral
  | aggregate (stackAlloc : Bool)
  | new (stackAlloc sharedAlloc : Bool)
  | concat (arenaEligible : Bool)
  | methodCall (facts : CallFacts)
  | call (function : Option FunctionFacts)
  | methodReference
  | lambda
  | await
  | spawn

/-! ## Leaves -/

def stackConstruction (f : Flags) : TitleShape :=
  { make .fresh .stackBound .none (f.withIf true .stack) with label := "a `stack` construction" }

def localRead (type : TypeFacts) : Option LocalFacts → TitleShape
  | none => make .localRead .borrow .none type.flags
  | some l =>
    let f := l.type.flags
      |>.withIf l.dropEntry .hasEntry
      |>.withIf l.runtimeConditionalOwner .runtimeOwner
      |>.withIf l.stackInstance .stack
      |>.withIf (l.callBorrowOrigin || l.paramBorrowOrigin) .borrowOrigin
      |>.withIf l.parameter.isSome .isParam
      |>.withIf (l.parameter.any (·.1)) .transferredParam
      |>.withIf (l.parameter.isNone && l.arenaEligible) .arena
      |>.withIf l.holdsStaticTitle .staticTitle
    { make .localRead .borrow .none f with
      field := some l.field, paramIndex := l.parameter.bind (·.2) }

def closureCallShape (type : TypeFacts) (fn : Option FunctionFacts) : TitleShape :=
  if fn.any (·.usesSret) then
    make .closureCall .stackBound .none (type.flags.withIf true .stack)
  else if fn.any fun f => !f.returnsClass then scalar
  else make .closureCall .runtime .returnFlag type.flags

def calleeResult (flags : Flags) (m : MethodFacts) : TitleShape :=
  let flags := flags.union m.returnType.flags
  if m.returnType.scalar then scalar
  else if m.returnsStackValue then
    make .callResult .stackBound .none (flags.withIf true .stack)
  else if m.returnsView || (!m.returnsOwnership && m.staticDispatch && m.returnsInteriorView) then
    make .callResult .borrow .none (flags.withIf true .view)
  else
    let flags := flags.withIf m.returnsOwnership .ownedDecl
    if m.returnsOwnership && m.returnsStaticTitle then make .callResult .owned .none flags
    else if m.emitsReturnFlag && m.returnsTitledPointer && !m.native && (m.hasBlock || m.isAbstract)
    then make .callResult .runtime .returnFlag flags
    else make .callResult (if m.returnsOwnership then .owned else .borrow) .none flags

/-- An intrinsic stores no flag: what its declaration says is a constant. -/
def intrinsicResult (flags : Flags) (c : CallFacts) : TitleShape :=
  if c.shallow.any (·.returnType.scalar) then scalar
  else
    let flags := (c.shallow.elim flags fun m => flags.union m.returnType.flags).withIf
      c.bindingTakesTitle .ownedDecl
    make .callResult (if c.bindingTakesTitle then .owned else .borrow) .none flags

def callResult (type : TypeFacts) (c : CallFacts) : TitleShape :=
  match c.inject with
  | some transient =>
    make .callResult (if transient then .owned else .borrow) .none type.flags
  | none =>
    match c.resolved, c.functionType with
    | some m, _ => calleeResult type.flags m
    | none, some fn => closureCallShape type (some fn)
    | none, none =>
      if c.hasGenerated && !c.flaggedTitleValue then intrinsicResult type.flags c
      else if c.hasGenerated then make .callResult .runtime .returnFlag type.flags
      else c.shallow.elim (make .callResult .runtime .returnFlag type.flags)
        (calleeResult type.flags)

def classifyLeaf (type : TypeFacts) : Leaf → TitleShape
  | .unsupported => make .unsupported .scalar .none .empty
  | .literal | .classLiteral => read .literal type.flags
  | .this | .super => read .thisRead type.flags
  | .text string => if string then read .literal (type.flags.withIf true .string) else scalar
  | .scalarOp => scalar
  | .identifier none => read .thisRead type.flags
  | .identifier (some facts) => localRead type facts
  | .dot materializes =>
    if materializes then { make .fresh .owned .none type.flags with label := "a view field read" }
    else read .fieldRead type.flags
  | .arrayIndex => read .elementRead type.flags
  | .arraySlice => { read .elementRead type.flags with label := "an array slice" }
  | .arrayLiteral stackAlloc arenaEligible =>
    let f := ((type.flags.withIf true .array).withIf stackAlloc .stack).withIf arenaEligible .arena
    let answer := if stackAlloc || arenaEligible then .stackBound else .owned
    let s := make .fresh answer .none f
    if stackAlloc then { s with label := "a `stack` construction" } else s
  | .mapLiteral => make .fresh .owned .none type.flags
  | .aggregate stackAlloc =>
    if stackAlloc then stackConstruction type.flags else make .fresh .owned .none type.flags
  | .new stackAlloc sharedAlloc =>
    if stackAlloc then stackConstruction type.flags
    else if sharedAlloc then make .fresh .borrow .none (type.flags.withIf true .shared)
    else make .fresh .owned .none type.flags
  | .concat arenaEligible =>
    if arenaEligible then make .concat .stackBound .none (.of [.string, .arena])
    else make .concat .owned .none (.of [.string])
  | .methodCall facts => callResult type facts
  | .call function => closureCallShape type function
  | .methodReference | .lambda => make .closure .owned .none .empty
  | .await | .spawn => make .fresh .owned .none type.flags

mutual
inductive Expr where
  | leaf (type : TypeFacts) (l : Leaf)
  /-- A cast to a class, a view or an interface. -/
  | referenceCast (e : Expr)
  | assign (type : TypeFacts) (rhs : Expr)
  | booleanSwitch (type : TypeFacts) (a b : Expr)
  | switch (type : TypeFacts) (cases : Cases)
  | move (type : TypeFacts) (sharpStore captureMarker : Bool) (inner : Expr)

/-- The bodies of a switch expression. -/
inductive Cases where
  | nil
  | cons (body : Expr) (rest : Cases)
end

mutual
/-- The static shape of an expression. -/
def classify : Expr → TitleShape
  | .leaf type l => if type.scalar then scalar else classifyLeaf type l
  | .referenceCast e => classify e
  | .assign type rhs => if type.scalar then scalar else classify rhs
  | .booleanSwitch type a b => if type.scalar then scalar else join (classify a) (classify b)
  | .switch type cases =>
    if type.scalar then scalar
    else
      match cases with
      | .nil => scalar
      | .cons body rest =>
        let acc := classifyCases (classify body) rest
        if acc.family ≠ .conditional then join acc acc else acc
  | .move type sharpStore captureMarker inner =>
    if type.scalar then scalar
    else if captureMarker then classify inner
    else moveFrom (classify inner) sharpStore

/-- The shapes of further bodies are joined to that of the ones before. -/
def classifyCases (acc : TitleShape) : Cases → TitleShape
  | .nil => acc
  | .cons body rest => classifyCases (join acc (classify body)) rest
end

/-- `leaf`: the expression that the shape is about. -/
def shapeLeaf : Expr → Expr
  | .referenceCast e => shapeLeaf e
  | .assign type rhs => if type.scalar then .assign type rhs else shapeLeaf rhs
  | .move type sharpStore captureMarker inner =>
    if !type.scalar && captureMarker then shapeLeaf inner
    else .move type sharpStore captureMarker inner
  | .switch type (.cons body .nil) =>
    if !type.scalar && (classify body).family = .conditional then shapeLeaf body
    else .switch type (.cons body .nil)
  | e => e

mutual
/-- `forEachLeafArm`: the arms of nested conditionals, as they stand. -/
def leafArms : Expr → List Expr
  | .booleanSwitch _ a b => leafArms a ++ leafArms b
  | .switch _ cases => casesArms cases
  | e => [e]

def casesArms : Cases → List Expr
  | .nil => []
  | .cons body rest => leafArms body ++ casesArms rest
end

def armVerdict (s : TitleShape) (callerTransferred : Bool) : TitleVerdict :=
  (if callerTransferred then moveFrom s false else s).policy .argOwned

/-- `rejectOwnedFormalArgument`: the verdict that refuses the argument, if there is one. -/
def rejectOwnedFormalArgument (e : Expr) (callerTransferred : Bool) : Option TitleVerdict :=
  let top := classify e
  let verdicts :=
    if top.family = .conditional ∧ !callerTransferred then
      (leafArms (shapeLeaf e)).map fun arm => armVerdict (classify arm) callerTransferred
    else [armVerdict top callerTransferred]
  verdicts.find? fun v => v.error.isSome

end Cajeta.Ownership
