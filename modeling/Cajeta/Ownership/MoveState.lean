import Mathlib.Data.List.Basic
import Mathlib.Data.Set.Insert
import Mathlib.Tactic.Common

/-!
# The static move state

The scope of a method marks the names whose title was transferred, in one set that every branch
changes, with a log of the marks. A branch is undone by the log. The log has no entry for a mark
that an assignment removed.
-/

namespace Cajeta.Ownership

/-- The method's scope: `borrowedBindings` and `moveLog`, the latest entry last. -/
structure MoveScope where
  marks : String → Bool
  log : List String

namespace MoveScope

def empty : MoveScope := ⟨fun _ => false, []⟩

def isBorrow (sc : MoveScope) (x : String) : Bool := sc.marks x

def demoteToBorrow (sc : MoveScope) (x : String) : MoveScope :=
  if sc.marks x then sc
  else { marks := fun y => y = x || sc.marks y, log := sc.log ++ [x] }

def restoreOwnership (sc : MoveScope) (x : String) : MoveScope :=
  { sc with marks := fun y => y ≠ x && sc.marks y }

def retractMovesSince (sc : MoveScope) (mark : Nat) : MoveScope where
  marks x := sc.marks x && !(sc.log.drop mark).contains x
  log := sc.log.take mark

def snapshotMovesSince (sc : MoveScope) (mark : Nat) : List String := sc.log.drop mark

def reapplyMoves (sc : MoveScope) (moves : List String) : MoveScope :=
  moves.foldl demoteToBorrow sc

end MoveScope

/-- What an expression does to names, in order. -/
inductive MoveEvent where
  | transfer (x : String)
  | assign (x : String)
deriving DecidableEq

inductive Leaving where
  | ret
  | thrown
deriving DecidableEq

mutual
inductive MoveStmt where
  | run (es : List MoveEvent)
  | leave (how : Leaving) (es : List MoveEvent)
  /-- `drops` tells whether code for drops is emitted at the closing brace. -/
  | block (drops : Bool) (body : MoveStmts)
  | ifThen (cond : List MoveEvent) (t : MoveStmt)
  | ifElse (cond : List MoveEvent) (t e : MoveStmt)

inductive MoveStmts where
  | nil
  | cons (s : MoveStmt) (rest : MoveStmts)
end

/-! ## Code generation -/

structure EmitFlags where
  /-- The body is the entry of a script unit. -/
  scriptEntry : Bool
  /-- A line mark is emitted before every statement of a block. -/
  lineInfo : Bool

/-- The basic block at the insertion point. -/
inductive InsertBlock where
  | open
  | terminated
  /-- Empty and without predecessors. -/
  | parked
deriving DecidableEq

/-- An instruction is emitted. -/
def InsertBlock.emit : InsertBlock → InsertBlock
  | .parked => .open
  | b => b

/-- The insertion point of a statement of a block. -/
def lineMark (flags : EmitFlags) (b : InsertBlock) : InsertBlock :=
  if flags.lineInfo then b.emit else b

def MoveEvent.gen (sc : MoveScope) : MoveEvent → MoveScope
  | .transfer x => sc.demoteToBorrow x
  | .assign x => sc.restoreOwnership x

def genEvents (es : List MoveEvent) (sc : MoveScope) : MoveScope := es.foldl MoveEvent.gen sc

section gen
variable (flags : EmitFlags)

mutual
/-- The insertion point after a statement. -/
def flow : MoveStmt → InsertBlock → InsertBlock
  | .run _, b => b.emit
  | .leave .ret _, _ => .terminated
  | .leave .thrown _, _ => .parked
  | .block drops body, b =>
    let b := flowAll body b
    if drops then b.emit else b
  | .ifThen _ _, _ => .open
  | .ifElse _ t e, _ =>
    -- the join has no predecessor if both arms end in a terminator
    if flow t .open = .terminated ∧ flow e .open = .terminated then .parked else .open

def flowAll : MoveStmts → InsertBlock → InsertBlock
  | .nil, b => b
  | .cons s rest, b =>
    if b = .terminated then b
    else flowAll rest (flow s (lineMark flags b))
end

/-- A block whose end is seen to be left retracts its moves. -/
def retracts (body : MoveStmts) (b : InsertBlock) : Bool :=
  !flags.scriptEntry && flowAll flags body b ≠ .open

mutual
/-- The scope after a statement. -/
def gen : MoveStmt → InsertBlock → MoveScope → MoveScope
  | .run es, _, sc => genEvents es sc
  | .leave _ es, _, sc => genEvents es sc
  | .block _ body, b, sc =>
    let sc' := genAll body b sc
    if retracts flags body b then sc'.retractMovesSince sc.log.length else sc'
  | .ifThen cond t, _, sc => gen t .open (genEvents cond sc)
  | .ifElse cond t e, _, sc =>
    let sc := genEvents cond sc
    let mark := sc.log.length
    let sc := gen t .open sc
    let thenMoves := sc.snapshotMovesSince mark
    let sc := gen e .open (sc.retractMovesSince mark)
    sc.reapplyMoves thenMoves

def genAll : MoveStmts → InsertBlock → MoveScope → MoveScope
  | .nil, _, sc => sc
  | .cons s rest, b, sc =>
    if b = .terminated then sc
    else
      let b := lineMark flags b
      genAll rest (flow flags s b) (gen s b sc)
end

/-- The scope that the else arm starts with, after `cond`. -/
def elseStart (t : MoveStmt) (sc : MoveScope) : MoveScope :=
  (gen flags t .open sc).retractMovesSince sc.log.length

end gen

/-! ## Paths -/

/-- The names that a path has transferred and not assigned since. -/
def MoveEvent.after (P : Set String) : MoveEvent → Set String
  | .transfer x => insert x P
  | .assign x => P \ {x}

def afterEvents (es : List MoveEvent) (P : Set String) : Set String := es.foldl MoveEvent.after P

mutual
/-- What the paths that complete a statement have transferred at its end. -/
def outcomes : MoveStmt → Set String → Set (Set String)
  | .run es, P => {afterEvents es P}
  | .leave _ _, _ => ∅
  | .block _ body, P => outcomesAll body P
  | .ifThen cond t, P => insert (afterEvents cond P) (outcomes t (afterEvents cond P))
  | .ifElse cond t e, P =>
    outcomes t (afterEvents cond P) ∪ outcomes e (afterEvents cond P)

def outcomesAll : MoveStmts → Set String → Set (Set String)
  | .nil, P => {P}
  | .cons s rest, P => {R | ∃ Q ∈ outcomes s P, R ∈ outcomesAll rest Q}
end

mutual
/-- Some path completes the statement. -/
def completes : MoveStmt → Bool
  | .run _ => true
  | .leave _ _ => false
  | .block _ body => completesAll body
  | .ifThen _ _ => true
  | .ifElse _ t e => completes t || completes e

def completesAll : MoveStmts → Bool
  | .nil => true
  | .cons s rest => completes s && completesAll rest
end

/-- A path comes to a point among events: the scope there and what the path has transferred. -/
def AtEvents (es : List MoveEvent) (sc : MoveScope) (P : Set String) (sc' : MoveScope)
    (Q : Set String) : Prop :=
  ∃ es', es' <+: es ∧ sc' = genEvents es' sc ∧ Q = afterEvents es' P

section points
variable (flags : EmitFlags)

mutual
/-- `At s b sc P sc' Q`: a path that enters `s` with `P`, where the scope is `sc`, comes to a point
in it or at its end with `Q`, where the scope is `sc'`. -/
def At : MoveStmt → InsertBlock → MoveScope → Set String → MoveScope → Set String → Prop
  | .run es, _, sc, P, sc', Q => AtEvents es sc P sc' Q
  | .leave _ es, _, sc, P, sc', Q => AtEvents es sc P sc' Q
  | .block drops body, b, sc, P, sc', Q =>
    AtAll body b sc P sc' Q ∨
      sc' = gen flags (.block drops body) b sc ∧ Q ∈ outcomesAll body P
  | .ifThen cond t, b, sc, P, sc', Q =>
    AtEvents cond sc P sc' Q ∨
      At t .open (genEvents cond sc) (afterEvents cond P) sc' Q ∨
        sc' = gen flags (.ifThen cond t) b sc ∧ Q ∈ outcomes (.ifThen cond t) P
  | .ifElse cond t e, b, sc, P, sc', Q =>
    AtEvents cond sc P sc' Q ∨
      At t .open (genEvents cond sc) (afterEvents cond P) sc' Q ∨
        At e .open (elseStart flags t (genEvents cond sc)) (afterEvents cond P) sc' Q ∨
          sc' = gen flags (.ifElse cond t e) b sc ∧ Q ∈ outcomes (.ifElse cond t e) P

def AtAll : MoveStmts → InsertBlock → MoveScope → Set String → MoveScope → Set String → Prop
  | .nil, _, sc, P, sc', Q => sc' = sc ∧ Q = P
  | .cons s rest, b, sc, P, sc', Q =>
    let b := lineMark flags b
    At s b sc P sc' Q ∨
      ∃ R ∈ outcomes s P, AtAll rest (flow flags s b) (gen flags s b sc) R sc' Q
end

mutual
/-- At every join of an `if` with an `else`: the else arm starts from the state before the `if`, and
the marks after the join are those at the ends of the arms that reach it. -/
def JoinsExact : MoveStmt → InsertBlock → MoveScope → Prop
  | .run _, _, _ => True
  | .leave _ _, _, _ => True
  | .block _ body, b, sc => JoinsExactAll body b sc
  | .ifThen cond t, _, sc => JoinsExact t .open (genEvents cond sc)
  | .ifElse cond t e, b, sc =>
    let start := genEvents cond sc
    JoinsExact t .open start ∧ JoinsExact e .open (elseStart flags t start) ∧
      (elseStart flags t start).marks = start.marks ∧
        (completes t || completes e → ∀ x, (gen flags (.ifElse cond t e) b sc).marks x ↔
          completes t ∧ (gen flags t .open start).marks x ∨
            completes e ∧ (gen flags e .open (elseStart flags t start)).marks x)

def JoinsExactAll : MoveStmts → InsertBlock → MoveScope → Prop
  | .nil, _, _ => True
  | .cons s rest, b, sc =>
    b = .terminated ∨
      let b := lineMark flags b
      JoinsExact s b sc ∧ JoinsExactAll rest (flow flags s b) (gen flags s b sc)
end

end points

end Cajeta.Ownership
