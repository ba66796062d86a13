import Mathlib.Data.List.Basic
import Mathlib.Tactic.Common

/-!
# Types by their canonical names

A build writes down the instantiations that a module needs, each by the canonical name of its
type. A later build that skips the module reads the names back and makes the types. The reader
finds the type arguments by counting brackets.
-/

namespace Cajeta.Compile.Obligation

abbrev Text := List Char

inductive Kind where
  | primitive
  | klass
  | interface
  | view
deriving DecidableEq, Repr

inductive Ty where
  | named (name : Text) (kind : Kind)
  | inst (base : Text) (kind : Kind) (args : List Ty)
  | array (elem : Ty)
  | fn (params : List Ty) (ret : Ty) (owned : Bool)
deriving Repr

namespace Ty

/-- It is a `CajetaClass`: an array is one, a function type is not. -/
def isClass : Ty → Bool
  | .named _ kind => kind ≠ .primitive
  | .inst .. | .array _ => true
  | .fn .. => false

/-- `sretCanonicalDiscriminates` -/
def sretCanonicalDiscriminates : Ty → Bool
  | .named _ kind | .inst _ kind _ => kind = .klass
  | .array _ | .fn .. => false

end Ty

/-- The texts with a comma between. -/
def join : List Text → Text
  | [] => []
  | [t] => t
  | t :: ts => t ++ ',' :: join ts

mutual

def Ty.toCanonical : Ty → Text
  | .named name _ => name
  | .inst base _ args => base ++ '<' :: (join (canonicals args) ++ ['>'])
  | .array elem => elem.toCanonical ++ ['[', ']']
  | .fn params ret owned =>
    '(' :: (join (canonicals params) ++ (')' :: ' ' :: '-' :: '>' :: ' ' ::
      ((if owned ∨ !ret.sretCanonicalDiscriminates then ['#'] else []) ++ ret.toCanonical)))

def canonicals : List Ty → List Text
  | [] => []
  | t :: ts => t.toCanonical :: canonicals ts

end

def isBlank (c : Char) : Bool := c = ' ' ∨ c = '\t' ∨ c = '\r' ∨ c = '\n'

def trim (s : Text) : Text := ((s.dropWhile isBlank).reverse.dropWhile isBlank).reverse

/-- `splitTopLevel` at a depth, behind the piece `cur`. -/
def splitFrom : (depth : Int) → (cur s : Text) → List Text
  | _, cur, [] => [cur]
  | depth, cur, c :: s =>
    if c = '<' ∨ c = '(' then splitFrom (depth + 1) (cur ++ [c]) s
    else if c = '>' ∨ c = ')' then splitFrom (depth - 1) (cur ++ [c]) s
    else if c = ',' ∧ depth = 0 then cur :: splitFrom depth [] s
    else splitFrom depth (cur ++ [c]) s

def splitTopLevel (s : Text) : List Text := splitFrom 0 [] s

inductive Error where
  | emptyCanonical
  | noOwningModule (s : Text)
  | unresolvable (s : Text)
  | unknownTemplate (base : Text)
  | notClassTemplate (base : Text)
  | instantiationFailed (s : Text)
deriving DecidableEq, Repr

/-- A reader that knows arrows: whether the last character is a dash, and the depth. It stops at a
comma at depth zero and at a bracket that closes nothing. -/
def scan : (dash : Bool) → (depth : Nat) → Text → Option (Bool × Nat)
  | dash, depth, [] => some (dash, depth)
  | dash, depth, c :: s =>
    if c = '(' ∨ c = '<' then scan false (depth + 1) s
    else if c = ')' ∨ (c = '>' ∧ dash = false) then
      if depth = 0 then none else scan false (depth - 1) s
    else if c = ',' ∧ depth = 0 then none
    else scan (c = '-') depth s

/-- Balanced, and without a comma outside of the brackets. -/
def Balanced (s : Text) : Prop := scan false 0 s = some (false, 0)

/-- The types that are known, by canonical name, by short name (`Box<int32>` for
`app.Box<int32>`) or as the layout of an array (`#array.int32[]`). A type found under a short name
may have another canonical name; the shape of the names is all that the keys and the types found
have in common. -/
structure CanonicalMap where
  find : Text → Option Ty
  balanced : ∀ s t, find s = some t → Balanced s ∧ Balanced t.toCanonical
  /-- A key that opens with a parenthesis is that of a function type, or of an array of them. -/
  paren : ∀ s t, find s = some t → s.head? = some '(' → t.isClass = true → s.getLast? = some ']'
  plain : ∀ s t, find s = some t → '<' ∉ s → '<' ∉ t.toCanonical

/-- The canonical name of an instance: `qName->toCanonical() + buildArgSuffix(args)`. -/
def instCanonical (template : Text) (args : List Text) : Text :=
  template ++ '<' :: (join args ++ ['>'])

/-- The compiler around the reader: whether the stdlib module is there, and what a template makes
of type arguments. Types are interned, so that the names of the template and of the arguments
decide; new types are registered. -/
structure World where
  stdlibModule : Bool
  instantiate : CanonicalMap → (template : Text) → (args : List Text) → Option (Ty × CanonicalMap)
  /-- The template itself comes back where it cannot be applied yet, else an instance, for which
  defaults may have been added to the arguments. -/
  named : ∀ m template args r m', instantiate m template args = some (r, m') →
    r.toCanonical = template ∨
      ∃ defaults, (∀ s ∈ defaults, Balanced s) ∧
        r.toCanonical = instCanonical template (args ++ defaults)

/-- A stale `#` in front of an argument. -/
def stripOwned (arg : Text) : Text :=
  match arg with
  | '#' :: arg => trim arg
  | arg => arg

/-- `resolveArgList`, where `read` is the reader: the arguments are read in turn, each with the
types that those before it have registered. -/
def resolveArgList (read : CanonicalMap → Text → Except Error (Ty × CanonicalMap)) :
    CanonicalMap → (pieces : List Text) → Except Error (List Ty × CanonicalMap)
  | m, [] => .ok ([], m)
  | m, piece :: pieces => do
    let (t, m) ← read m (stripOwned (trim piece))
    let (args, m) ← resolveArgList read m pieces
    .ok (t :: args, m)

/-- `resolveCanonicalType`, with fuel for the nesting. -/
def resolve (w : World) : (fuel : Nat) → CanonicalMap → (canonical : Text) →
    Except Error (Ty × CanonicalMap)
  | 0, _, _ => .error .emptyCanonical
  | fuel + 1, m, canonical =>
    let s := trim canonical
    if s = [] then .error .emptyCanonical
    else match m.find s with
    | some t => .ok (t, m)
    | none =>
      if 2 < s.length ∧ s.drop (s.length - 2) = ['[', ']'] then do
        let (elem, m) ← resolve w fuel m (s.take (s.length - 2))
        if elem.isClass ∨ w.stdlibModule then .ok (.array elem, m) else .error (.noOwningModule s)
      else match s.dropWhile (· ≠ '<') with
      | [] => .error (.unresolvable s)
      | _ :: rest =>
        let base := s.takeWhile (· ≠ '<')
        if s.getLast? ≠ some '>' then .error (.unresolvable s)
        else match m.find base with
        | none => .error (.unknownTemplate base)
        | some template =>
          if template.isClass then do
            let (args, m) ← resolveArgList (resolve w fuel) m (splitTopLevel rest.dropLast)
            match w.instantiate m template.toCanonical (canonicals args) with
            | none => .error (.instantiationFailed s)
            | some found => .ok found
          else .error (.notClassTemplate base)

def resolveCanonicalType (w : World) (m : CanonicalMap) (canonical : Text) :
    Except Error (Ty × CanonicalMap) :=
  resolve w (canonical.length + 1) m canonical

end Cajeta.Compile.Obligation
