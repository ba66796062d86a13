import Mathlib.Tactic.Common

/-!
# JSON values

The value tree a parsed document is read through, with the accessors of a JSON object: each one
answers only for a field of its own kind.
-/

namespace Cajeta

inductive Json where
  | null
  | bool (b : Bool)
  | int (n : Int)
  /-- A number that is not an integer literal, with the integer it equals if it equals one. -/
  | double (text : String) (integral : Option Int)
  | str (s : String)
  | arr (items : List Json)
  | obj (fields : List (String × Json))

/-- The fields of an object. A parsed object holds each key once. -/
abbrev JObject := List (String × Json)

namespace Json

def getAsObject : Json → Option JObject
  | .obj o => some o
  | _ => none

def getAsString : Json → Option String
  | .str s => some s
  | _ => none

end Json

namespace JObject

def get (o : JObject) (key : String) : Option Json :=
  (o.find? (·.1 == key)).map (·.2)

def getString (o : JObject) (key : String) : Option String :=
  match o.get key with
  | some (.str s) => some s
  | _ => none

def getBoolean (o : JObject) (key : String) : Option Bool :=
  match o.get key with
  | some (.bool b) => some b
  | _ => none

def getInteger (o : JObject) (key : String) : Option Int :=
  match o.get key with
  | some (.int n) => some n
  | some (.double _ n) => n
  | _ => none

def getObject (o : JObject) (key : String) : Option JObject :=
  match o.get key with
  | some (.obj fields) => some fields
  | _ => none

def getArray (o : JObject) (key : String) : Option (List Json) :=
  match o.get key with
  | some (.arr items) => some items
  | _ => none

end JObject
end Cajeta
