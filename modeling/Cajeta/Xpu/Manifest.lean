import Cajeta.Lib.Bytes
import Mathlib.Tactic.Common

/-!
# What a launch reads of a kernel's manifest

The access modes of the parameters and the block the kernel was built for.
-/

namespace Cajeta.Xpu

/-- The text behind the first occurrence of `key`. -/
def textAfter (key : List UInt8) : List UInt8 → Option (List UInt8)
  | [] => none
  | c :: s => if key.isPrefixOf (c :: s) then some ((c :: s).drop key.length) else textAfter key s

def text (s : String) : List UInt8 := s.toUTF8.data.toList

def isBlank (c : UInt8) : Bool := c = 32 || c = 10 || c = 13 || c = 9

def isDigit (c : UInt8) : Bool := 48 ≤ c && c ≤ 57

inductive AccessMode where
  | read | write | readwrite | accumulate
deriving DecidableEq

/-- A mode as it stands in quotes behind `"mode":`. -/
def readMode (s : List UInt8) : Option AccessMode :=
  match s.dropWhile fun c => c = 32 || c = 58 with
  | 34 :: s =>
    if (text "readwrite").isPrefixOf s then some .readwrite
    else if (text "read").isPrefixOf s then some .read
    else if (text "write").isPrefixOf s then some .write
    else if (text "accumulate").isPrefixOf s then some .accumulate
    else none
  | _ => none

/-- The loop over the text from the bracket on: `depth` counts brackets, `entry` is the number of
objects of the outer array that have been opened. -/
def accessLoop (index : Nat) : List UInt8 → (depth : Int) → (entry : Nat) → Option AccessMode
  | [], _, _ => none
  | c :: s, depth, entry =>
    if c = 91 then accessLoop index s (depth + 1) entry
    else if c = 93 then if depth - 1 = 0 then none else accessLoop index s (depth - 1) entry
    else if c = 123 ∧ depth = 1 then accessLoop index s depth (entry + 1)
    else if entry ≠ index + 1 then accessLoop index s depth entry
    else if (text "\"mode\"").isPrefixOf (c :: s) then readMode ((c :: s).drop 6)
    else accessLoop index s depth entry

/-- `caj_xpu_manifest_access_mode`; none for a mode that is absent or unknown. -/
def manifestAccessMode (json : List UInt8) (index : Nat) : Option AccessMode :=
  (textAfter (text "\"access\"") json).bind fun s =>
    accessLoop index (s.dropWhile (· ≠ 91)) 0 0

abbrev Block := Nat × Nat × Nat

def digitsValue (s : List UInt8) : Nat := s.foldl (fun v c => v * 10 + (c.toNat - 48)) 0

def blockNumber (s : List UInt8) : Option (Nat × List UInt8) :=
  let s := s.dropWhile fun c => isBlank c || c = 44
  let digits := s.takeWhile isDigit
  if digits = [] ∨ 2 ^ 20 < digitsValue digits then none
  else some (digitsValue digits, s.dropWhile isDigit)

/-- `caj_xpu_manifest_block`. -/
def manifestBlock (json : List UInt8) : Option Block :=
  (textAfter (text "\"block\":") json).bind fun s =>
    match s.dropWhile isBlank with
    | 91 :: s => do
      let (x, s) ← blockNumber s
      let (y, s) ← blockNumber s
      let (z, _) ← blockNumber s
      if 0 < x ∧ 0 < y ∧ 0 < z then some (x, y, z) else none
    | _ => none

/-! ## Fault bindings -/

/-- `caj_vk_declares_binding` over the instructions of a SPIR-V module. -/
def declaresLoop (binding : UInt32) : (fuel : Nat) → List UInt32 → Bool
  | 0, _ => false
  | _ + 1, [] => false
  | fuel + 1, w :: ws =>
    let wc := (w >>> 16).toNat
    let op := w &&& 0xFFFF
    if wc = 0 then false
    else if op = 71 ∧ 4 ≤ wc ∧ ws[1]? = some 33 ∧ ws[2]? = some binding then true
    else if op = 54 then false
    else declaresLoop binding fuel ((w :: ws).drop wc)

/-- `caj_vk_declares_binding`: every instruction has a word at least. -/
def declaresBinding (spirv : List UInt32) (binding : UInt32) : Bool :=
  declaresLoop binding spirv.length (spirv.drop 5)

end Cajeta.Xpu
