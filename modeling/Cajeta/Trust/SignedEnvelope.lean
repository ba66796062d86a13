import Cajeta.Json
import Cajeta.Lib.Result

/-!
# The signed envelope

One shape for every statement a repository signs: `openSignedEnvelope` returns the payload bytes
that a trusted key verified, and nothing unverified. What the toolchain takes from other libraries
(the JSON parser and printer, base64, SHA-256 and ed25519) is the parameter `Oracles`.
-/

namespace Cajeta.Trust
open Except

/-- The functions of LLVM and OpenSSL that verification rests on. -/
structure Oracles where
  parseJson : String → Option Json
  renderJson : Json → String
  decodeBase64 : String → Option String
  /-- The lower-case hex digest of the bytes. -/
  sha256Hex : String → String
  /-- Whether `signature` verifies over `data` under the PEM; `none` when the PEM is not a readable
  ed25519 key. -/
  verifyPem : (pem data signature : String) → Option Bool

structure RootKey where
  id : String
  pem : String
  shipped : Bool := false

structure SignedEnvelope where
  payload : String
  rootKeyId : String

/-- The only envelope version this build understands. -/
def kSupportedFormat : Int := 1

/-- Some key of `keys` verifies a signature over `payload`. -/
def SignedBy (o : Oracles) (keys : List RootKey) (payload : String) : Prop :=
  ∃ key ∈ keys, ∃ signature, o.verifyPem key.pem payload signature = some true

theorem SignedBy.mono (h : SignedBy o keys payload) (hsub : ∀ k ∈ keys, k ∈ keys') :
    SignedBy o keys' payload :=
  let ⟨key, hk, hs⟩ := h
  ⟨key, hsub key hk, hs⟩

/-- An unusable key is not an answer, so the walk goes on to the next one. -/
def openSignedEnvelope (o : Oracles) (envelopeJson : String) (roots : List RootKey)
    (what : String) : Except String SignedEnvelope := do
  let parsed ← orThrow (o.parseJson envelopeJson) (what ++ ": envelope is not valid JSON")
  let env ← orThrow parsed.getAsObject (what ++ ": envelope is not an object")
  let format ← orThrow (env.getInteger "format") (what ++ ": no format version")
  require (format = kSupportedFormat) (what ++ ": format version " ++ toString format ++
    " is not understood by this toolchain (expected " ++ toString kSupportedFormat ++ ")")
  let missing := what ++ ": envelope is missing root-key-id, payload or signature"
  let _ ← orThrow (env.getString "root-key-id") missing
  let payloadB64 ← orThrow (env.getString "payload") missing
  let signatureB64 ← orThrow (env.getString "signature") missing
  let payload ← orThrow (o.decodeBase64 payloadB64) (what ++ ": payload is not base64")
  let signature ← orThrow (o.decodeBase64 signatureB64) (what ++ ": signature is not base64")
  let root ← orThrow (roots.find? fun root => o.verifyPem root.pem payload signature == some true)
    (what ++ ": signature does not match any trusted root key (" ++ toString roots.length ++
      " checked)")
  return { payload, rootKeyId := root.id }

theorem openSignedEnvelope_signed (h : openSignedEnvelope o json roots what = .ok env) :
    SignedBy o roots env.payload := by
  simp only [openSignedEnvelope, bind_eq_ok, orThrow_eq_ok, require_eq_ok, pure_eq_ok] at h
  obtain ⟨_, _, _, _, _, _, _, _, _, _, _, _, _, _, payload, _, signature, _, root, hroot, rfl⟩ := h
  have hverify := List.find?_some hroot
  exact ⟨root, List.mem_of_find?_eq_some hroot, signature, by simpa using hverify⟩

/-! ## Timestamps -/

def kDaysBeforeMonth : List Int :=
  [0, 31, 59, 90, 120, 151, 181, 212, 243, 273, 304, 334]

def isLeap (y : Nat) : Bool := (y % 4 == 0 && y % 100 != 0) || y % 400 == 0

/-- Days from 1970-01-01, a validity window being independent of the host's time zone. -/
def daysFromEpoch (y m d : Nat) : Int :=
  let years := (List.range (y - 1970)).foldl
    (fun days i => days + if isLeap (1970 + i) then 366 else 365) (0 : Int)
  let days := years + kDaysBeforeMonth.getD (m - 1) 0
  (if m > 2 && isLeap y then days + 1 else days) + ((d : Int) - 1)

/-- The decimal number in `len` characters from position `at`. -/
def digitsAt (text : List Char) (pos len : Nat) : Nat :=
  ((text.drop pos).take len).foldl (fun v c => v * 10 + (c.toNat - '0'.toNat)) 0

/-- RFC 3339, UTC, seconds precision, `Z` only. -/
def parseUtcTimestamp (text : String) : Except String Int := do
  let t := text.toList
  require (t.length = 20 ∧ t[4]? = some '-' ∧ t[7]? = some '-' ∧ t[10]? = some 'T' ∧
      t[13]? = some ':' ∧ t[16]? = some ':' ∧ t[19]? = some 'Z')
    ("'" ++ text ++ "' is not an RFC 3339 UTC timestamp (YYYY-MM-DDTHH:MM:SSZ)")
  require (∀ i ∈ [0, 1, 2, 3, 5, 6, 8, 9, 11, 12, 14, 15, 17, 18],
      ((t[i]?).getD ' ').isDigit = true)
    ("'" ++ text ++ "' is not an RFC 3339 UTC timestamp")
  let year := digitsAt t 0 4
  let mon := digitsAt t 5 2
  let day := digitsAt t 8 2
  let hh := digitsAt t 11 2
  let mm := digitsAt t 14 2
  let ss := digitsAt t 17 2
  require (1970 ≤ year ∧ 1 ≤ mon ∧ mon ≤ 12 ∧ 1 ≤ day ∧ day ≤ 31 ∧ hh ≤ 23 ∧ mm ≤ 59 ∧ ss ≤ 60)
    ("'" ++ text ++ "' is out of range")
  return daysFromEpoch year mon day * 86400 + hh * 3600 + mm * 60 + ss

private theorem years_nonneg {start : Int} (h : 0 ≤ start) (l : List Nat) :
    0 ≤ l.foldl (fun days i => days + if isLeap (1970 + i) then 366 else 365) start := by
  induction l generalizing start with
  | nil => exact h
  | cons i l ih =>
    refine ih ?_
    have : (0 : Int) ≤ if isLeap (1970 + i) then 366 else 365 := by split <;> decide
    exact Int.add_nonneg h this

private theorem monthDays_nonneg (m : Nat) : 0 ≤ kDaysBeforeMonth.getD m 0 := by
  have hall : ∀ days ∈ kDaysBeforeMonth, 0 ≤ days := by decide
  rw [List.getD_eq_getElem?_getD]
  cases hm : kDaysBeforeMonth[m]? with
  | none => exact Int.le_refl 0
  | some days => exact hall days (List.mem_of_getElem? hm)

theorem daysFromEpoch_nonneg (hd : 1 ≤ d) : 0 ≤ daysFromEpoch y m d := by
  have hyears := years_nonneg (Int.le_refl 0) (List.range (y - 1970))
  have hmonth := monthDays_nonneg (m - 1)
  simp only [daysFromEpoch]
  split <;> omega

theorem parseUtcTimestamp_nonneg (h : parseUtcTimestamp text = .ok t) : 0 ≤ t := by
  simp only [parseUtcTimestamp, bind_eq_ok, require_eq_ok, pure_eq_ok] at h
  obtain ⟨_, _, _, _, _, ⟨_, _, _, hday, _⟩, rfl⟩ := h
  have := daysFromEpoch_nonneg (y := digitsAt text.toList 0 4) (m := digitsAt text.toList 5 2) hday
  omega

example : parseUtcTimestamp "1970-01-02T00:00:01Z" = .ok 86401 := by decide

/-!
## Repositories and the roots a machine trusts

A `Repository` is what one server answers while one release is verified. The server is the
adversary: nothing relates one answer to another, and `ask` numbers the requests of one kind that
verification repeats, so that a repeated request may be answered differently. Only `name` and
`origin` belong to the client's own configuration.
-/

structure Repository where
  /-- The label the user's manifest gives the repository. -/
  name : String
  /-- The stable identity that signed documents name. -/
  origin : String
  releaseMetadataJson : (ask : Nat) → (name version : String) → Except String (Option String)
  publishedChecksum : (name version : String) → Except String (Option String)
  publishedSignature : (name version : String) → Except String (Option String)
  organizationKeys : (ask : Nat) → (org : String) → Except String (Option String)
  repositoryKeys : Except String (Option String)
  /-- Whether the capabilities document advertises revocation. -/
  capabilities : Except String Bool
  revocations : Except String (Option String)

/-- One trust directory: the `.pem` files under `roots/`, by stem, and the files under `pins/`. -/
structure TrustDir where
  roots : List (String × String)
  pins : List (String × String)

structure RootTrustLayout where
  /-- The directories searched for operator roots and pins, highest precedence first. -/
  searchDirs : List TrustDir
  /-- The root embedded in this toolchain. -/
  shippedRoot : RootKey
  shippedOverride : Option RootKey := none

/-- A repository name reaches the filesystem here, so it must not escape the pins directory. -/
def isSafeName (name : String) : Bool :=
  let chars := name.toList
  !chars.isEmpty && name != "." && name != ".." &&
    chars.all (fun c => c.isAlphanum || c == '-' || c == '_' || c == '.') &&
    (chars.zip chars.tail).all (· != ('.', '.'))

/-- A trailing newline or blank in a pin file is tolerated. -/
def trimPin (text : String) : String :=
  String.ofList
    (text.toList.reverse.dropWhile fun c => c == '\n' || c == '\r' || c == ' ').reverse

def pinFor (layout : RootTrustLayout) (repositoryName : String) : Option String :=
  if isSafeName repositoryName then
    layout.searchDirs.findSome? fun dir =>
      ((dir.pins.find? (·.1 == repositoryName)).map fun pin => trimPin pin.2).filter
        fun id => !id.toList.isEmpty
  else none

/-- The first tier that holds a key id wins, and an empty file holds no key. -/
def addRoot (found : List RootKey) (entry : String × String) : List RootKey :=
  if found.any (·.id == entry.1) || entry.2.toList.isEmpty then found
  else found ++ [{ id := entry.1, pem := entry.2 }]

/-- Every root this machine trusts: the shipped one and the operator's. -/
def installedRoots (layout : RootTrustLayout) : List RootKey :=
  let shipped := layout.shippedOverride.getD layout.shippedRoot
  (layout.searchDirs.flatMap (·.roots)).foldl addRoot
    (if shipped.pem.toList.isEmpty then [] else [shipped])

/-- The roots a document from `repositoryName` may be verified against. A pin narrows them to one,
and is never widened when that one is missing. -/
def rootsFor (layout : RootTrustLayout) (repositoryName : String) :
    Except String (List RootKey) :=
  let found := installedRoots layout
  match pinFor layout repositoryName with
  | none => .ok found
  | some pin =>
    match found.find? (·.id == pin) with
    | some r => .ok [r]
    | none => .error ("repository '" ++ repositoryName ++ "' is pinned to root key '" ++ pin ++
        "', which is not installed. Install it with `cajeta trust add-root`, or clear the pin — " ++
        "refusing rather than falling back to the other " ++ toString found.length ++
        " trusted root(s).")

theorem rootsFor_installed (h : rootsFor layout name = .ok roots) :
    ∀ r ∈ roots, r ∈ installedRoots layout := by
  unfold rootsFor at h
  dsimp only at h
  split at h
  · cases h; exact fun _ hr => hr
  split at h
  · next r hfind =>
    cases h
    intro r' hr'
    cases List.mem_singleton.mp hr'
    exact List.mem_of_find?_eq_some hfind
  · cases h

end Cajeta.Trust
