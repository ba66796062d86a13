import Cajeta.Trust.OrgKeyDocument
import Cajeta.Trust.OrgKeyCache

/-!
# The publisher of an artifact

`verifyAgainstOrgDocument` binds an artifact to the organization whose key document is given: the
name lies in a namespace the document owns, and a key of it that is inside its window and not
revoked verifies the signature over the bytes.
-/

namespace Cajeta.Trust

inductive PublisherCheck where
  | verified
  /-- The name is outside what the organization owns. -/
  | «namespace»
  | noUsableKey
  | signature
  /-- Only a revoked key verifies the signature. -/
  | revoked
  | unreadable
  deriving DecidableEq

structure PublisherVerdict where
  check : PublisherCheck
  message : String := ""
  keyId : String := ""
  organization : String

def PublisherVerdict.ok (v : PublisherVerdict) : Bool := decide (v.check = .verified)

def joinNamespaces (ns : List String) : String := String.intercalate ", " ns

/-- Appended to every refusal. -/
def contactSuffix (doc : OrgKeyDocument) : String :=
  if doc.securityContact.uri = "" then ""
  else
    let label := doc.securityContact.label
    " Report a problem with '" ++ doc.organization ++ "' to " ++ doc.securityContact.uri ++
      (if label = "" then "" else " (" ++ label ++ ")") ++ "."

/-- Segment-aware: `dev.cajeta` owns `dev.cajeta.http` and not `dev.cajetaevil`. -/
def namespaceOwns (nameSpace name : String) : Bool :=
  let ns := nameSpace.toList
  let n := name.toList
  if ns.isEmpty || n.isEmpty then false
  else if name = nameSpace then true
  else ns.isPrefixOf n && n[ns.length]? == some '.'

/-- Whether the key verifies the signature over the file; `none` when one of them is unreadable. -/
def verifyDetachedEd25519File (o : Oracles) (artifact : Option String) (signature pem : String) :
    Option Bool :=
  artifact.bind fun data => o.verifyPem pem data signature

/-- What the walk over the usable keys has met before a key verified. -/
structure KeyWalk where
  unreadable : Bool := false
  blockedBy : Option RevokedKey := none

/-- The entry of the statement in force that revokes `key`. -/
def revokedBy (doc : OrgKeyDocument) (revocation : Option KeyRevocation) (key : OrgSigningKey) :
    Option RevokedKey :=
  revocation.bind fun rev => rev.find key.id doc.organization

/-- The first key that is not revoked and verifies, else what the walk has met. A revoked key that
would have verified is held and not returned: a good key may sit beside it. -/
def walkKeys (o : Oracles) (doc : OrgKeyDocument) (artifact : Option String) (signature : String)
    (revocation : Option KeyRevocation) : List OrgSigningKey → KeyWalk → OrgSigningKey ⊕ KeyWalk
  | [], w => .inr w
  | key :: keys, w =>
    let ok := verifyDetachedEd25519File o artifact signature key.publicKeyPem
    match revokedBy doc revocation key with
    | some r =>
      walkKeys o doc artifact signature revocation keys
        (if ok = some true then { w with blockedBy := some r } else w)
    | none =>
      match ok with
      | none => walkKeys o doc artifact signature revocation keys { w with unreadable := true }
      | some true => .inl key
      | some false => walkKeys o doc artifact signature revocation keys w

def verifyAgainstOrgDocument (o : Oracles) (doc : OrgKeyDocument) (artifactName : String)
    (artifact : Option String) (signature : String) (now : Int)
    (revocation : Option KeyRevocation) : PublisherVerdict :=
  let v (check : PublisherCheck) (message : String) (keyId : String := "") : PublisherVerdict :=
    { check, message := message ++ contactSuffix doc, keyId, organization := doc.organization }
  if doc.namespaces.any (namespaceOwns · artifactName) = false then
    v .namespace ("'" ++ artifactName ++ "' is outside the namespaces '" ++ doc.organization ++
      "' owns (" ++ joinNamespaces doc.namespaces ++ "). A key valid for one organization must " ++
      "not sign another's name, so this is refused whether or not the signature is good.")
  else
    let usable := usableKeys doc.keys now
    if usable.isEmpty then
      v .noUsableKey ("'" ++ doc.organization ++ "' has no signing key inside its validity " ++
        "window right now, so nothing it published can be verified. The organization needs a " ++
        "current key published before this installs.")
    else
      match walkKeys o doc artifact signature revocation usable {} with
      | .inl key => { check := .verified, keyId := key.id, organization := doc.organization }
      | .inr ⟨_, some r⟩ =>
        v .revoked ("'" ++ artifactName ++ "' is signed by key '" ++ r.id ++ "' of '" ++
          doc.organization ++ "', which has been REVOKED" ++
          (if r.reason = "" then "." else ": " ++ r.reason) ++ " The signature is genuine; the " ++
          "key is not trusted any more. A new release signed by a current key is the only thing " ++
          "that installs.") r.id
      | .inr ⟨true, none⟩ =>
        v .unreadable ("the signature for '" ++ artifactName ++ "' could not be checked: no key " ++
          "in '" ++ doc.organization ++ "'s key document could be read as an ed25519 public " ++
          "key. This is 'we could not check', not 'it is fine'.")
      | .inr ⟨false, none⟩ =>
        v .signature ("the signature for '" ++ artifactName ++ "' does not match any of the " ++
          toString usable.length ++ " key(s) '" ++ doc.organization ++ "' has valid right now. " ++
          "The bytes are signed, but not by the organization that owns this name.")

example : namespaceOwns "dev.cajeta" "dev.cajeta.http" ∧
    namespaceOwns "dev.cajeta" "dev.cajetaevil" = false := by decide

theorem walkKeys_inl (h : walkKeys o doc artifact signature revocation keys w = .inl key) :
    key ∈ keys ∧ revokedBy doc revocation key = none ∧
      verifyDetachedEd25519File o artifact signature key.publicKeyPem = some true := by
  induction keys generalizing w with
  | nil => simp [walkKeys] at h
  | cons k keys ih =>
    simp only [walkKeys] at h
    have tail {w} (h : walkKeys o doc artifact signature revocation keys w = .inl key) :=
      let ⟨hmem, hrest⟩ := ih h
      show key ∈ k :: keys ∧ _ from ⟨List.mem_cons_of_mem _ hmem, hrest⟩
    split at h
    · exact tail h
    · next hrev =>
      split at h
      · exact tail h
      · next hok => cases h; exact ⟨List.mem_cons_self, hrev, hok⟩
      · exact tail h

/-- `key` of `doc` verifies the publisher's signature over the artifact called `name`. -/
structure PublisherSigned (o : Oracles) (doc : OrgKeyDocument) (name : String)
    (artifact : Option String) (signature : String) (now : Int)
    (revocation : Option KeyRevocation) (key : OrgSigningKey) : Prop where
  listed : key ∈ doc.keys
  usable : key.usableAt now = true
  owned : ∃ ns ∈ doc.namespaces, namespaceOwns ns name = true
  notRevoked : ∀ rev, revocation = some rev → rev.find key.id doc.organization = none
  verifies : ∃ bytes, artifact = some bytes ∧
    o.verifyPem key.publicKeyPem bytes signature = some true

theorem verifyAgainstOrgDocument_ok
    (h : (verifyAgainstOrgDocument o doc name artifact signature now revocation).ok = true) :
    ∃ key, PublisherSigned o doc name artifact signature now revocation key := by
  simp only [verifyAgainstOrgDocument] at h
  split at h
  · cases h
  next hown =>
  split at h
  · cases h
  split at h
  case h_1 key hwalk =>
    obtain ⟨hmem, hrev, hok⟩ := walkKeys_inl hwalk
    obtain ⟨hkey, husable⟩ := mem_usableKeys.mp hmem
    refine ⟨key, hkey, husable, ?_, ?_, ?_⟩
    · simpa using hown
    · rintro rev rfl
      simpa [revokedBy] using hrev
    · simpa [verifyDetachedEd25519File, Option.bind_eq_some_iff] using hok
  all_goals cases h

/-!
## Which hash a release is held to

`loadReleaseMetadata` reads what a repository says about one release, out of a verified envelope
when one is present. `releaseIntegrityFor` decides where the release's hash comes from: metadata
that is present and does not verify is an error, and only absent or unsigned metadata falls back to
the published checksum.
-/
open Except

structure ReleaseMetadata where
  name : String := ""
  version : String := ""
  sha256 : String := ""
  organization : String := ""
  signedByRoot : Bool := false
  rootKeyId : String := ""
  retracted : Bool := false
  retractedReason : String := ""

/-- The comparison side always produces the prefixed form. -/
def normaliseDigest (sha : String) : String :=
  if sha ≠ "" ∧ ¬ "sha256:".toList <+: sha.toList then "sha256:" ++ sha else sha

def readFields (obj : JObject) : ReleaseMetadata where
  name := (obj.getString "name").getD ""
  version := (obj.getString "version").getD ""
  sha256 := ((obj.getString "sha256").map normaliseDigest).getD ""
  organization := (obj.getString "organization").getD ""
  retracted := (obj.getBoolean "retracted").getD false
  retractedReason := (obj.getString "retracted-reason").getD ""

/-- The envelope of a metadata document: the document itself, or the object under `signed`. -/
def metadataEnvelope (obj : JObject) : Option JObject :=
  if (obj.get "payload").isSome && (obj.get "signature").isSome then some obj
  else obj.getObject "signed"

def readSignedPayload (o : Oracles) (envelope : SignedEnvelope) : Except String JObject := do
  let body ← orThrow (o.parseJson envelope.payload)
    "release metadata: signed payload is not valid JSON"
  orThrow body.getAsObject "release metadata: signed payload is not an object"

/-- The envelope decides when there is one: merging in the plain fields would trust an unsigned
value. -/
def metadataFields (o : Oracles) (obj : JObject) (verifiers : List RootKey) :
    Except String ReleaseMetadata :=
  match metadataEnvelope obj with
  | some envelopeObj => do
    let envelope ← openSignedEnvelope o (o.renderJson (.obj envelopeObj)) verifiers
      "release metadata"
    let inner ← readSignedPayload o envelope
    return { readFields inner with signedByRoot := true, rootKeyId := envelope.rootKeyId }
  | none => .ok (readFields obj)

def loadReleaseMetadata (o : Oracles) (json : String) (verifiers : List RootKey) :
    Except String ReleaseMetadata := do
  let parsed ← orThrow (o.parseJson json) "release metadata: not valid JSON"
  let obj ← orThrow parsed.getAsObject "release metadata: not a JSON object"
  let md ← metadataFields o obj verifiers
  require (md.sha256 ≠ "") "release metadata: no sha256"
  return md

/-- `md` is what the object in a payload signed by one of `keys` says. -/
def SignedMetadata (o : Oracles) (keys : List RootKey) (payload : JObject)
    (md : ReleaseMetadata) : Prop :=
  ∃ envelope, SignedBy o keys envelope.payload ∧ readSignedPayload o envelope = .ok payload ∧
    md = { readFields payload with signedByRoot := true, rootKeyId := envelope.rootKeyId }

theorem metadataFields_signed (h : metadataFields o obj verifiers = .ok md) :
    md.signedByRoot = (metadataEnvelope obj).isSome ∧
      (md.signedByRoot = true → ∃ payload, SignedMetadata o verifiers payload md) := by
  unfold metadataFields at h
  split at h
  · next henv =>
    simp only [bind_eq_ok, pure_eq_ok] at h
    obtain ⟨envelope, hopen, inner, hinner, rfl⟩ := h
    exact ⟨by simp [henv], fun _ => ⟨inner, envelope, openSignedEnvelope_signed hopen, hinner, rfl⟩⟩
  · next henv =>
    cases h
    exact ⟨by simp [henv, readFields], fun h => absurd h (by simp [readFields])⟩

theorem loadReleaseMetadata_ok (h : loadReleaseMetadata o json verifiers = .ok md) :
    md.sha256 ≠ "" ∧ ∃ parsed obj, o.parseJson json = some parsed ∧
      parsed.getAsObject = some obj ∧ metadataFields o obj verifiers = .ok md := by
  simp only [loadReleaseMetadata, bind_eq_ok, orThrow_eq_ok, require_eq_ok, pure_eq_ok] at h
  obtain ⟨parsed, hparsed, obj, hobj, _, hmd, _, hsha, rfl⟩ := h
  exact ⟨hsha, parsed, obj, hparsed, hobj, hmd⟩

/-! ## Release integrity -/

structure ReleaseIntegrity where
  sha256 : String := ""
  fromSignedMetadata : Bool := false
  organization : String := ""
  rootKeyId : String := ""
  viaDelegation : Bool := false
  retracted : Bool := false
  retractedReason : String := ""

def metadataVerifiers (repo : Repository) (roots : List RootKey)
    (delegation : Option RepositoryDelegation) (now : Int) : Except String (List RootKey) :=
  match delegation with
  | none => .ok roots
  | some delegation => do
    let verifiers := delegation.verifiers now
    require (verifiers ≠ []) ("repository '" ++ repo.name ++ "' delegates release signing, but " ++
      "no delegated key is inside its validity window right now, so nothing it serves can be " ++
      "verified")
    return verifiers

def sidecarDigest (repo : Repository) (name version : String) : String :=
  match repo.publishedChecksum name version with
  | .ok (some digest) => digest
  | _ => ""

/-- The release metadata that verified, `none` when there is none to be had: a failure to ask is
not an answer. -/
def servedMetadata (o : Oracles) (repo : Repository) (name version : String)
    (verifiers : List RootKey) : Except String (Option ReleaseMetadata) :=
  match repo.releaseMetadataJson 0 name version with
  | .error _ => .ok none
  | .ok none => .ok none
  | .ok (some json) => do
    let md ← wrap (loadReleaseMetadata o json verifiers) fun e =>
      "the release metadata for '" ++ name ++ "' " ++ version ++ " from " ++ repo.name ++
      " did not verify: " ++ e
    return some md

def releaseIntegrityFor (o : Oracles) (repo : Repository) (name version : String)
    (roots : List RootKey) (delegation : Option RepositoryDelegation) (now : Int) :
    Except String ReleaseIntegrity := do
  let verifiers ← metadataVerifiers repo roots delegation now
  let viaDelegation := delegation.isSome
  match ← servedMetadata o repo name version verifiers with
  | some md =>
    if md.signedByRoot ∧ md.sha256 ≠ "" then
      return { sha256 := md.sha256, fromSignedMetadata := true, organization := md.organization,
               rootKeyId := md.rootKeyId, viaDelegation, retracted := md.retracted,
               retractedReason := md.retractedReason }
    else
      -- No more authority than the sidecar, but the retraction still travels as a warning.
      return { sha256 := sidecarDigest repo name version, viaDelegation,
               retracted := md.retracted, retractedReason := md.retractedReason }
  | none => return { sha256 := sidecarDigest repo name version, viaDelegation }

def ServesSigned (o : Oracles) (repo : Repository) (name version : String) : Prop :=
  ∃ json parsed obj, repo.releaseMetadataJson 0 name version = .ok (some json) ∧
    o.parseJson json = some parsed ∧ parsed.getAsObject = some obj ∧
    (metadataEnvelope obj).isSome

/-- A verdict from signed metadata carries the fields of a payload that a verifier in force signed.
-/
theorem releaseIntegrityFor_signed
    (h : releaseIntegrityFor o repo name version roots delegation now = .ok integrity)
    (hsigned : integrity.fromSignedMetadata = true) :
    ∃ verifiers md payload, metadataVerifiers repo roots delegation now = .ok verifiers ∧
      servedMetadata o repo name version verifiers = .ok (some md) ∧
      SignedMetadata o verifiers payload md ∧ md.sha256 ≠ "" ∧
      integrity.sha256 = md.sha256 ∧ integrity.organization = md.organization := by
  simp only [releaseIntegrityFor, bind_eq_ok] at h
  obtain ⟨verifiers, hverifiers, served, hserved, h⟩ := h
  split at h
  · next md =>
    split at h
    · next hmd =>
      rw [pure_eq_ok] at h
      subst h
      obtain ⟨payload, hpayload⟩ : ∃ payload, SignedMetadata o verifiers payload md := by
        unfold servedMetadata at hserved
        split at hserved
        · cases hserved
        · cases hserved
        · simp only [bind_eq_ok, wrap_eq_ok, pure_eq_ok, Option.some.injEq] at hserved
          obtain ⟨md', hload, rfl⟩ := hserved
          obtain ⟨_, _, _, _, _, hfields⟩ := loadReleaseMetadata_ok hload
          exact (metadataFields_signed hfields).2 hmd.1
      exact ⟨verifiers, md, payload, hverifiers, hserved, hpayload, hmd.2, rfl, rfl⟩
    · rw [pure_eq_ok] at h; subst h; cases hsigned
  · rw [pure_eq_ok] at h; subst h; cases hsigned

theorem releaseIntegrityFor_unsigned
    (h : releaseIntegrityFor o repo name version roots delegation now = .ok integrity)
    (hunsigned : integrity.fromSignedMetadata = false) : ¬ ServesSigned o repo name version := by
  rintro ⟨json, parsed, obj, hraw, hparse, hobj, henv⟩
  simp only [releaseIntegrityFor, bind_eq_ok] at h
  obtain ⟨verifiers, _, served, hserved, h⟩ := h
  simp only [servedMetadata, hraw, bind_eq_ok, wrap_eq_ok, pure_eq_ok] at hserved
  obtain ⟨md, hload, rfl⟩ := hserved
  obtain ⟨hsha, _, _, hp, ho, hfields⟩ := loadReleaseMetadata_ok hload
  cases hparse.symm.trans hp
  cases hobj.symm.trans ho
  have hroot : md.signedByRoot = true := (metadataFields_signed hfields).1.trans henv
  simp only [hroot, hsha, ne_eq, not_false_iff, and_self, if_true, pure_eq_ok] at h
  subst h
  cases hunsigned

end Cajeta.Trust
