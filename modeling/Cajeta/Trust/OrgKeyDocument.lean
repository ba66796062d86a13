import Cajeta.Trust.SignedEnvelope

/-!
# The documents a root signs

The organization key document (which keys sign for an organization and which namespaces it owns)
and the repository delegation (which keys may sign release metadata). Each loader verifies before
it parses, and refuses a document that has expired or that is older than the newest one seen.
-/

namespace Cajeta.Trust
open Except

structure OrgSigningKey where
  id : String
  algorithm : String
  publicKeyPem : String
  notBefore : Int
  notAfter : Int

def OrgSigningKey.usableAt (key : OrgSigningKey) (now : Int) : Bool :=
  decide (now ≥ key.notBefore) && decide (now < key.notAfter)

structure SecurityContact where
  uri : String := ""
  label : String := ""

structure OrgKeyDocument where
  organization : String
  namespaces : List String
  keys : List OrgSigningKey
  issuedAt : Int
  notAfter : Int
  rootKeyId : String
  securityContact : SecurityContact

/-- The keys of a document that are inside their validity window. -/
def usableKeys (keys : List OrgSigningKey) (now : Int) : List OrgSigningKey :=
  keys.filter (·.usableAt now)

theorem mem_usableKeys : key ∈ usableKeys keys now ↔ key ∈ keys ∧ key.usableAt now := by
  simp [usableKeys]

def parseSigningKey (what : String) (entry : Json) : Except String OrgSigningKey := do
  let k ← orThrow entry.getAsObject (what ++ ": a key is not an object")
  let missing := what ++
    ": a key is missing id, algorithm, public-key, not-before or not-after"
  let id ← orThrow (k.getString "id") missing
  let alg ← orThrow (k.getString "algorithm") missing
  let pem ← orThrow (k.getString "public-key") missing
  let nb ← orThrow (k.getString "not-before") missing
  let na ← orThrow (k.getString "not-after") missing
  require (alg = "ed25519")
    (what ++ ": key '" ++ id ++ "' uses unsupported algorithm '" ++ alg ++ "'")
  let notBefore ← parseUtcTimestamp nb
  let notAfter ← parseUtcTimestamp na
  require (notBefore < notAfter) (what ++ ": key '" ++ id ++
    "' has a not-after at or before its not-before, so it is never usable")
  return { id, algorithm := alg, publicKeyPem := pem, notBefore, notAfter }

def parseSigningKeys (keys : List Json) (what : String) : Except String (List OrgSigningKey) :=
  keys.mapM (parseSigningKey what)

/-! ## The organization key document -/

def parseNamespace (entry : Json) : Except String String := do
  let refusal := "organization key document: a namespace entry is not a non-empty string"
  let s ← orThrow entry.getAsString refusal
  require (s ≠ "") refusal
  return s

def parseSecurityContact (organization : String) (obj : JObject) :
    Except String SecurityContact :=
  match obj.getObject "security-contact" with
  | none => .ok {}
  | some contact => do
    let refusal := "organization key document for '" ++ organization ++
      "' carries a security-contact with no uri"
    let uri ← orThrow (contact.getString "uri") refusal
    require (uri ≠ "") refusal
    return { uri, label := (contact.getString "label").getD "" }

/-- The document a verified envelope carries, and the texts of its two timestamps. -/
def readOrgKeyDocument (o : Oracles) (envelope : SignedEnvelope) :
    Except String (OrgKeyDocument × String × String) := do
  let body ← orThrow (o.parseJson envelope.payload)
    "organization key document: payload is not valid JSON"
  let obj ← orThrow body.getAsObject "organization key document: payload is not an object"
  let noOrganization := "organization key document: no organization"
  let organization ← orThrow (obj.getString "organization") noOrganization
  require (organization ≠ "") noOrganization
  let noNamespaces := "organization key document: '" ++ organization ++
    "' claims no namespaces — a document that owns nothing can authorise nothing"
  let entries ← orThrow (obj.getArray "namespaces") noNamespaces
  require (entries ≠ []) noNamespaces
  let namespaces ← entries.mapM parseNamespace
  let issued ← orThrow (obj.getString "issued-at")
    ("organization key document for '" ++ organization ++ "' has no issued-at. Without it a " ++
      "previous, still unexpired document can be replayed, reinstating every key this " ++
      "organization has removed.")
  let issuedAt ← parseUtcTimestamp issued
  let securityContact ← parseSecurityContact organization obj
  let expires ← orThrow (obj.getString "not-after") "organization key document: no not-after"
  let notAfter ← parseUtcTimestamp expires
  let noKeys := "organization key document: '" ++ organization ++ "' lists no keys"
  let keyEntries ← orThrow (obj.getArray "keys") noKeys
  require (keyEntries ≠ []) noKeys
  let keys ← parseSigningKeys keyEntries "organization key document"
  return ({ organization, namespaces, keys, issuedAt, notAfter,
            rootKeyId := envelope.rootKeyId, securityContact }, issued, expires)

/-- Expiry last, and freshness after it, so an old document reports as expired and not as rolled
back. `seenIssuedAt = 0` means that none was seen. -/
def loadOrgKeyDocument (o : Oracles) (envelopeJson : String) (roots : List RootKey)
    (now seenIssuedAt : Int) : Except String OrgKeyDocument := do
  let envelope ← openSignedEnvelope o envelopeJson roots "organization key document"
  let (doc, issued, expires) ← readOrgKeyDocument o envelope
  require (now < doc.notAfter) ("organization key document for '" ++ doc.organization ++
    "' expired at " ++ expires ++ "; it is validly signed but out of date, and a stale " ++
    "document is how revocation-by-expiry gets bypassed")
  require (seenIssuedAt = 0 ∨ seenIssuedAt ≤ doc.issuedAt) ("organization key document for '" ++
    doc.organization ++ "' is older than one already accepted (issued " ++ issued ++ "). It is " ++
    "validly signed and inside its own window, which is exactly what makes a replayed document " ++
    "useful: it reinstates keys that were removed.")
  return doc

/-- `doc` is carried by a payload that one of `roots` signed. -/
def RootSignedDocument (o : Oracles) (roots : List RootKey) (doc : OrgKeyDocument) : Prop :=
  ∃ envelope issued expires, SignedBy o roots envelope.payload ∧
    readOrgKeyDocument o envelope = .ok (doc, issued, expires)

theorem readOrgKeyDocument_organization
    (h : readOrgKeyDocument o envelope = .ok (doc, issued, expires)) : doc.organization ≠ "" := by
  simp only [readOrgKeyDocument, bind_eq_ok, orThrow_eq_ok, require_eq_ok, pure_eq_ok] at h
  obtain ⟨_, _, _, _, _, _, _, hne, _, _, _, _, _, _, _, _, _, _, _, _, _, _, _, _, _, _,
    _, _, _, _,
    h⟩ := h
  cases h
  exact hne

theorem readOrgKeyDocument_issuedAt
    (h : readOrgKeyDocument o envelope = .ok (doc, issued, expires)) : 0 ≤ doc.issuedAt := by
  simp only [readOrgKeyDocument, bind_eq_ok, orThrow_eq_ok, require_eq_ok, pure_eq_ok] at h
  obtain ⟨_, _, _, _, _, _, _, _, _, _, _, _, _, _, _, _, issuedAt, hissued, _, _, _, _, _,
    _, _, _, _,
    _, _, _, h⟩ := h
  cases h
  exact parseUtcTimestamp_nonneg hissued

structure FreshDocument (o : Oracles) (roots : List RootKey) (now seenIssuedAt : Int)
    (doc : OrgKeyDocument) : Prop where
  signed : RootSignedDocument o roots doc
  named : doc.organization ≠ ""
  issued : 0 ≤ doc.issuedAt
  current : now < doc.notAfter
  fresh : seenIssuedAt = 0 ∨ seenIssuedAt ≤ doc.issuedAt

theorem loadOrgKeyDocument_fresh
    (h : loadOrgKeyDocument o json roots now seenIssuedAt = .ok doc) :
    FreshDocument o roots now seenIssuedAt doc := by
  simp only [loadOrgKeyDocument, bind_eq_ok, require_eq_ok, pure_eq_ok] at h
  obtain ⟨envelope, hopen, ⟨doc', issued, expires⟩, hread, _, hcurrent, _, hfresh, rfl⟩ := h
  exact ⟨⟨envelope, issued, expires, openSignedEnvelope_signed hopen, hread⟩,
    readOrgKeyDocument_organization hread, readOrgKeyDocument_issuedAt hread, hcurrent, hfresh⟩

/-! ## The repository delegation -/

structure RepositoryDelegation where
  repository : String
  keys : List OrgSigningKey
  notAfter : Int
  issuedAt : Int
  rootKeyId : String

/-- The signed discriminator that an organization key document does not carry. -/
def kDelegationType : String := "repository-delegation"

def readRepositoryDelegation (o : Oracles) (envelope : SignedEnvelope) (origin : String) :
    Except String (RepositoryDelegation × String × String) := do
  let body ← orThrow (o.parseJson envelope.payload)
    "repository delegation: payload is not valid JSON"
  let obj ← orThrow body.getAsObject "repository delegation: payload is not an object"
  require (obj.getString "type" = some kDelegationType)
    ("repository delegation: payload is not of type '" ++ kDelegationType ++ "'. A document " ++
      "that does not say what it is must never be read as a delegation — an organization key " ++
      "document read as one would let that organization sign release metadata for every other " ++
      "organization.")
  let noRepository := "repository delegation: no repository"
  let repository ← orThrow (obj.getString "repository") noRepository
  require (repository ≠ "") noRepository
  require (repository = origin) ("repository delegation claims '" ++ repository ++
    "' but was fetched from '" ++ origin ++ "'; one repository's delegation must not be " ++
    "replayable at another, or its online release key would sign for both")
  let issued ← orThrow (obj.getString "issued-at") ("repository delegation for '" ++ repository ++
    "' has no issued-at. Without it a previous, still unexpired delegation can be replayed, " ++
    "reinstating the release key that was rotated out.")
  let issuedAt ← parseUtcTimestamp issued
  let expires ← orThrow (obj.getString "not-after") "repository delegation: no not-after"
  let notAfter ← parseUtcTimestamp expires
  let noKeys := "repository delegation for '" ++ repository ++
    "' lists no keys, so it delegates nothing"
  let keyEntries ← orThrow (obj.getArray "keys") noKeys
  require (keyEntries ≠ []) noKeys
  let keys ← parseSigningKeys keyEntries "repository delegation"
  return ({ repository, keys, notAfter, issuedAt, rootKeyId := envelope.rootKeyId },
    issued, expires)

def loadRepositoryDelegation (o : Oracles) (envelopeJson : String) (roots : List RootKey)
    (origin : String) (now seenIssuedAt : Int) : Except String RepositoryDelegation := do
  let envelope ← openSignedEnvelope o envelopeJson roots "repository delegation"
  let (del, issued, expires) ← readRepositoryDelegation o envelope origin
  require (now < del.notAfter) ("repository delegation for '" ++ del.repository ++
    "' expired at " ++ expires ++ "; it is validly signed but out of date, and a stale " ++
    "delegation is how a revoked signing key keeps working")
  require (seenIssuedAt = 0 ∨ seenIssuedAt ≤ del.issuedAt) ("repository delegation for '" ++
    del.repository ++ "' is older than one already accepted (issued " ++ issued ++ "). It is " ++
    "validly signed and inside its own window, which is exactly what makes a replayed " ++
    "delegation useful: it reinstates the release key that was rotated out.")
  return del

/-- `del` is carried by a payload that one of `roots` signed. -/
def RootSignedDelegation (o : Oracles) (roots : List RootKey) (del : RepositoryDelegation) :
    Prop :=
  ∃ envelope origin issued expires, SignedBy o roots envelope.payload ∧
    readRepositoryDelegation o envelope origin = .ok (del, issued, expires)

theorem loadRepositoryDelegation_signed
    (h : loadRepositoryDelegation o json roots origin now seenIssuedAt = .ok del) :
    RootSignedDelegation o roots del ∧ now < del.notAfter := by
  simp only [loadRepositoryDelegation, bind_eq_ok, require_eq_ok, pure_eq_ok] at h
  obtain ⟨envelope, hopen, ⟨del', issued, expires⟩, hread, _, hcurrent, _, _, rfl⟩ := h
  exact ⟨⟨envelope, origin, issued, expires, openSignedEnvelope_signed hopen, hread⟩, hcurrent⟩

/-!
## The revocation statement

Signed by a delegated key, it can only subtract trust: a key id it lists verifies nothing. Once a
repository advertises revocation, a statement that is missing, expired, unverifiable or older than
the mark `seenIssuedAt` is a refusal.
-/

structure RevokedKey where
  id : String
  /-- Empty means every document: key ids are only unique within one. -/
  organization : String := ""
  revokedAt : Int := 0
  reason : String := ""

structure KeyRevocation where
  repository : String
  issuedAt : Int
  notAfter : Int
  revoked : List RevokedKey
  signedByKeyId : String

/-- The entry that revokes `keyId` for `organization`. -/
def KeyRevocation.find (rev : KeyRevocation) (keyId organization : String) : Option RevokedKey :=
  rev.revoked.find? fun r =>
    r.id == keyId && (r.organization == "" || r.organization == organization)

def kRevocationType : String := "key-revocation"

def RepositoryDelegation.verifiers (delegation : RepositoryDelegation) (now : Int) :
    List RootKey :=
  (usableKeys delegation.keys now).map fun k => { id := k.id, pem := k.publicKeyPem }

def parseRevokedKey (entry : Json) : Except String RevokedKey := do
  let e ← orThrow entry.getAsObject "revocation statement: entry is not an object"
  let noId := "revocation statement: entry has no id"
  let id ← orThrow (e.getString "id") noId
  require (id ≠ "") noId
  let revokedAt ← match e.getString "revoked-at" with
    | some text => parseUtcTimestamp text
    | none => .ok 0
  return { id, organization := (e.getString "organization").getD "",
           reason := (e.getString "reason").getD "", revokedAt }

/-- The statement a verified envelope carries, and the text of its expiry. -/
def readKeyRevocation (o : Oracles) (envelope : SignedEnvelope) (origin : String) :
    Except String (KeyRevocation × String) := do
  let body ← orThrow (o.parseJson envelope.payload)
    "revocation statement: payload is not valid JSON"
  let obj ← orThrow body.getAsObject "revocation statement: payload is not an object"
  require (obj.getString "type" = some kRevocationType)
    ("revocation statement: payload is not of type '" ++ kRevocationType ++ "'")
  let noRepository := "revocation statement: no repository"
  let repository ← orThrow (obj.getString "repository") noRepository
  require (repository ≠ "") noRepository
  require (repository = origin) ("revocation statement claims repository '" ++ repository ++
    "' but was fetched from '" ++ origin ++ "'; one repository's statement must not be " ++
    "replayable at another")
  let issued ← orThrow (obj.getString "issued-at") "revocation statement: no issued-at"
  let issuedAt ← parseUtcTimestamp issued
  let expires ← orThrow (obj.getString "not-after") "revocation statement: no not-after"
  let notAfter ← parseUtcTimestamp expires
  let entries ← orThrow (obj.getArray "revoked") "revocation statement: no revoked list"
  let revoked ← entries.mapM parseRevokedKey
  return ({ repository, issuedAt, notAfter, revoked,
            signedByKeyId := envelope.rootKeyId }, expires)

def loadKeyRevocation (o : Oracles) (envelopeJson : String) (delegation : RepositoryDelegation)
    (origin : String) (now seenIssuedAt : Int) : Except String KeyRevocation := do
  let verifiers := delegation.verifiers now
  require (verifiers ≠ []) ("revocation statement: the repository delegation has no key inside " ++
    "its validity window right now, so nothing it signs can be verified")
  let envelope ← openSignedEnvelope o envelopeJson verifiers "revocation statement"
  let (rev, expires) ← readKeyRevocation o envelope origin
  require (now < rev.notAfter) ("revocation statement for '" ++ rev.repository ++
    "' expired at " ++ expires ++ "; a revocation an attacker can suppress is not a " ++
    "revocation, so a stale one is refused rather than read as 'nothing is revoked'")
  require (seenIssuedAt = 0 ∨ seenIssuedAt ≤ rev.issuedAt) ("revocation statement for '" ++
    rev.repository ++ "' is older than one already seen; rolling back to a previous list is how " ++
    "a revoked key comes back")
  return rev

/-- `none` when the repository does not advertise revocation at all. -/
def revocationFor (o : Oracles) (repo : Repository) (delegation : Option RepositoryDelegation)
    (now seenIssuedAt : Int) : Except String (Option KeyRevocation) := do
  let revocation ← repo.capabilities
  if revocation = false then return none
  let delegation ← orThrow delegation ("repository '" ++ repo.name ++
    "' advertises revocation but serves no delegation. The statement is signed by a delegated " ++
    "key, so without one there is nothing that could verify it.")
  let raw ← wrap repo.revocations fun e => "repository '" ++ repo.name ++
    "' advertises revocation and its statement could not be fetched: " ++ e ++
    " Refusing rather than proceeding unrevoked."
  let json ← orThrow raw ("repository '" ++ repo.name ++
    "' advertises revocation but serves no statement. That is refused rather than read as " ++
    "'nothing is revoked' — otherwise blocking one request would un-revoke every key it has " ++
    "ever revoked.")
  -- `origin`, never `name`: a manifest label differs per machine.
  let rev ← loadKeyRevocation o json delegation repo.origin now seenIssuedAt
  return some rev

end Cajeta.Trust
