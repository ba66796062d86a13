import Cajeta.Trust.PublisherVerification

/-!
# What a fetched release is held to

`verifyFetchedRelease` is the one check every fetch path runs on the bytes a repository just
produced. It is a computation over the state a session keeps, the key cache above all, and that
state survives a refusal.
-/

namespace Cajeta.Trust
open Except EStateM

inductive Verification where
  | publisher
  | checksum
  deriving DecidableEq

structure VerifiedRelease where
  sha256 : String := ""
  fromSignedMetadata : Bool := false
  organization : String := ""
  envelopeJson : String := ""

/-- A release published before metadata was signed, pinned by its exact bytes. -/
structure LegacyRelease where
  name : String
  version : String
  sha256 : String
  deriving DecidableEq

structure TrustStoreLayout where
  rootTrustLayout : RootTrustLayout
  /-- The contents of the machine's trusted signing keys. -/
  trustedKeys : List String

structure VerifyState where
  orgKeys : OrgKeyCache
  log : List String := []
  /-- The revocation statements accepted so far, newest first. The code keeps no such record: it is
  here to be spoken about, and no definition reads it. -/
  accepted : List KeyRevocation := []

def VerifyState.empty : VerifyState := { orgKeys := .empty }

abbrev Verify := EStateM String VerifyState

def withCache (call : OrgKeyCache → Except String α × OrgKeyCache) : Verify α := fun s =>
  let (answer, orgKeys) := call s.orgKeys
  ofResult answer { s with orgKeys }

theorem withCache_eq_ok {call : OrgKeyCache → Except String α × OrgKeyCache} :
    withCache call s = .ok a s' ↔
      ∃ orgKeys, call s.orgKeys = (.ok a, orgKeys) ∧ s' = { s with orgKeys } := by
  unfold withCache
  rcases call s.orgKeys with ⟨answer, orgKeys⟩
  simp only [ofResult_eq_ok, Prod.mk.injEq]
  constructor
  · rintro ⟨rfl, rfl⟩; exact ⟨_, ⟨rfl, rfl⟩, rfl⟩
  · rintro ⟨_, ⟨rfl, rfl⟩, rfl⟩; exact ⟨rfl, rfl⟩

def logLine (line : String) : Verify Unit := fun s => .ok () { s with log := s.log ++ [line] }

/-- Empty when the file cannot be read. -/
def sha256OfFile (o : Oracles) (artifact : Option String) : String :=
  (artifact.map fun bytes => "sha256:" ++ o.sha256Hex bytes).getD ""

/-- The statement in force. The freshness mark passed is `0` on every call. -/
def acceptRevocation (o : Oracles) (repo : Repository) (delegation : Option RepositoryDelegation)
    (now : Int) : Verify (Option KeyRevocation) := do
  let revocation ← ofResult (revocationFor o repo delegation now 0)
  modify fun s => { s with accepted := revocation.toList ++ s.accepted }
  return revocation

def checkTrustedKeys (o : Oracles) (trust : TrustStoreLayout) (what : String)
    (artifact : Option String) (signature : String) : Except String Unit := do
  let keys := trust.trustedKeys
  require (keys ≠ []) (what ++ " is signed, but this machine trusts no signing keys, so the " ++
    "signature cannot be checked. Add the publisher's key with `cajeta trust add`.")
  require (∃ pem ∈ keys, verifyDetachedEd25519File o artifact signature pem = some true)
    ("the signature for " ++ what ++ " does not match any trusted key (" ++
      toString keys.length ++ " checked). If this publisher is new, add their key with " ++
      "`cajeta trust add`.")

def documentOf (o : Oracles) (trust : TrustStoreLayout) (repo : Repository) (ask : Nat)
    (organization : String) (now : Int) : Verify (Option OrgKeyDocument) :=
  if organization = "" then return none
  else
    wrap (withCache fun c =>
        OrgKeyCache.documentFor o trust.rootTrustLayout c repo ask organization now)
      fun e => "the key document for '" ++ organization ++ "' from " ++ repo.name ++
        " could not be used: " ++ e

def checkArchiveSignature (o : Oracles) (trust : TrustStoreLayout) (repo : Repository)
    (name version : String) (artifact : Option String) (signature organization : String)
    (delegation : Option RepositoryDelegation) (now : Int) : Verify Unit := do
  let what := "'" ++ name ++ "' " ++ version ++ " from " ++ repo.name
  match ← documentOf o trust repo 1 organization now with
  | some doc =>
    -- The document decides: falling through to the trust store on a failure would be a bypass.
    let revocation ← acceptRevocation o repo delegation now
    let verdict := verifyAgainstOrgDocument o doc name artifact signature now revocation
    ofResult (require (verdict.ok = true) verdict.message)
  | none => ofResult (checkTrustedKeys o trust what artifact signature)

/-! ## The release -/

/-- The release's integrity, and the delegation it was read under. -/
def integrityOf (o : Oracles) (trust : TrustStoreLayout) (repo : Repository)
    (name version : String) (now : Int) :
    Verify (ReleaseIntegrity × Option RepositoryDelegation) := do
  let roots ← wrap (ofResult (rootsFor trust.rootTrustLayout repo.name)) fun e =>
    "the trust anchors for repository '" ++ repo.name ++ "' could not be resolved: " ++ e
  let delegation ← wrap (withCache fun c =>
      OrgKeyCache.delegationFor o trust.rootTrustLayout c repo now) fun e =>
    "the delegation for repository '" ++ repo.name ++ "' could not be used: " ++ e
  let integrity ← ofResult (releaseIntegrityFor o repo name version roots delegation now)
  return (integrity, delegation)

/-- A release without signed metadata is admitted on the exact bytes the toolchain measured. -/
def admitLegacy (o : Oracles) (legacy : List LegacyRelease) (name version : String)
    (artifact : Option String) (what : String) : Except String VerifiedRelease := do
  let actual := sha256OfFile o artifact
  require ((⟨name, version, actual⟩ : LegacyRelease) ∈ legacy) ("refusing " ++ what ++
    ": the repository serves no signed release metadata for it, so its publisher cannot be " ++
    "verified. If you trust this repository's contents, relax it in cajeta.json with " ++
    "\"verification\": \"checksum\" on its settings.repositories entry (spec 5.4).")
  return { sha256 := actual }

def checkHash (o : Oracles) (integrity : ReleaseIntegrity) (artifact : Option String)
    (what : String) : Except String Unit :=
  let actual := sha256OfFile o artifact
  require (integrity.sha256 = "" ∨ actual = integrity.sha256) ("refusing " ++ what ++
    ": checksum mismatch. " ++
    (if integrity.fromSignedMetadata then "The root-signed release metadata says "
      else "The published checksum says ") ++ integrity.sha256 ++ ", the bytes hash to " ++
    (if actual = "" then "nothing" else actual) ++ ". The download was discarded.")

/-- Under the default policy the publisher's own signature stands beside the repository's word, when
the metadata names the organization. -/
def requirePublisher (o : Oracles) (trust : TrustStoreLayout) (repo : Repository)
    (policy : Verification) (organization : String) (signature : Option String) (what : String)
    (now : Int) : Verify Unit :=
  if policy = .publisher ∧ organization ≠ "" then do
    ofResult (require (signature.isSome = true) ("refusing " ++ what ++ ": it publishes no " ++
      "archive signature, so it cannot be verified against '" ++ organization ++
      "''s key (spec 4.1)."))
    let doc ← wrap (withCache fun c =>
        OrgKeyCache.documentFor o trust.rootTrustLayout c repo 0 organization now) fun e =>
      "refusing " ++ what ++ ": the key document for '" ++ organization ++
        "' could not be used: " ++ e
    ofResult (require (doc.isSome = true) ("refusing " ++ what ++ ": the repository serves no " ++
      "key document for '" ++ organization ++ "', so its signature cannot be verified (spec 4.6)."))
  else return ()

/-- Retraction warns and does not refuse: a lockfile that pins the version keeps resolving. -/
def warnRetracted (integrity : ReleaseIntegrity) (what : String) : Verify Unit :=
  if integrity.retracted then
    logLine (what ++ " is RETRACTED by its publisher: " ++
      (if integrity.retractedReason = "" then "no reason given" else integrity.retractedReason) ++
      (if integrity.fromSignedMetadata then ""
        else " (unsigned metadata, so treat it as advisory)") ++ "\n")
  else return ()

/-- The metadata as served when it is asked for again, for the record that travels with a release.
-/
def servedEnvelope (repo : Repository) (name version : String) : String :=
  match repo.releaseMetadataJson 1 name version with
  | .ok (some json) => json
  | _ => ""

def checkPublishedSignature (o : Oracles) (trust : TrustStoreLayout) (repo : Repository)
    (name version : String) (artifact signature : Option String) (organization : String)
    (delegation : Option RepositoryDelegation) (what : String) (now : Int) : Verify Unit :=
  match signature with
  | some signature =>
    wrap (checkArchiveSignature o trust repo name version artifact signature organization
      delegation now) fun e => "refusing " ++ what ++ ": " ++ e
  | none => return ()

/-- The release held to its integrity, once that is known to suffice for the policy. -/
def verifyAgainstIntegrity (o : Oracles) (trust : TrustStoreLayout) (repo : Repository)
    (name version : String) (artifact : Option String) (policy : Verification) (now : Int)
    (integrity : ReleaseIntegrity) (delegation : Option RepositoryDelegation) (what : String) :
    Verify VerifiedRelease := do
  let organization := if integrity.fromSignedMetadata then integrity.organization else ""
  ofResult (checkHash o integrity artifact what)
  let signature ← ofResult (repo.publishedSignature name version)
  requirePublisher o trust repo policy organization signature what now
  checkPublishedSignature o trust repo name version artifact signature organization delegation what
    now
  warnRetracted integrity what
  return { sha256 := integrity.sha256, fromSignedMetadata := integrity.fromSignedMetadata,
           organization, envelopeJson := servedEnvelope repo name version }

def verifyFetchedRelease (o : Oracles) (trust : TrustStoreLayout) (legacy : List LegacyRelease)
    (repo : Repository) (name version : String) (artifact : Option String)
    (policy : Verification) (now : Int) : Verify VerifiedRelease := do
  let what := "'" ++ name ++ "' " ++ version ++ " from repository '" ++ repo.name ++ "'"
  let (integrity, delegation) ← wrap (integrityOf o trust repo name version now) fun e =>
    "refusing " ++ what ++ ": " ++ e
  if integrity.fromSignedMetadata = false ∧ policy = .publisher then
    ofResult (admitLegacy o legacy name version artifact what)
  else
    verifyAgainstIntegrity o trust repo name version artifact policy now integrity delegation what

end Cajeta.Trust
