import Cajeta.Trust.FetchVerification

/-!
# What an admitted release has been held to

Inversion lemmas for `verifyFetchedRelease`, one for each part of it, and what follows about the
releases it admits under the default policy.
-/

namespace Cajeta.Trust
open Except EStateM OrgKeyCache

section
variable {o : Oracles} {trust : TrustStoreLayout} {repo : Repository} {s s' : VerifyState}

/-! ## The parts -/

theorem integrityOf_ok :
    integrityOf o trust repo name version now s = .ok (integrity, delegation) s' ↔
      ∃ roots c, rootsFor trust.rootTrustLayout repo.name = .ok roots ∧
        delegationFor o trust.rootTrustLayout s.orgKeys repo now = (.ok delegation, c) ∧
        releaseIntegrityFor o repo name version roots delegation now = .ok integrity ∧
        s' = { s with orgKeys := c } := by
  simp only [integrityOf, EStateM.bind_eq_ok, EStateM.wrap_eq_ok, ofResult_eq_ok, withCache_eq_ok,
    EStateM.pure_eq_ok, Prod.mk.injEq]
  constructor
  · rintro ⟨roots, _, ⟨hroots, rfl⟩, _, _, ⟨c, hdel, rfl⟩, _, _, ⟨hint, rfl⟩, ⟨rfl, rfl⟩, rfl⟩
    exact ⟨roots, c, hroots, hdel, hint, rfl⟩
  · rintro ⟨roots, c, hroots, hdel, hint, rfl⟩
    exact ⟨roots, s, ⟨hroots, rfl⟩, delegation, _, ⟨c, hdel, rfl⟩, integrity, _, ⟨hint, rfl⟩,
      ⟨rfl, rfl⟩, rfl⟩

theorem acceptRevocation_ok (h : acceptRevocation o repo delegation now s = .ok revocation s') :
    revocationFor o repo delegation now 0 = .ok revocation ∧
      s' = { s with accepted := revocation.toList ++ s.accepted } := by
  simp only [acceptRevocation, EStateM.bind_eq_ok, ofResult_eq_ok, EStateM.pure_eq_ok] at h
  obtain ⟨_, _, ⟨hrev, rfl⟩, _, _, hmod, rfl, rfl⟩ := h
  cases hmod
  exact ⟨hrev, rfl⟩

theorem checkArchiveSignature_document
    (hdoc : documentFor o trust.rootTrustLayout s.orgKeys repo 1 organization now =
      (.ok (some doc), c))
    (horg : organization ≠ "")
    (h : checkArchiveSignature o trust repo name version artifact signature organization delegation
      now s = .ok u s') :
    ∃ revocation key, revocationFor o repo delegation now 0 = .ok revocation ∧
      PublisherSigned o doc name artifact signature now revocation key := by
  simp only [checkArchiveSignature, documentOf, horg, if_false, EStateM.bind_eq_ok,
    EStateM.wrap_eq_ok, withCache_eq_ok] at h
  obtain ⟨answer, _, ⟨_, hanswer, rfl⟩, h⟩ := h
  obtain ⟨hans, rfl⟩ := Prod.mk.inj (hdoc.symm.trans hanswer)
  cases hans
  simp only [EStateM.bind_eq_ok, ofResult_eq_ok, require_eq_ok] at h
  obtain ⟨revocation, _, haccept, hverdict, _⟩ := h
  obtain ⟨key, hkey⟩ := verifyAgainstOrgDocument_ok hverdict
  exact ⟨revocation, key, (acceptRevocation_ok haccept).1, hkey⟩

theorem requirePublisher_ok (horg : organization ≠ "")
    (h : requirePublisher o trust repo .publisher organization signature what now s = .ok u s') :
    signature.isSome = true ∧ ∃ doc c,
      documentFor o trust.rootTrustLayout s.orgKeys repo 0 organization now =
        (.ok (some doc), c) ∧ s' = { s with orgKeys := c } := by
  simp only [requirePublisher, horg, ne_eq, not_false_iff, and_self, if_true, EStateM.bind_eq_ok,
    ofResult_eq_ok, require_eq_ok, EStateM.wrap_eq_ok, withCache_eq_ok] at h
  obtain ⟨_, _, ⟨hsig, rfl⟩, doc, _, ⟨c, hdoc, rfl⟩, hsome, rfl⟩ := h
  obtain ⟨doc, rfl⟩ := Option.isSome_iff_exists.mp hsome
  exact ⟨hsig, doc, c, hdoc, rfl⟩

theorem verifyFetchedRelease_ok
    (h : verifyFetchedRelease o trust legacy repo name version artifact policy now s =
      .ok out s') :
    ∃ integrity delegation s₁,
      integrityOf o trust repo name version now s = .ok (integrity, delegation) s₁ ∧
      ((integrity.fromSignedMetadata = false ∧ policy = .publisher ∧
          ⟨name, version, sha256OfFile o artifact⟩ ∈ legacy ∧
          out = { sha256 := sha256OfFile o artifact }) ∨
        (¬ (integrity.fromSignedMetadata = false ∧ policy = .publisher) ∧
          verifyAgainstIntegrity o trust repo name version artifact policy now integrity delegation
            ("'" ++ name ++ "' " ++ version ++ " from repository '" ++ repo.name ++ "'") s₁ =
              .ok out s')) := by
  simp only [verifyFetchedRelease, EStateM.bind_eq_ok, EStateM.wrap_eq_ok] at h
  obtain ⟨⟨integrity, delegation⟩, s₁, hint, h⟩ := h
  refine ⟨integrity, delegation, s₁, hint, ?_⟩
  dsimp only at h
  split at h
  · next hcase =>
    simp only [ofResult_eq_ok, admitLegacy, Except.bind_eq_ok, require_eq_ok,
      Except.pure_eq_ok] at h
    obtain ⟨⟨_, hmem, rfl⟩, _⟩ := h
    exact .inl ⟨hcase.1, hcase.2, hmem, rfl⟩
  · next hcase => exact .inr ⟨hcase, h⟩

theorem warnRetracted_ok (integrity : ReleaseIntegrity) (what : String) (s : VerifyState) :
    ∃ s', warnRetracted integrity what s = .ok () s' := by
  unfold warnRetracted
  split
  · exact ⟨_, rfl⟩
  · exact ⟨s, rfl⟩

theorem verifyAgainstIntegrity_ok
    (h : verifyAgainstIntegrity o trust repo name version artifact policy now integrity delegation
      what s = .ok out s') :
    ∃ signature s₁ u, (integrity.sha256 = "" ∨ sha256OfFile o artifact = integrity.sha256) ∧
      repo.publishedSignature name version = .ok signature ∧
      out.sha256 = integrity.sha256 ∧ out.fromSignedMetadata = integrity.fromSignedMetadata ∧
      out.organization = (if integrity.fromSignedMetadata then integrity.organization else "") ∧
      requirePublisher o trust repo policy out.organization signature what now s = .ok u s₁ ∧
      ∀ sig, signature = some sig → ∃ s₂,
        checkArchiveSignature o trust repo name version artifact sig out.organization delegation
          now s₁ = .ok () s₂ := by
  simp only [verifyAgainstIntegrity, EStateM.bind_eq_ok, ofResult_eq_ok, checkHash, require_eq_ok,
    EStateM.pure_eq_ok] at h
  obtain ⟨_, _, ⟨hhash, rfl⟩, signature, _, ⟨hsig, rfl⟩, u, s₁, hpub, _, s₂, hcheck, _, _, _, rfl,
    _⟩ := h
  refine ⟨signature, s₁, u, hhash, hsig, rfl, rfl, rfl, hpub, ?_⟩
  rintro sig rfl
  exact ⟨s₂, wrap_eq_ok.mp hcheck⟩

/-! ## The metadata in force -/

/-- `md` is what the payload served for the release says, signed by a verifier that is usable now;
`c` is the key cache once the delegation was asked for. -/
structure MetadataInForce (o : Oracles) (trust : TrustStoreLayout) (repo : Repository)
    (name version : String) (now : Int) (s : VerifyState) (delegation : Option RepositoryDelegation)
    (c : OrgKeyCache) (payload : JObject) (md : ReleaseMetadata) : Prop where
  delegated : delegationFor o trust.rootTrustLayout s.orgKeys repo now = (.ok delegation, c)
  signed : ∃ roots verifiers, rootsFor trust.rootTrustLayout repo.name = .ok roots ∧
    metadataVerifiers repo roots delegation now = .ok verifiers ∧
    servedMetadata o repo name version verifiers = .ok (some md) ∧
    SignedMetadata o verifiers payload md

theorem servedMetadata_sha256
    (h : servedMetadata o repo name version verifiers = .ok (some md)) : md.sha256 ≠ "" := by
  unfold servedMetadata at h
  split at h
  · cases h
  · cases h
  · simp only [Except.bind_eq_ok, Except.wrap_eq_ok, Except.pure_eq_ok, Option.some.injEq] at h
    obtain ⟨_, hload, rfl⟩ := h
    exact (loadReleaseMetadata_ok hload).1

theorem SignedMetadata.signedByRoot (h : SignedMetadata o keys payload md) :
    md.signedByRoot = true := by
  obtain ⟨_, _, _, rfl⟩ := h
  rfl

theorem integrityOf_signed
    (h : integrityOf o trust repo name version now s = .ok (integrity, delegation) s')
    (hsigned : integrity.fromSignedMetadata = true) :
    ∃ payload md, MetadataInForce o trust repo name version now s delegation s'.orgKeys payload md ∧
      md.sha256 ≠ "" ∧ integrity.sha256 = md.sha256 ∧ integrity.organization = md.organization := by
  obtain ⟨roots, c, hroots, hdel, hint, rfl⟩ := integrityOf_ok.mp h
  obtain ⟨verifiers, md, payload, hverifiers, hserved, hpayload, hne, hsha, horg⟩ :=
    releaseIntegrityFor_signed hint hsigned
  exact ⟨payload, md, ⟨hdel, roots, verifiers, hroots, hverifiers, hserved, hpayload⟩, hne, hsha,
    horg⟩

theorem integrityOf_unsigned
    (h : integrityOf o trust repo name version now s = .ok (integrity, delegation) s')
    (hunsigned : integrity.fromSignedMetadata = false) : ¬ ServesSigned o repo name version := by
  obtain ⟨_, _, _, _, hint, _⟩ := integrityOf_ok.mp h
  exact releaseIntegrityFor_unsigned hint hunsigned

namespace MetadataInForce

theorem integrityOf
    (h : MetadataInForce o trust repo name version now s delegation c payload md) :
    ∃ integrity, integrityOf o trust repo name version now s =
        .ok (integrity, delegation) { s with orgKeys := c } ∧
      integrity.fromSignedMetadata = true ∧ integrity.sha256 = md.sha256 ∧
      integrity.organization = md.organization := by
  obtain ⟨hdel, roots, verifiers, hroots, hverifiers, hserved, hpayload⟩ := h
  have hmd : md.signedByRoot ∧ md.sha256 ≠ "" :=
    ⟨hpayload.signedByRoot, servedMetadata_sha256 hserved⟩
  have hint : releaseIntegrityFor o repo name version roots delegation now =
      .ok { sha256 := md.sha256, fromSignedMetadata := true, organization := md.organization,
            rootKeyId := md.rootKeyId, viaDelegation := delegation.isSome,
            retracted := md.retracted, retractedReason := md.retractedReason } := by
    simp only [releaseIntegrityFor, Except.bind_eq_ok]
    exact ⟨verifiers, hverifiers, some md, hserved, by dsimp only; rw [if_pos hmd]; rfl⟩
  exact ⟨_, integrityOf_ok.mpr ⟨roots, c, hroots, hdel, hint, rfl⟩, rfl, rfl, rfl⟩

theorem unique (h : MetadataInForce o trust repo name version now s delegation c payload md)
    (h' : MetadataInForce o trust repo name version now s delegation' c' payload' md') :
    md = md' := by
  obtain ⟨hdel, roots, verifiers, hroots, hverifiers, hserved, _⟩ := h
  obtain ⟨hdel', roots', verifiers', hroots', hverifiers', hserved', _⟩ := h'
  cases hdel.symm.trans hdel'
  cases hroots.symm.trans hroots'
  cases hverifiers.symm.trans hverifiers'
  cases hserved.symm.trans hserved'
  rfl

theorem servesSigned
    (h : MetadataInForce o trust repo name version now s delegation c payload md) :
    ServesSigned o repo name version := by
  obtain ⟨_, roots, verifiers, _, _, hserved, hpayload⟩ := h
  unfold servedMetadata at hserved
  split at hserved
  · cases hserved
  · cases hserved
  · next json hjson =>
    simp only [Except.bind_eq_ok, Except.wrap_eq_ok, Except.pure_eq_ok,
      Option.some.injEq] at hserved
    obtain ⟨_, hload, rfl⟩ := hserved
    obtain ⟨_, parsed, obj, hparsed, hobj, hfields⟩ := loadReleaseMetadata_ok hload
    exact ⟨json, parsed, obj, hjson, hparsed, hobj,
      (metadataFields_signed hfields).1.symm.trans hpayload.signedByRoot⟩

end MetadataInForce

/-! ## The publisher's word -/

/-- The exact bytes are on the list of releases older than signed metadata, and no signed metadata
was served. -/
def LegacyAdmitted (o : Oracles) (legacy : List LegacyRelease) (repo : Repository)
    (name version : String) (artifact : Option String) : Prop :=
  ⟨name, version, sha256OfFile o artifact⟩ ∈ legacy ∧ ¬ ServesSigned o repo name version

/-- The bytes are the ones a usable verifier signed for, and a key of the organization named there
verifies the archive signature: inside its window, listed in a current root-signed document whose
namespaces own `name`, and not revoked by the statement in force. -/
def PublisherVouches (o : Oracles) (trust : TrustStoreLayout) (repo : Repository)
    (name version : String) (artifact : Option String) (now : Int) (s : VerifyState) : Prop :=
  ∃ delegation c payload md,
    MetadataInForce o trust repo name version now s delegation c payload md ∧
    md.sha256 = sha256OfFile o artifact ∧ md.organization ≠ "" ∧
    ∃ signature doc c' revocation key,
      repo.publishedSignature name version = .ok (some signature) ∧
      documentFor o trust.rootTrustLayout c repo 0 md.organization now = (.ok (some doc), c') ∧
      RootSignedDocument o (installedRoots trust.rootTrustLayout) doc ∧ now < doc.notAfter ∧
      revocationFor o repo delegation now 0 = .ok revocation ∧
      PublisherSigned o doc name artifact signature now revocation key

/-- The signed metadata in force names no organization, its hash is that of the bytes, and what is
left of the verification (the machine's own keys, if there is a signature at all) passes. -/
def AdmitsUnnamed (o : Oracles) (trust : TrustStoreLayout) (repo : Repository)
    (name version : String) (artifact : Option String) (now : Int) (s : VerifyState) : Prop :=
  ∃ delegation c payload md,
    MetadataInForce o trust repo name version now s delegation c payload md ∧
    md.sha256 = sha256OfFile o artifact ∧ md.organization = "" ∧
    (repo.publishedSignature name version = .ok none ∨
      ∃ signature, repo.publishedSignature name version = .ok (some signature) ∧
        ∃ pem ∈ trust.trustedKeys, verifyDetachedEd25519File o artifact signature pem = some true)

theorem AdmitsUnnamed.admitted (h : AdmitsUnnamed o trust repo name version artifact now s)
    (legacy : List LegacyRelease) :
    ∃ out s', verifyFetchedRelease o trust legacy repo name version artifact .publisher now s =
      .ok out s' := by
  obtain ⟨delegation, c, payload, md, hmd, hsha, horg, hsig⟩ := h
  obtain ⟨integrity, hint, hsigned, hisha, hiorg⟩ := hmd.integrityOf
  have hcheck : ∃ signature, repo.publishedSignature name version = .ok signature ∧
      ∀ s₁ : VerifyState, checkPublishedSignature o trust repo name version artifact signature ""
        delegation ("'" ++ name ++ "' " ++ version ++ " from repository '" ++ repo.name ++ "'") now
          s₁ = .ok () s₁ := by
    rcases hsig with hnone | ⟨signature, hsome, pem, hpem, hok⟩
    · exact ⟨none, hnone, fun _ => rfl⟩
    · refine ⟨some signature, hsome, fun s₁ => ?_⟩
      have hne : trust.trustedKeys ≠ [] := List.ne_nil_of_mem hpem
      simp only [checkPublishedSignature, EStateM.wrap_eq_ok, checkArchiveSignature, documentOf,
        if_true, EStateM.bind_eq_ok, EStateM.pure_eq_ok]
      refine ⟨none, s₁, ⟨rfl, rfl⟩, ?_⟩
      simp only [ofResult_eq_ok, checkTrustedKeys, Except.bind_eq_ok, require_eq_ok]
      exact ⟨⟨(), hne, ⟨pem, hpem, hok⟩⟩, trivial⟩
  obtain ⟨signature, hpublished, hcheck⟩ := hcheck
  obtain ⟨s', hwarn⟩ := warnRetracted_ok integrity
    ("'" ++ name ++ "' " ++ version ++ " from repository '" ++ repo.name ++ "'")
    { s with orgKeys := c }
  refine ⟨{ sha256 := integrity.sha256, fromSignedMetadata := integrity.fromSignedMetadata,
            organization := "", envelopeJson := servedEnvelope repo name version }, s', ?_⟩
  simp only [verifyFetchedRelease, EStateM.bind_eq_ok, EStateM.wrap_eq_ok]
  refine ⟨(integrity, delegation), _, hint, ?_⟩
  simp only [hsigned, Bool.true_eq_false, false_and, if_false, verifyAgainstIntegrity,
    EStateM.bind_eq_ok, ofResult_eq_ok, checkHash, require_eq_ok, hiorg, horg, if_true,
    requirePublisher, ne_eq, not_true_eq_false, and_false, EStateM.pure_eq_ok]
  exact ⟨(), _, ⟨.inr (hsha.symm.trans hisha.symm), rfl⟩, signature, _, ⟨hpublished, rfl⟩, (), _,
    ⟨trivial, rfl⟩, (), _, hcheck _, (), s', hwarn, trivial, rfl⟩

/-- A release admitted under signed metadata carries the hash and the organization of the payload
in force, and its bytes have that hash. -/
theorem verifyFetchedRelease_signed
    (h : verifyFetchedRelease o trust legacy repo name version artifact policy now s = .ok out s')
    (hsigned : out.fromSignedMetadata = true) :
    ∃ delegation c payload md,
      MetadataInForce o trust repo name version now s delegation c payload md ∧
      out.sha256 = md.sha256 ∧ sha256OfFile o artifact = md.sha256 ∧
      out.organization = md.organization ∧
      ∃ signature s₁ u, repo.publishedSignature name version = .ok signature ∧
        requirePublisher o trust repo policy md.organization signature
          ("'" ++ name ++ "' " ++ version ++ " from repository '" ++ repo.name ++ "'") now
          { s with orgKeys := c } = .ok u s₁ ∧
        ∀ sig, signature = some sig → ∃ s₂,
          checkArchiveSignature o trust repo name version artifact sig md.organization delegation
            now s₁ = .ok () s₂ := by
  obtain ⟨integrity, delegation, s₁, hint, ⟨_, _, _, rfl⟩ | ⟨_, hrest⟩⟩ := verifyFetchedRelease_ok h
  · cases hsigned
  obtain ⟨signature, s₂, u, hhash, hpub, hsha, hfrom, horg, hreq, hsig⟩ :=
    verifyAgainstIntegrity_ok hrest
  have hisigned : integrity.fromSignedMetadata = true := hfrom.symm.trans hsigned
  obtain ⟨payload, md, hmd, hne, hisha, hiorg⟩ := integrityOf_signed hint hisigned
  obtain ⟨_, c, _, _, _, rfl⟩ := integrityOf_ok.mp hint
  rw [hisigned, if_pos rfl, hiorg] at horg
  rw [horg] at hreq hsig
  refine ⟨delegation, c, payload, md, hmd, hsha.trans hisha, ?_, horg, signature, s₂, u, hpub, hreq,
    hsig⟩
  rcases hhash with hempty | hhash
  · exact absurd (hisha.symm.trans hempty) hne
  · exact hhash.trans hisha

theorem publisherVouches_of_named (hs : s.orgKeys.Reachable o trust.rootTrustLayout)
    (h : verifyFetchedRelease o trust legacy repo name version artifact .publisher now s =
      .ok out s')
    (hsigned : out.fromSignedMetadata = true) (horg : out.organization ≠ "") :
    PublisherVouches o trust repo name version artifact now s := by
  obtain ⟨delegation, c, payload, md, hmd, _, hhash, hout, signature, s₁, u, hpub, hreq, hsig⟩ :=
    verifyFetchedRelease_signed h hsigned
  rw [hout] at horg
  obtain ⟨hsome, doc, c', hdoc, rfl⟩ := requirePublisher_ok horg hreq
  obtain ⟨sig, rfl⟩ := Option.isSome_iff_exists.mp hsome
  have hc := delegationFor_trusted hs.trusted hmd.delegated
  obtain ⟨hroot, _, hcurrent, hcached⟩ := documentFor_some hc hdoc
  obtain ⟨_, hcheck⟩ := hsig sig rfl
  obtain ⟨revocation, key, hrev, hkey⟩ :=
    checkArchiveSignature_document (documentFor_cached hcached hcurrent) horg hcheck
  exact ⟨delegation, c, payload, md, hmd, hhash.symm, horg, sig, doc, c', revocation, key, hpub,
    hdoc, hroot, hcurrent, hrev, hkey⟩

end
/-!
## Verdicts under the default policy

Which releases `verifyFetchedRelease` admits when the publisher must be verified, and how far signed
metadata is bound to the release it was asked for.
-/

section
variable {o : Oracles} {trust : TrustStoreLayout} {repo : Repository} {s s' : VerifyState}

/-- A release is admitted on the legacy list or on the publisher's word, except where the signed
metadata names no organization and nothing else refuses the bytes. -/
theorem verifyFetchedRelease_publisher (hs : s.orgKeys.Reachable o trust.rootTrustLayout) :
    (∀ out s', verifyFetchedRelease o trust legacy repo name version artifact .publisher now s =
        .ok out s' →
      LegacyAdmitted o legacy repo name version artifact ∨
        PublisherVouches o trust repo name version artifact now s) ↔
      ¬ AdmitsUnnamed o trust repo name version artifact now s := by
  constructor
  · intro hall hunnamed
    obtain ⟨out, s', hout⟩ := hunnamed.admitted legacy
    obtain ⟨_, _, _, md, hmd, _, horg, _⟩ := hunnamed
    rcases hall out s' hout with ⟨_, hserves⟩ | ⟨_, _, _, md', hmd', _, horg', _⟩
    · exact hserves hmd.servesSigned
    · exact horg' (hmd.unique hmd' ▸ horg)
  · intro hnamed out s' hout
    obtain ⟨integrity, delegation, s₁, hint, ⟨hunsigned, _, hmem, _⟩ | ⟨hcase, hrest⟩⟩ :=
      verifyFetchedRelease_ok hout
    · exact .inl ⟨hmem, integrityOf_unsigned hint hunsigned⟩
    refine .inr ?_
    have hsigned : out.fromSignedMetadata = true := by
      obtain ⟨_, _, _, _, _, _, hfrom, _⟩ := verifyAgainstIntegrity_ok hrest
      rw [hfrom]
      simpa using hcase
    by_cases horg : out.organization = ""
    · -- No organization: the machine's own keys decide, if there is a signature to decide about.
      obtain ⟨delegation, c, payload, md, hmd, _, hhash, hmdorg, signature, _, _, hpub, _, hsig⟩ :=
        verifyFetchedRelease_signed hout hsigned
      rw [horg] at hmdorg
      refine absurd ⟨delegation, c, payload, md, hmd, hhash.symm, hmdorg.symm, ?_⟩ hnamed
      cases signature with
      | none => exact .inl hpub
      | some sig =>
        obtain ⟨s₂, hcheck⟩ := hsig sig rfl
        simp only [← hmdorg, checkArchiveSignature, documentOf, if_true, EStateM.bind_eq_ok,
          EStateM.pure_eq_ok] at hcheck
        obtain ⟨_, _, ⟨rfl, rfl⟩, hcheck⟩ := hcheck
        simp only [ofResult_eq_ok, checkTrustedKeys, Except.bind_eq_ok, require_eq_ok] at hcheck
        exact .inr ⟨sig, hpub, hcheck.1.choose_spec.2⟩
    · exact publisherVouches_of_named hs hout hsigned horg

end

/-! ### A sample repository -/

/-- The envelope `signer` seals around `payload`, in a world where a signature names both. -/
def sampleEnvelope (signer payload : String) : Json :=
  .obj [("format", .int 1), ("root-key-id", .str signer), ("payload", .str payload),
    ("signature", .str (signer ++ "/" ++ payload))]

def sampleKeys (id : String) : Json :=
  .arr [.obj [("id", .str id), ("algorithm", .str "ed25519"), ("public-key", .str id),
    ("not-before", .str "1970-01-01T00:00:00Z"), ("not-after", .str "1971-01-01T00:00:00Z")]]

/-- The texts of the sample world: every name in `envelopes` is a document sealed by its signer. -/
def sampleOracles (envelopes : List (String × String × Json)) : Oracles where
  parseJson text := envelopes.findSome? fun (name, signer, body) =>
    if text = name then some body
    else if text = "env:" ++ name then some (sampleEnvelope signer name) else none
  renderJson
    | .obj fields => "env:" ++ (JObject.getString fields "payload").getD ""
    | _ => ""
  decodeBase64 := some
  sha256Hex bytes := bytes
  verifyPem pem data signature := some (signature == pem ++ "/" ++ data)

def sampleDocuments : List (String × String × Json) :=
  [("release", "root", .obj [("name", .str "acme.a"), ("version", .str "1.0"),
      ("sha256", .str "bytes"), ("organization", .str "acme")]),
    ("unnamed", "root", .obj [("name", .str "acme.a"), ("version", .str "1.0"),
      ("sha256", .str "bytes")]),
    ("document", "root", .obj [("organization", .str "acme"), ("namespaces", .arr [.str "acme"]),
      ("issued-at", .str "1970-01-01T00:00:00Z"), ("not-after", .str "1971-01-01T00:00:00Z"),
      ("keys", sampleKeys "acme-key")])]

/-- A server that gives the same answers whatever release it is asked for. -/
def sampleRepository (metadata : String) (signature : Option String) : Repository where
  name := "central"
  origin := "https://central"
  releaseMetadataJson _ _ _ := .ok (some metadata)
  publishedChecksum _ _ := .ok none
  publishedSignature _ _ := .ok signature
  organizationKeys _ _ := .ok (some "env:document")
  repositoryKeys := .ok none
  capabilities := .ok false
  revocations := .ok none

def sampleRoot : RootKey := { id := "root", pem := "root" }

def sampleTrust : TrustStoreLayout where
  rootTrustLayout := { searchDirs := [], shippedRoot := sampleRoot }
  trustedKeys := []

theorem sample_metadataInForce (signature : Option String) (name version : String) :
    ∃ c payload md, MetadataInForce (sampleOracles sampleDocuments) sampleTrust
      (sampleRepository "env:release" signature) name version 5 .empty none c payload md ∧
      md.name = "acme.a" ∧ md.version = "1.0" ∧ md.organization = "acme" :=
  have hroots : rootsFor sampleTrust.rootTrustLayout "central" = .ok [sampleRoot] := rfl
  ⟨_, _, _, ⟨rfl, [sampleRoot], [sampleRoot], hroots, rfl, rfl,
    ⟨{ payload := "release", rootKeyId := "root" },
      ⟨sampleRoot, List.mem_singleton.mpr rfl, "root/release", by decide⟩, rfl, rfl⟩⟩,
    rfl, rfl, rfl⟩

theorem verifyFetchedRelease_publisher_sample :
    PublisherVouches (sampleOracles sampleDocuments) sampleTrust
      (sampleRepository "env:release" (some "acme-key/bytes")) "acme.a" "1.0" (some "bytes") 5
      .empty := by
  have hnamed : ¬ AdmitsUnnamed (sampleOracles sampleDocuments) sampleTrust
      (sampleRepository "env:release" (some "acme-key/bytes")) "acme.a" "1.0" (some "bytes") 5
      .empty := by
    rintro ⟨_, _, _, md, hmd, _, horg, _⟩
    obtain ⟨_, _, md', hmd', _, _, horg'⟩ := sample_metadataInForce _ "acme.a" "1.0"
    rw [hmd.unique hmd', horg'] at horg
    exact absurd horg (by decide)
  have hrun := (@verifyFetchedRelease_publisher _ _ _ _ [] _ _ _ _ .empty).mpr hnamed
  rcases hrun _ _ rfl with h | h
  · exact absurd h.1 List.not_mem_nil
  · exact h

/-- Metadata that names no organization admits the bytes with no publisher's signature at all. -/
theorem unnamed_release_admitted :
    ¬ ∀ out s', verifyFetchedRelease (sampleOracles sampleDocuments) sampleTrust []
        (sampleRepository "env:unnamed" none) "acme.a" "1.0" (some "bytes") .publisher 5 .empty =
          .ok out s' →
      LegacyAdmitted (sampleOracles sampleDocuments) [] (sampleRepository "env:unnamed" none)
          "acme.a" "1.0" (some "bytes") ∨
        PublisherVouches (sampleOracles sampleDocuments) sampleTrust
          (sampleRepository "env:unnamed" none) "acme.a" "1.0" (some "bytes") 5 .empty := by
  intro hall
  rcases hall _ _ rfl with ⟨hmem, _⟩ | ⟨_, _, _, _, _, _, _, _, _, _, _, _, hpub, _⟩
  · exact absurd hmem List.not_mem_nil
  · cases hpub

section
variable {o : Oracles} {trust : TrustStoreLayout} {repo : Repository} {s s' : VerifyState}

theorem MetadataInForce.of_same_answer
    (h : MetadataInForce o trust repo name version now s delegation c payload md)
    (hsame : repo.releaseMetadataJson 0 name' version' =
      repo.releaseMetadataJson 0 name version) :
    MetadataInForce o trust repo name' version' now s delegation c payload md := by
  obtain ⟨hdel, roots, verifiers, hroots, hverifiers, hserved, hpayload⟩ := h
  refine ⟨hdel, roots, verifiers, hroots, hverifiers, ?_, hpayload⟩
  unfold servedMetadata at hserved ⊢
  rw [hsame]
  split at hserved
  · cases hserved
  · cases hserved
  · simpa only [Except.bind_eq_ok, Except.wrap_eq_ok] using hserved

/-- Signed metadata is bound to a release by its hash and its organization: the bytes hash to the
payload's value, the organization is the payload's, and under the default policy a named
organization owns `name`. The same answer is in force for every other coordinate. -/
theorem signedMetadata_bound (hs : s.orgKeys.Reachable o trust.rootTrustLayout)
    (h : verifyFetchedRelease o trust legacy repo name version artifact policy now s = .ok out s')
    (hsigned : out.fromSignedMetadata = true) :
    ∃ delegation c payload md,
      MetadataInForce o trust repo name version now s delegation c payload md ∧
      out.sha256 = md.sha256 ∧ sha256OfFile o artifact = md.sha256 ∧
      out.organization = md.organization ∧
      (policy = .publisher → md.organization ≠ "" → ∃ doc c',
        documentFor o trust.rootTrustLayout c repo 0 md.organization now = (.ok (some doc), c') ∧
        RootSignedDocument o (installedRoots trust.rootTrustLayout) doc ∧ now < doc.notAfter ∧
        ∃ ns ∈ doc.namespaces, namespaceOwns ns name = true) ∧
      ∀ name' version', repo.releaseMetadataJson 0 name' version' =
          repo.releaseMetadataJson 0 name version →
        MetadataInForce o trust repo name' version' now s delegation c payload md := by
  obtain ⟨delegation, c, payload, md, hmd, hsha, hhash, horg, _⟩ :=
    verifyFetchedRelease_signed h hsigned
  refine ⟨delegation, c, payload, md, hmd, hsha, hhash, horg, ?_, fun _ _ => hmd.of_same_answer⟩
  rintro rfl hnamed
  obtain ⟨_, _, _, md', hmd', _, _, _, doc, c', _, _, _, hdoc, hroot, hcurrent, _, hkey⟩ :=
    publisherVouches_of_named hs h hsigned (horg ▸ hnamed)
  cases hmd.unique hmd'
  cases hmd.delegated.symm.trans hmd'.delegated
  exact ⟨doc, c', hdoc, hroot, hcurrent, hkey.owned⟩

end

theorem signedMetadata_bound_sample :
    ∃ out s' doc c c',
      verifyFetchedRelease (sampleOracles sampleDocuments) sampleTrust []
        (sampleRepository "env:release" (some "acme-key/bytes")) "acme.a" "1.0" (some "bytes")
        .publisher 5 .empty = .ok out s' ∧
      documentFor (sampleOracles sampleDocuments) sampleTrust.rootTrustLayout c
        (sampleRepository "env:release" (some "acme-key/bytes")) 0 "acme" 5 = (.ok (some doc), c') ∧
      ∃ ns ∈ doc.namespaces, namespaceOwns ns "acme.a" = true := by
  obtain ⟨out, s', hrun, hsigned⟩ : ∃ out s',
      verifyFetchedRelease (sampleOracles sampleDocuments) sampleTrust []
        (sampleRepository "env:release" (some "acme-key/bytes")) "acme.a" "1.0" (some "bytes")
        .publisher 5 .empty = .ok out s' ∧ out.fromSignedMetadata = true := ⟨_, _, rfl, rfl⟩
  obtain ⟨_, c, _, md, hmd, _, _, _, hdoc, _⟩ := signedMetadata_bound .empty hrun hsigned
  obtain ⟨_, _, md', hmd', _, _, horg⟩ :=
    sample_metadataInForce (some "acme-key/bytes") "acme.a" "1.0"
  rw [hmd.unique hmd', horg] at hdoc
  obtain ⟨doc, c', hdocument, _, _, hown⟩ := hdoc rfl (by decide)
  exact ⟨out, s', doc, c, c', hrun, hdocument, hown⟩

/-- The envelope of `acme.a` 1.0 is accepted as the metadata of `acme.b` 2.0. -/
theorem release_envelope_replayed :
    ¬ ∀ out s' delegation c payload md,
      verifyFetchedRelease (sampleOracles sampleDocuments) sampleTrust []
        (sampleRepository "env:release" (some "acme-key/bytes")) "acme.b" "2.0" (some "bytes")
        .publisher 5 .empty = .ok out s' →
      out.fromSignedMetadata = true →
      MetadataInForce (sampleOracles sampleDocuments) sampleTrust
        (sampleRepository "env:release"
          (some "acme-key/bytes")) "acme.b" "2.0" 5 .empty delegation c
        payload md →
      md.name = "acme.b" ∧ md.version = "2.0" := by
  intro hall
  obtain ⟨c, payload, md, hmd, hname, _⟩ :=
    sample_metadataInForce (some "acme-key/bytes") "acme.b" "2.0"
  have := (hall _ _ _ _ _ _ rfl rfl hmd).1
  rw [hname] at this
  exact absurd this (by decide)

end Cajeta.Trust
