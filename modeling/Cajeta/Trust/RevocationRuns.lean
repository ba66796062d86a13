import Cajeta.Lib.Transition
import Cajeta.Trust.Admission

/-!
# Revocation over a run of calls

A session verifies one release after another, and the repository chooses afresh what it serves each
time. A call accepts the statement it is served, if it comes to consult one at all, and what a run
accepts is ordered in time exactly as long as no call is served a statement older than one accepted
before it.
-/

namespace Cajeta.Trust
open Except EStateM OrgKeyCache

/-- One call of `verifyFetchedRelease`, with the answers it is given. -/
structure Call where
  repo : Repository
  name : String
  version : String
  artifact : Option String
  policy : Verification
  now : Int

def Call.run (o : Oracles) (trust : TrustStoreLayout) (legacy : List LegacyRelease) (call : Call) :
    Verify VerifiedRelease :=
  verifyFetchedRelease o trust legacy call.repo call.name call.version call.artifact call.policy
    call.now

/-- A call leaves its state behind whether it admits the release or refuses it. -/
def Call.step (o : Oracles) (trust : TrustStoreLayout) (legacy : List LegacyRelease)
    (s : VerifyState) (call : Call) (s' : VerifyState) : Prop :=
  s' = (call.run o trust legacy s).state

/-- The check of the default policy asks for the key document first. -/
def documentAsk (policy : Verification) : Nat := if policy = .publisher then 0 else 1

/-- The archive's signature is held to the key document of the organization, so that the revocation
list is consulted: the metadata in force names the hash of the bytes and the organization, a
signature is published and the document can be had. `delegation` is the one in force. -/
def Consults (o : Oracles) (trust : TrustStoreLayout) (s : VerifyState) (call : Call)
    (delegation : Option RepositoryDelegation) : Prop :=
  ∃ c payload md, MetadataInForce o trust call.repo call.name call.version call.now s delegation c
      payload md ∧
    md.sha256 = sha256OfFile o call.artifact ∧ md.organization ≠ "" ∧
    (∃ signature, call.repo.publishedSignature call.name call.version = .ok (some signature)) ∧
    ∃ doc c', documentFor o trust.rootTrustLayout c call.repo
      (documentAsk call.policy) md.organization call.now = (.ok (some doc), c')

/-- `rev` is the statement served: signed by a key of the delegation in force, for this repository,
and unexpired. -/
def LoadsStatement (o : Oracles) (repo : Repository) (delegation : Option RepositoryDelegation)
    (now : Int) (rev : KeyRevocation) : Prop :=
  repo.capabilities = .ok true ∧ ∃ json del, delegation = some del ∧
    repo.revocations = .ok (some json) ∧ loadKeyRevocation o json del repo.origin now 0 = .ok rev

/-- The call is served `rev` where it consults the list. -/
def Serves (o : Oracles) (trust : TrustStoreLayout) (s : VerifyState) (call : Call)
    (rev : KeyRevocation) : Prop :=
  ∃ delegation, Consults o trust s call delegation ∧
    LoadsStatement o call.repo delegation call.now rev

section
variable {o : Oracles} {trust : TrustStoreLayout} {repo : Repository} {s s' : VerifyState}

theorem revocationFor_eq_some :
    revocationFor o repo delegation now 0 = .ok (some rev) ↔
      LoadsStatement o repo delegation now rev := by
  simp only [revocationFor, LoadsStatement, Except.bind_eq_ok]
  constructor
  · rintro ⟨advertised, hcap, h⟩
    split at h
    · simp [Except.pure_eq_ok] at h
    next hadv =>
    simp only [Except.bind_eq_ok, orThrow_eq_ok, Except.wrap_eq_ok, Except.pure_eq_ok,
      Option.some.injEq] at h
    obtain ⟨del, hdel, _, hraw, json, rfl, _, hload, rfl⟩ := h
    exact ⟨Bool.of_not_eq_false hadv ▸ hcap, json, del, hdel, hraw, hload⟩
  · rintro ⟨hcap, json, del, hdel, hraw, hload⟩
    refine ⟨true, hcap, ?_⟩
    simp only [Bool.true_eq_false, if_false, Except.bind_eq_ok, orThrow_eq_ok, Except.wrap_eq_ok,
      Except.pure_eq_ok, Option.some.injEq]
    exact ⟨del, hdel, _, hraw, json, rfl, rev, hload, rfl⟩

/-! ## What a call does to the record -/

/-- The record after a call that started with `accepted`: `rev` joins it where `P rev` holds. -/
def Records (accepted : List KeyRevocation) (P : KeyRevocation → Prop) (s : VerifyState) : Prop :=
  s.accepted = accepted ∨ ∃ rev, P rev ∧ s.accepted = rev :: accepted

theorem withCache_leads {call : OrgKeyCache → Except String α × OrgKeyCache} :
    Leads (fun s => s.accepted = accepted) (withCache call) (fun s => s.accepted = accepted) := by
  intro s hs
  unfold withCache
  rcases call s.orgKeys with ⟨answer, orgKeys⟩
  cases answer <;> exact hs

theorem documentOf_leads :
    Leads (fun s => s.accepted = accepted) (documentOf o trust repo ask organization now)
      (fun s => s.accepted = accepted) := by
  unfold documentOf
  split
  · exact .pure
  · exact withCache_leads.wrap

theorem integrityOf_leads :
    Leads (fun s => s.accepted = accepted) (integrityOf o trust repo name version now)
      (fun s => s.accepted = accepted) :=
  Leads.ofResult.wrap.bind (fun _ h => h) fun _ =>
    withCache_leads.wrap.bind (fun _ h => h) fun _ =>
      Leads.ofResult.bind (fun _ h => h) fun _ => .pure

theorem requirePublisher_leads :
    Leads (fun s => s.accepted = accepted)
      (requirePublisher o trust repo policy organization signature what now)
      (fun s => s.accepted = accepted) := by
  unfold requirePublisher
  split
  · exact Leads.ofResult.bind (fun _ h => h) fun _ =>
      withCache_leads.wrap.bind (fun _ h => h) fun _ => .ofResult
  · exact .pure

theorem warnRetracted_leads {P : VerifyState → Prop} (hlog : ∀ s log, P s → P { s with log }) :
    Leads P (warnRetracted integrity what) P := by
  intro s hs
  unfold warnRetracted
  split
  · exact hlog s _ hs
  · exact hs

theorem acceptRevocation_leads :
    Leads (fun s => s.accepted = accepted) (acceptRevocation o repo delegation now)
      (Records accepted (LoadsStatement o repo delegation now)) := by
  refine Leads.ofResult.bind_ok (fun _ => .inl) fun s revocation s' hs _ hrev => ?_
  obtain ⟨hanswer, rfl⟩ := ofResult_eq_ok.mp hrev
  cases revocation with
  | none => exact .inl hs
  | some rev => exact .inr ⟨rev, revocationFor_eq_some.mp hanswer, congrArg (rev :: ·) hs⟩

theorem checkArchiveSignature_leads :
    Leads (fun t => t = s)
      (checkArchiveSignature o trust repo name version artifact signature organization delegation
        now)
      (Records s.accepted fun rev => LoadsStatement o repo delegation now rev ∧
        organization ≠ "" ∧ ∃ doc c',
          documentFor o trust.rootTrustLayout s.orgKeys repo 1 organization now =
            (.ok (some doc), c')) := by
  have hdoc : Leads (fun t => t = s) (documentOf o trust repo 1 organization now)
      (fun t => t.accepted = s.accepted) := fun _ ht => documentOf_leads _ (ht ▸ rfl)
  refine hdoc.bind_ok (fun _ => .inl) fun t doc s₁ ht hs₁ hrun => ?_
  subst ht
  cases doc with
  | none => exact (Leads.ofResult.mono fun _ => .inl) s₁ hs₁
  | some doc =>
    have horg : organization ≠ "" := by
      rintro rfl
      simp [documentOf, EStateM.pure_eq_ok] at hrun
    simp only [documentOf, horg, if_false, EStateM.wrap_eq_ok, withCache_eq_ok] at hrun
    obtain ⟨c', hdoc, rfl⟩ := hrun
    refine (acceptRevocation_leads.bind (fun _ h => h) fun _ => Leads.ofResult).mono ?_ _ hs₁
    rintro s' (hsame | ⟨rev, hloads, hcons⟩)
    · exact .inl hsame
    · exact .inr ⟨rev, ⟨hloads, horg, doc, c', hdoc⟩, hcons⟩

theorem requirePublisher_document (horg : organization ≠ "")
    (h : requirePublisher o trust repo policy organization signature what now s = .ok u s₂)
    (hdoc : documentFor o trust.rootTrustLayout s₂.orgKeys repo 1 organization now =
      (.ok (some doc), c')) :
    ∃ doc c', documentFor o trust.rootTrustLayout s.orgKeys repo (documentAsk policy) organization
      now = (.ok (some doc), c') := by
  cases policy with
  | publisher =>
    obtain ⟨_, doc, c', hfirst, _⟩ := requirePublisher_ok horg h
    exact ⟨doc, c', hfirst⟩
  | checksum =>
    have hskip : requirePublisher o trust repo .checksum organization signature what now s =
        .ok () s := rfl
    cases hskip.symm.trans h
    exact ⟨doc, c', hdoc⟩

theorem checkPublishedSignature_leads {integrity : ReleaseIntegrity}
    (hpub : requirePublisher o trust repo policy
      (if integrity.fromSignedMetadata then integrity.organization else "") signature what now t =
        .ok u s)
    (hsame : s.accepted = t.accepted) :
    Leads (fun s' => s' = s)
      (checkPublishedSignature o trust repo name version artifact signature
        (if integrity.fromSignedMetadata then integrity.organization else "") delegation what now)
      (Records t.accepted fun rev => LoadsStatement o repo delegation now rev ∧
        integrity.fromSignedMetadata = true ∧ integrity.organization ≠ "" ∧
        signature.isSome = true ∧
        ∃ doc c', documentFor o trust.rootTrustLayout t.orgKeys repo (documentAsk policy)
          integrity.organization now = (.ok (some doc), c')) := by
  cases signature with
  | none => exact fun _ ht => .inl (ht ▸ hsame)
  | some signature =>
    refine checkArchiveSignature_leads.wrap.mono ?_
    rintro s' (hs' | ⟨rev, ⟨hloads, horg, doc, c', hdoc⟩, hs'⟩)
    · exact .inl (hs'.trans hsame)
    · have hdocument := requirePublisher_document horg hpub hdoc
      have hsigned : integrity.fromSignedMetadata = true := by
        by_contra hunsigned
        exact horg (if_neg hunsigned)
      rw [if_pos hsigned] at horg hdocument
      exact .inr ⟨rev, ⟨hloads, hsigned, horg, rfl, hdocument⟩, hsame ▸ hs'⟩

theorem verifyAgainstIntegrity_leads {integrity : ReleaseIntegrity} :
    Leads (fun t => t = s)
      (verifyAgainstIntegrity o trust repo name version artifact policy now integrity delegation
        what)
      (Records s.accepted fun rev => LoadsStatement o repo delegation now rev ∧
        integrity.fromSignedMetadata = true ∧ integrity.organization ≠ "" ∧
        (integrity.sha256 = "" ∨ sha256OfFile o artifact = integrity.sha256) ∧
        (∃ signature, repo.publishedSignature name version = .ok (some signature)) ∧
        ∃ doc c', documentFor o trust.rootTrustLayout s.orgKeys repo (documentAsk policy)
          integrity.organization now = (.ok (some doc), c')) := by
  unfold verifyAgainstIntegrity
  refine Leads.ofResult.bind_ok (fun _ h => .inl (h ▸ rfl)) fun t _ _ ht _ hrun => ?_
  subst ht
  obtain ⟨hhash, rfl⟩ := ofResult_eq_ok.mp hrun
  refine Leads.ofResult.bind_ok (fun _ h => .inl (h ▸ rfl))
    (fun t signature _ ht _ hrun => ?_) _ rfl
  subst ht
  obtain ⟨hsig, rfl⟩ := ofResult_eq_ok.mp hrun
  refine Leads.bind_ok (P := fun s => s = t) (R := fun s => s.accepted = t.accepted)
    (fun s hs => requirePublisher_leads s (hs ▸ rfl)) (fun _ => .inl)
    (fun s _ s₁ hs hs₁ hpub => ?_) t rfl
  subst hs
  refine (((checkPublishedSignature_leads hpub hs₁).bind (fun _ h => h) fun _ =>
    (warnRetracted_leads fun _ _ h => h).bind (fun _ h => h) fun _ => .pure).mono ?_) s₁ rfl
  rintro s' (hsame | ⟨rev, ⟨hloads, hsigned, horg, hsome, hdoc⟩, hcons⟩)
  · exact .inl hsame
  · obtain ⟨signature, rfl⟩ := Option.isSome_iff_exists.mp hsome
    have hhash := require_eq_ok.mp hhash
    exact .inr ⟨rev, ⟨hloads, hsigned, horg, hhash, ⟨signature, hsig⟩, hdoc⟩, hcons⟩

theorem Consults.of_integrity {call : Call} {integrity : ReleaseIntegrity}
    (hint : integrityOf o trust call.repo call.name call.version call.now s =
      .ok (integrity, delegation) s₁)
    (hsigned : integrity.fromSignedMetadata = true) (horg : integrity.organization ≠ "")
    (hhash : integrity.sha256 = "" ∨ sha256OfFile o call.artifact = integrity.sha256)
    (hsig : ∃ signature, call.repo.publishedSignature call.name call.version =
      .ok (some signature))
    (hdoc : ∃ doc c', documentFor o trust.rootTrustLayout s₁.orgKeys call.repo
      (documentAsk call.policy) integrity.organization call.now = (.ok (some doc), c')) :
    Consults o trust s call delegation := by
  obtain ⟨payload, md, hmd, hne, hsha, hmdorg⟩ := integrityOf_signed hint hsigned
  have hbytes : md.sha256 = sha256OfFile o call.artifact := by
    rcases hhash with hempty | hhash
    · exact absurd (hsha.symm.trans hempty) hne
    · exact hsha.symm.trans hhash.symm
  exact ⟨_, payload, md, hmd, hbytes, hmdorg ▸ horg, hsig, hmdorg ▸ hdoc⟩

/-- A call accepts nothing but the statement it is served. -/
theorem Call.run_records (o : Oracles) (trust : TrustStoreLayout) (legacy : List LegacyRelease)
    (s : VerifyState) (call : Call) :
    Records s.accepted (Serves o trust s call) (call.run o trust legacy s).state := by
  refine Leads.bind_ok (P := fun t => t = s) (R := fun t => t.accepted = s.accepted)
    (fun t ht => integrityOf_leads.wrap t (ht ▸ rfl)) (fun _ => .inl)
    (fun t ⟨integrity, delegation⟩ s₁ ht hs₁ hrun => ?_) s rfl
  subst ht
  have hint := wrap_eq_ok.mp hrun
  dsimp only
  split
  · exact (Leads.ofResult.mono fun _ => .inl) s₁ hs₁
  · refine (verifyAgainstIntegrity_leads.mono ?_) s₁ rfl
    rintro s' (hsame | ⟨rev, ⟨hloads, hsigned, horg, hhash, hsig, hdoc⟩, hcons⟩)
    · exact .inl (hsame.trans hs₁)
    · exact .inr ⟨rev, ⟨delegation, .of_integrity hint hsigned horg hhash hsig hdoc, hloads⟩,
        hs₁ ▸ hcons⟩

theorem requirePublisher_of_document (signature what : String) (horg : organization ≠ "")
    (hdoc : documentFor o trust.rootTrustLayout s.orgKeys repo (documentAsk policy) organization now
      = (.ok (some doc), c')) :
    ∃ s₁ c'', requirePublisher o trust repo policy organization (some signature) what now s =
        .ok () s₁ ∧ s₁.accepted = s.accepted ∧
      documentFor o trust.rootTrustLayout s₁.orgKeys repo 1 organization now =
        (.ok (some doc), c'') := by
  cases policy with
  | publisher =>
    refine ⟨{ s with orgKeys := c' }, c', ?_, rfl, documentFor_again hdoc⟩
    simp only [requirePublisher, horg, ne_eq, not_false_iff, and_self, if_true, EStateM.bind_eq_ok,
      ofResult_eq_ok, require_eq_ok, EStateM.wrap_eq_ok, withCache_eq_ok]
    exact ⟨(), s, ⟨rfl, rfl⟩, some doc, _, ⟨c', hdoc, rfl⟩, rfl, rfl⟩
  | checksum => exact ⟨s, c', rfl, rfl, hdoc⟩

theorem checkArchiveSignature_records (horg : organization ≠ "")
    (hdoc : documentFor o trust.rootTrustLayout s.orgKeys repo 1 organization now =
      (.ok (some doc), c'))
    (hloads : LoadsStatement o repo delegation now rev) :
    (checkArchiveSignature o trust repo name version artifact signature organization delegation now
      s).state.accepted = rev :: s.accepted := by
  have hdocument : documentOf o trust repo 1 organization now s =
      .ok (some doc) { s with orgKeys := c' } := by
    simp only [documentOf, horg, if_false, EStateM.wrap_eq_ok, withCache_eq_ok]
    exact ⟨c', hdoc, rfl⟩
  have haccept : acceptRevocation o repo delegation now { s with orgKeys := c' } =
      .ok (some rev) { s with orgKeys := c', accepted := rev :: s.accepted } :=
    bind_of_ok (ofResult_eq_ok.mpr ⟨revocationFor_eq_some.mpr hloads, rfl⟩)
  rw [checkArchiveSignature, bind_of_ok hdocument]
  dsimp only
  rw [bind_of_ok haccept]
  exact Leads.ofResult (P := fun t : VerifyState => t.accepted = rev :: s.accepted) _ rfl

/-- The statement a call is served, it accepts. -/
theorem Serves.records {call : Call} (h : Serves o trust s call rev)
    (legacy : List LegacyRelease) :
    (call.run o trust legacy s).state.accepted = rev :: s.accepted := by
  obtain ⟨delegation, ⟨c, payload, md, hmd, hsha, horg, ⟨signature, hsig⟩, doc, c', hdoc⟩,
    hloads⟩ := h
  obtain ⟨integrity, hint, hsigned, hisha, hiorg⟩ := hmd.integrityOf
  rw [← hiorg] at horg hdoc
  obtain ⟨s₁, c'', hpub, hs₁, hdoc⟩ := requirePublisher_of_document (s := { s with orgKeys := c })
    signature ("'" ++ call.name ++ "' " ++ call.version ++ " from repository '" ++
      call.repo.name ++ "'") horg hdoc
  have hhash : checkHash o integrity call.artifact ("'" ++ call.name ++ "' " ++ call.version ++
      " from repository '" ++ call.repo.name ++ "'") = .ok () :=
    require_eq_ok.mpr (.inr (hsha.symm.trans hisha.symm))
  unfold Call.run verifyFetchedRelease
  rw [bind_of_ok (wrap_eq_ok.mpr hint)]
  simp only [hsigned, Bool.true_eq_false, false_and, if_false, verifyAgainstIntegrity, if_true]
  rw [bind_of_ok (ofResult_eq_ok.mpr ⟨hhash, rfl⟩), bind_of_ok (ofResult_eq_ok.mpr ⟨hsig, rfl⟩),
    bind_of_ok hpub]
  refine Leads.bind (P := fun t => t = s₁) (Q := fun t => t.accepted = rev :: s.accepted)
    (Leads.wrap fun t ht => ?_) (fun _ h => h)
    (fun _ => (warnRetracted_leads fun _ _ h => h).bind (fun _ h => h) fun _ => .pure) s₁ rfl
  rw [ht, checkArchiveSignature_records horg hdoc hloads, hs₁]

/-! ## Runs -/

/-- Newest first, no statement of a repository is older than one accepted before it. -/
def NoRollback (accepted : List KeyRevocation) : Prop :=
  accepted.Pairwise fun later earlier =>
    earlier.repository = later.repository → earlier.issuedAt ≤ later.issuedAt

/-- The statement the call is served where it consults the list, if it comes to that, is no older
than one of the repository already accepted. -/
def ServesNoOlder (o : Oracles) (trust : TrustStoreLayout) (s : VerifyState) (call : Call) : Prop :=
  ∀ rev, Serves o trust s call rev →
    ∀ seen ∈ s.accepted, seen.repository = rev.repository → seen.issuedAt ≤ rev.issuedAt

theorem noRollback_step_iff {call : Call} (hs : NoRollback s.accepted)
    (hstep : call.step o trust legacy s s') :
    NoRollback s'.accepted ↔ ServesNoOlder o trust s call := by
  subst hstep
  constructor
  · intro hnext rev hserves
    rw [hserves.records legacy] at hnext
    exact (List.pairwise_cons.mp hnext).1
  · intro hguard
    rcases call.run_records o trust legacy s with hsame | ⟨rev, hserves, hcons⟩
    · rwa [hsame]
    · rw [hcons]
      exact List.pairwise_cons.mpr ⟨hguard rev hserves, hs⟩

/-- Revocation never rolls back in a run whose calls are served no older statement than one already
accepted, and the first call that is served an older one rolls it back. -/
theorem revocation_noRollback
    (h : Steps (Steps.guarded (Call.step o trust legacy) (ServesNoOlder o trust)) .empty calls s) :
    NoRollback s.accepted ∧ ∀ call s', call.step o trust legacy s s' →
      (NoRollback s'.accepted ↔ ServesNoOlder o trust s call) := by
  have hs : NoRollback s.accepted :=
    h.preserves (P := fun s : VerifyState => NoRollback s.accepted)
      (fun _ _ _ hstep hs => (noRollback_step_iff hs hstep.2).mpr hstep.1) .nil
  exact ⟨hs, fun _ _ hstep => noRollback_step_iff hs hstep⟩

end

def revocationDocuments : List (String × String × Json) :=
  [("release", "online", .obj [("sha256", .str "bytes"), ("organization", .str "acme")]),
    ("document", "root", .obj [("organization", .str "acme"), ("namespaces", .arr [.str "acme"]),
      ("issued-at", .str "1970-01-01T00:00:00Z"), ("not-after", .str "1971-01-01T00:00:00Z"),
      ("keys", sampleKeys "acme-key")]),
    ("delegation", "root", .obj [("type", .str "repository-delegation"),
      ("repository", .str "https://central"), ("issued-at", .str "1970-01-01T00:00:00Z"),
      ("not-after", .str "1971-01-01T00:00:00Z"), ("keys", sampleKeys "online")]),
    ("first", "online", .obj [("type", .str "key-revocation"),
      ("repository", .str "https://central"), ("issued-at", .str "1970-01-01T00:00:00Z"),
      ("not-after", .str "1971-01-01T00:00:00Z"), ("revoked", .arr [])]),
    ("second", "online", .obj [("type", .str "key-revocation"),
      ("repository", .str "https://central"), ("issued-at", .str "1970-01-02T00:00:00Z"),
      ("not-after", .str "1971-01-01T00:00:00Z"),
      ("revoked", .arr [.obj [("id", .str "acme-key")]])])]

def revocationCall (statement : String) : Call where
  repo :=
    { sampleRepository "env:release" (some "acme-key/bytes") with
      repositoryKeys := .ok (some "env:delegation")
      capabilities := .ok true
      revocations := .ok (some statement) }
  name := "acme.a"
  version := "1.0"
  artifact := some "bytes"
  policy := .publisher
  now := 100000

theorem revocation_noRollback_sample :
    ∃ s : VerifyState, s.accepted.map (·.issuedAt) = [86400, 0] ∧ NoRollback s.accepted := by
  have hguard : ServesNoOlder (sampleOracles revocationDocuments) sampleTrust
      ((revocationCall "env:first").run (sampleOracles revocationDocuments) sampleTrust []
        .empty).state (revocationCall "env:second") := by
    intro rev hserves seen hseen _
    have hissued : [86400, 0] = [rev.issuedAt, 0] :=
      congrArg (List.map KeyRevocation.issuedAt) (hserves.records [])
    cases List.mem_singleton.mp hseen
    rw [← (List.cons.inj hissued).1]
    decide
  exact ⟨_, rfl, (revocation_noRollback
    (.cons ⟨fun _ _ => nofun, rfl⟩ (.cons ⟨hguard, rfl⟩ .nil))).1⟩

/-- The key that the second statement revokes verifies the release again once the first statement,
older and still unexpired, is served in its place. -/
theorem revocation_rolls_back :
    ∃ (s₁ s₂ : VerifyState) (out : VerifiedRelease),
      (revocationCall "env:second").step (sampleOracles revocationDocuments) sampleTrust [] .empty
        s₁ ∧
      (revocationCall "env:first").run (sampleOracles revocationDocuments) sampleTrust [] s₁ =
        .ok out s₂ ∧
      ¬ NoRollback s₂.accepted := by
  refine ⟨_, _, _, rfl, rfl, fun h => ?_⟩
  have := (List.pairwise_cons.mp h).1 _ (List.mem_singleton.mpr rfl) rfl
  exact absurd this (by decide)

end Cajeta.Trust
