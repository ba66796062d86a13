import Mathlib.Algebra.Order.Group.Int
import Cajeta.Lib.Transition
import Cajeta.Trust.Admission

/-!
# Concurrent calls of the key cache

Any number of `documentFor` calls for one repository and organization, interleaved at the
granularity of the mutex: a lookup, a fetch and a store are one step each. The mark a fetch is
checked against was read by the lookup, so a slow call can store what a faster one has superseded;
without such a store the documents handed out never go back in time.
-/

namespace Cajeta.Trust
open Except OrgKeyCache

/-- Where one call of `documentFor` stands. `floor` is what had been returned when it started. -/
inductive CallState where
  | idle
  | fetching (now seen : Int) (floor : List OrgKeyDocument)
  | storing (now : Int) (doc : OrgKeyDocument) (floor : List OrgKeyDocument)
  | returned

/-- A document handed out to a call. -/
structure Handout where
  now : Int
  doc : OrgKeyDocument
  floor : List OrgKeyDocument

/-- What a handout must satisfy: the document is current for the call it went to, and no older than
any document returned before that call started. -/
structure Handout.Good (h : Handout) : Prop where
  current : h.now < h.doc.notAfter
  newer : ∀ d ∈ h.floor, d.issuedAt ≤ h.doc.issuedAt

structure CacheSystem where
  orgKeys : OrgKeyCache
  calls : Nat → CallState
  /-- Newest first. -/
  handouts : List Handout

namespace CacheSystem

def empty : CacheSystem := { orgKeys := .empty, calls := fun _ => .idle, handouts := [] }

def docs (s : CacheSystem) : List OrgKeyDocument := s.handouts.map (·.doc)

/-- The call `i` ends with `doc`. -/
def handOut (s : CacheSystem) (i : Nat) (h : Handout) : CacheSystem :=
  { s with calls := Function.update s.calls i .returned, handouts := h :: s.handouts }

/-- A critical section or a fetch of the call `i`. A fetch meets whatever the repository serves
then. -/
inductive Action where
  | lookup (i : Nat) (now : Int)
  | fetch (i : Nat) (repo : Repository) (ask : Nat)
  | store (i : Nat)

/-- The repository and the organization the calls are for. -/
structure Target where
  repoName : String
  org : String

def Target.key (t : Target) : String := cacheKey t.repoName t.org

inductive Step (o : Oracles) (layout : RootTrustLayout) (t : Target) :
    CacheSystem → Action → CacheSystem → Prop where
  | hit {s : CacheSystem} {c : OrgKeyCache} : s.calls i = .idle →
      s.orgKeys.lookupDocument t.key now = ((seen, some doc), c) →
      Step o layout t s (.lookup i now)
        ({ s with orgKeys := c }.handOut i { now, doc, floor := s.docs })
  | miss {s : CacheSystem} {c : OrgKeyCache} : s.calls i = .idle →
      s.orgKeys.lookupDocument t.key now = ((seen, none), c) →
      Step o layout t s (.lookup i now)
        { s with orgKeys := c, calls := Function.update s.calls i (.fetching now seen s.docs) }
  | fetched {s : CacheSystem} : s.calls i = .fetching now seen floor → repo.name = t.repoName →
      fetchDocument o layout repo ask t.org now seen = .ok (some doc) →
      Step o layout t s (.fetch i repo ask)
        { s with calls := Function.update s.calls i (.storing now doc floor) }
  | refused {s : CacheSystem} : s.calls i = .fetching now seen floor → repo.name = t.repoName →
      (∀ doc, fetchDocument o layout repo ask t.org now seen ≠ .ok (some doc)) →
      Step o layout t s (.fetch i repo ask)
        { s with calls := Function.update s.calls i .returned }
  | store {s : CacheSystem} : s.calls i = .storing now doc floor →
      Step o layout t s (.store i)
        ({ s with orgKeys := s.orgKeys.storeDocument t.key doc }.handOut i { now, doc, floor })

def StoresNoOlder (t : Target) (s : CacheSystem) : Action → Prop
  | .store i => ∀ now doc floor, s.calls i = .storing now doc floor →
      s.orgKeys.mark t.key ≤ doc.issuedAt
  | _ => True

section
variable {c : OrgKeyCache}

theorem handOut_orgKeys {s : CacheSystem} : (s.handOut i h).orgKeys = s.orgKeys := rfl

private theorem of_update_eq [DecidableEq α] {f : α → β} (h : Function.update f i a j = b) :
    a = b ∨ f j = b := by
  rcases eq_or_ne j i with rfl | hij
  · exact .inl (by simpa using h)
  · exact .inr (by simpa [Function.update_of_ne hij] using h)

theorem mark_storeDocument (h : c.mark key ≤ doc.issuedAt) :
    (c.storeDocument key doc).mark key = doc.issuedAt := by
  simp only [mark, storeDocument, raiseMark, Function.update_self, Option.getD_some]
  simp only [mark] at h
  rcases h.lt_or_eq with hlt | heq
  · exact if_pos hlt
  · exact (if_neg (by omega)).trans heq

theorem lookupDocument_mark (h : c.lookupDocument key now = ((seen, hit), c')) :
    c'.mark key = c.mark key := by
  rcases (lookupDocument_spec h).2.2 with rfl | rfl <;> rfl

theorem lookupDocument_cache (h : c.lookupDocument key now = ((seen, hit), c'))
    (hdoc : c'.cache key = some doc) : c.cache key = some doc := by
  rcases (lookupDocument_spec h).2.2 with rfl | rfl
  · exact hdoc
  · simp at hdoc

end

/-! ## The invariant -/

/-- The mark is the issue time of what is cached, and nothing handed out, nor anything a running
call must not fall behind, is newer than it. -/
structure Inv (t : Target) (s : CacheSystem) : Prop where
  cached : s.orgKeys.cache t.key = some doc → doc.issuedAt = s.orgKeys.mark t.key
  behind : ∀ d ∈ s.docs, d.issuedAt ≤ s.orgKeys.mark t.key
  fetching : s.calls i = .fetching now seen floor →
    ∀ d ∈ floor, d.issuedAt ≤ s.orgKeys.mark t.key
  storing : s.calls i = .storing now doc floor →
    now < doc.notAfter ∧ ∀ d ∈ floor, d.issuedAt ≤ s.orgKeys.mark t.key
  good : ∀ h ∈ s.handouts, h.Good

theorem Inv.empty : Inv t empty := ⟨nofun, nofun, nofun, nofun, nofun⟩

theorem Inv.hit {s : CacheSystem} (hs : Inv t s)
    (hlookup : s.orgKeys.lookupDocument t.key now = ((seen, some doc), c)) :
    Inv t ({ s with orgKeys := c }.handOut i { now, doc, floor := s.docs }) := by
  obtain ⟨rfl, hdoc, hnow⟩ := (lookupDocument_spec hlookup).2.1 doc rfl
  have hmark := hs.cached hdoc
  refine ⟨hs.cached, ?_, fun hj => ?_, fun hj => ?_, ?_⟩
  · rintro d (_ | ⟨_, hd⟩)
    · exact hmark.le
    · exact hs.behind d hd
  · rcases of_update_eq hj with hj | hj
    · cases hj
    · exact hs.fetching hj
  · rcases of_update_eq hj with hj | hj
    · cases hj
    · exact hs.storing hj
  · rintro h (_ | ⟨_, hh⟩)
    · exact ⟨hnow, fun d hd => (hs.behind d hd).trans hmark.ge⟩
    · exact hs.good h hh

theorem Inv.miss {s : CacheSystem} (hs : Inv t s)
    (hlookup : s.orgKeys.lookupDocument t.key now = ((seen, none), c)) :
    Inv t { s with orgKeys := c,
                   calls := Function.update s.calls i (.fetching now seen s.docs) } := by
  have hmark := lookupDocument_mark hlookup
  refine ⟨fun hd => ?_, fun d hd => ?_, fun hj => ?_, fun hj => ?_, hs.good⟩
  · exact (hs.cached (lookupDocument_cache hlookup hd)).trans hmark.symm
  · exact (hs.behind d hd).trans hmark.ge
  · rcases of_update_eq hj with hj | hj
    · cases hj
      exact fun d hd => (hs.behind d hd).trans hmark.ge
    · exact fun d hd => (hs.fetching hj d hd).trans hmark.ge
  · rcases of_update_eq hj with hj | hj
    · cases hj
    · exact ⟨(hs.storing hj).1, fun d hd => ((hs.storing hj).2 d hd).trans hmark.ge⟩

theorem Inv.fetched {s : CacheSystem} (hs : Inv t s) (hi : s.calls i = .fetching now seen floor)
    (hnow : now < doc.notAfter) :
    Inv t { s with calls := Function.update s.calls i (.storing now doc floor) } := by
  refine ⟨hs.cached, hs.behind, fun hj => ?_, fun hj => ?_, hs.good⟩
  · rcases of_update_eq hj with hj | hj
    · cases hj
    · exact hs.fetching hj
  · rcases of_update_eq hj with hj | hj
    · cases hj
      exact ⟨hnow, hs.fetching hi⟩
    · exact hs.storing hj

theorem Inv.refused {s : CacheSystem} (hs : Inv t s) :
    Inv t { s with calls := Function.update s.calls i .returned } := by
  refine ⟨hs.cached, hs.behind, fun hj => ?_, fun hj => ?_, hs.good⟩
  · rcases of_update_eq hj with hj | hj
    · cases hj
    · exact hs.fetching hj
  · rcases of_update_eq hj with hj | hj
    · cases hj
    · exact hs.storing hj

theorem Inv.store {s : CacheSystem} (hs : Inv t s) (hi : s.calls i = .storing now doc floor)
    (hguard : s.orgKeys.mark t.key ≤ doc.issuedAt) :
    Inv t ({ s with orgKeys := s.orgKeys.storeDocument t.key doc }.handOut i
      { now, doc, floor }) := by
  have hmark := mark_storeDocument hguard
  have hraise := hguard.trans hmark.ge
  obtain ⟨hnow, hfloor⟩ := hs.storing hi
  refine ⟨fun {d} hd => ?_, ?_, fun hj => ?_, fun hj => ?_, ?_⟩
  · simp only [handOut_orgKeys, storeDocument, Function.update_self, Option.some.injEq] at hd
    subst hd
    exact hmark.symm
  · rintro d (_ | ⟨_, hd⟩)
    · exact hmark.ge
    · exact (hs.behind d hd).trans hraise
  · rcases of_update_eq hj with hj | hj
    · cases hj
    · exact fun d hd => (hs.fetching hj d hd).trans hraise
  · rcases of_update_eq hj with hj | hj
    · cases hj
    · exact ⟨(hs.storing hj).1, fun d hd => ((hs.storing hj).2 d hd).trans hraise⟩
  · rintro h (_ | ⟨_, hh⟩)
    · exact ⟨hnow, fun d hd => (hfloor d hd).trans hguard⟩
    · exact hs.good h hh

theorem Inv.step {s s' : CacheSystem} (hs : Inv t s) (hguard : StoresNoOlder t s a)
    (hstep : Step o layout t s a s') : Inv t s' := by
  cases hstep with
  | hit _ hlookup => exact hs.hit hlookup
  | miss _ hlookup => exact hs.miss hlookup
  | fetched hi _ hfetch => exact hs.fetched hi (fetchDocument_fresh hfetch).1.current
  | refused => exact hs.refused
  | store hi => exact hs.store hi (hguard _ _ _ hi)

/-- In every interleaving in which no call stores a document older than the mark, each document
handed out is current for its call and no older than what was returned before that call started. -/
theorem handouts_good {s : CacheSystem}
    (h : Steps (Steps.guarded (Step o layout t) (StoresNoOlder t)) empty actions s) :
    ∀ h ∈ s.handouts, h.Good :=
  (h.preserves (P := Inv t) (fun _ _ _ hstep hs => hs.step hstep.1 hstep.2) .empty).good

/-! ### Two documents of one organization -/

def agingDocument (issued : String) : Json :=
  .obj [("organization", .str "acme"), ("namespaces", .arr [.str "acme"]),
    ("issued-at", .str issued), ("not-after", .str "1971-01-01T00:00:00Z"),
    ("keys", sampleKeys "acme-key")]

def agingDocuments : List (String × String × Json) :=
  [("old", "root", agingDocument "1970-01-01T00:00:00Z"),
    ("new", "root", agingDocument "1970-01-02T00:00:00Z")]

def agingRepository (document : String) : Repository :=
  { sampleRepository "env:release" none with organizationKeys := fun _ _ => .ok (some document) }

/-- Two calls fetch, the one with the older document first; a third is answered from the cache. -/
theorem handouts_good_sample :
    ∃ (s : CacheSystem) (h : Handout), h ∈ s.handouts ∧
      h.floor.map (·.issuedAt) = [86400, 0] ∧ h.Good := by
  have hrun : ∃ s, Steps (Steps.guarded (Step (sampleOracles agingDocuments)
      sampleTrust.rootTrustLayout ⟨"central", "acme"⟩) (StoresNoOlder ⟨"central", "acme"⟩)) empty
      [.lookup 0 5, .lookup 1 5, .fetch 0 (agingRepository "env:old") 0, .store 0,
        .fetch 1 (agingRepository "env:new") 0, .store 1, .lookup 2 5] s ∧
      ∃ h ∈ s.handouts, h.floor.map (·.issuedAt) = [86400, 0] :=
    ⟨_, .cons ⟨trivial, .miss rfl rfl⟩ <| .cons ⟨trivial, .miss rfl rfl⟩ <|
      .cons ⟨trivial, .fetched rfl rfl rfl⟩ <|
      .cons ⟨fun _ _ _ h => by cases h; decide, .store rfl⟩ <|
      .cons ⟨trivial, .fetched rfl rfl rfl⟩ <|
      .cons ⟨fun _ _ _ h => by cases h; decide, .store rfl⟩ <|
      .cons ⟨trivial, .hit rfl rfl⟩ .nil, _, List.mem_cons_self, rfl⟩
  obtain ⟨s, hsteps, h, hh, hfloor⟩ := hrun
  exact ⟨s, h, hh, hfloor, handouts_good hsteps h hh⟩

/-- Two calls read the mark before either has stored; the one with the older document stores last,
and a third call, begun after the newer document was returned, is handed the older one. -/
theorem stale_store_handed_out :
    ¬ ∀ actions s, Steps (Step (sampleOracles agingDocuments) sampleTrust.rootTrustLayout
        ⟨"central", "acme"⟩) empty actions s → ∀ h ∈ s.handouts, h.Good := by
  intro hall
  have hrun : ∃ s, Steps (Step (sampleOracles agingDocuments) sampleTrust.rootTrustLayout
      ⟨"central", "acme"⟩) empty
      [.lookup 0 5, .lookup 1 5, .fetch 0 (agingRepository "env:new") 0, .store 0,
        .fetch 1 (agingRepository "env:old") 0, .store 1, .lookup 2 5] s ∧
      ∃ h ∈ s.handouts, ∃ d ∈ h.floor, ¬ d.issuedAt ≤ h.doc.issuedAt :=
    ⟨_, .cons (.miss rfl rfl) <| .cons (.miss rfl rfl) <| .cons (.fetched rfl rfl rfl) <|
      .cons (.store rfl) <| .cons (.fetched rfl rfl rfl) <| .cons (.store rfl) <|
      .cons (.hit rfl rfl) .nil, _, List.mem_cons_self, _,
      List.mem_cons_of_mem _ List.mem_cons_self, by decide⟩
  obtain ⟨s, hsteps, h, hh, d, hd, hlt⟩ := hrun
  exact hlt ((hall _ s hsteps h hh).newer d hd)

end CacheSystem
end Cajeta.Trust
