import Mathlib.Logic.Function.Basic
import Cajeta.Trust.OrgKeyDocument

/-!
# The verifying cache

`documentFor` and `delegationFor` turn "which repository, which organization" into a verified
document. Each is the composition of the sections that hold the mutex (`lookupDocument`,
`storeDocument` and their delegation twins) with the fetch between them, so that a sequential call
and an interleaving of several calls are built from the same pieces.
-/

namespace Cajeta.Trust
open Except

structure OrgKeyCache where
  cache : String → Option OrgKeyDocument
  /-- The newest `issued-at` accepted per key. It outlives the cached document. -/
  seenIssuedAt : String → Option Int
  delegations : String → Option RepositoryDelegation
  fetches : Nat

namespace OrgKeyCache

def empty : OrgKeyCache where
  cache _ := none
  seenIssuedAt _ := none
  delegations _ := none
  fetches := 0

/-- The cache entry of a repository and an organization. -/
def cacheKey (repo org : String) : String := repo ++ "\x1f" ++ org

/-- The mark a freshness check compares with: `0` when nothing was accepted yet. -/
def mark (c : OrgKeyCache) (key : String) : Int := (c.seenIssuedAt key).getD 0

/-- The high-water mark after `issuedAt` was accepted: `std::map::operator[]` starts at `0`. -/
def raiseMark (c : OrgKeyCache) (key : String) (issuedAt : Int) : String → Option Int :=
  Function.update c.seenIssuedAt key
    (some (if issuedAt > c.mark key then issuedAt else c.mark key))

/-- The first locked section: read the mark, answer from the cache, evict what has expired. -/
def lookupDocument (c : OrgKeyCache) (key : String) (now : Int) :
    (Int × Option OrgKeyDocument) × OrgKeyCache :=
  match c.cache key with
  | some doc =>
    if now < doc.notAfter then ((c.mark key, some doc), c)
    else ((c.mark key, none), { c with cache := Function.update c.cache key none })
  | none => ((c.mark key, none), c)

/-- What runs outside the lock: the fetch and every check of what was fetched. -/
def fetchDocument (o : Oracles) (layout : RootTrustLayout) (repo : Repository) (ask : Nat)
    (org : String) (now seenIssuedAt : Int) : Except String (Option OrgKeyDocument) := do
  match ← repo.organizationKeys ask org with
  | none => return none
  | some bytes =>
    let roots ← rootsFor layout repo.name
    require (roots.isEmpty = false) ("repository '" ++ repo.name ++
      "' serves a key document for '" ++ org ++ "', but this machine trusts no root key for " ++
      "that repository, so it cannot be checked")
    let doc ← loadOrgKeyDocument o bytes roots now seenIssuedAt
    require (doc.organization = org) ("repository '" ++ repo.name ++
      "' served a key document for '" ++ doc.organization ++ "' when asked for '" ++ org ++ "'")
    return some doc

/-- The second locked section. -/
def storeDocument (c : OrgKeyCache) (key : String) (doc : OrgKeyDocument) : OrgKeyCache :=
  { c with
    fetches := c.fetches + 1
    cache := Function.update c.cache key (some doc)
    seenIssuedAt := c.raiseMark key doc.issuedAt }

/-- The verified key document `repo` serves for `org`, or `none` when it serves none. -/
def documentFor (o : Oracles) (layout : RootTrustLayout) (c : OrgKeyCache) (repo : Repository)
    (ask : Nat) (org : String) (now : Int) :
    Except String (Option OrgKeyDocument) × OrgKeyCache :=
  let key := cacheKey repo.name org
  match c.lookupDocument key now with
  | ((_, some doc), c) => (.ok (some doc), c)
  | ((seen, none), c) =>
    match fetchDocument o layout repo ask org now seen with
    | .ok (some doc) => (.ok (some doc), c.storeDocument key doc)
    | answer => (answer, c)

def lookupDelegation (c : OrgKeyCache) (key : String) (now : Int) :
    Option RepositoryDelegation × OrgKeyCache :=
  match c.delegations key with
  | some del =>
    if now < del.notAfter then (some del, c)
    else (none, { c with delegations := Function.update c.delegations key none })
  | none => (none, c)

def fetchDelegation (o : Oracles) (layout : RootTrustLayout) (repo : Repository)
    (now seenIssuedAt : Int) : Except String (Option RepositoryDelegation) := do
  match ← repo.repositoryKeys with
  | none => return none
  | some bytes =>
    let roots ← rootsFor layout repo.name
    require (roots.isEmpty = false) ("repository '" ++ repo.name ++
      "' serves a delegation, but this machine trusts no root key for it, so it cannot be checked")
    let del ← loadRepositoryDelegation o bytes roots repo.origin now seenIssuedAt
    return some del

def storeDelegation (c : OrgKeyCache) (key : String) (del : RepositoryDelegation) : OrgKeyCache :=
  { c with
    fetches := c.fetches + 1
    delegations := Function.update c.delegations key (some del)
    seenIssuedAt := c.raiseMark key del.issuedAt }

/-- The verified delegation of `repo`, or `none` when it serves none. -/
def delegationFor (o : Oracles) (layout : RootTrustLayout) (c : OrgKeyCache) (repo : Repository)
    (now : Int) : Except String (Option RepositoryDelegation) × OrgKeyCache :=
  let key := repo.name
  match c.lookupDelegation key now with
  | (some del, c) => (.ok (some del), c)
  | (none, c) =>
    match fetchDelegation o layout repo now (c.mark key) with
    | .ok (some del) => (.ok (some del), c.storeDelegation key del)
    | answer => (answer, c)

/-! ## What a cache holds -/

/-- Everything cached was signed by a root this machine trusts, and names its organization. -/
structure Trusted (o : Oracles) (layout : RootTrustLayout) (c : OrgKeyCache) : Prop where
  documents : c.cache key = some doc →
    RootSignedDocument o (installedRoots layout) doc ∧ doc.organization ≠ ""
  delegations : c.delegations key = some del → RootSignedDelegation o (installedRoots layout) del

theorem Trusted.empty : Trusted o layout OrgKeyCache.empty := ⟨nofun, nofun⟩

section
variable {o : Oracles} {layout : RootTrustLayout} {c : OrgKeyCache}

theorem lookupDocument_spec (h : c.lookupDocument key now = ((seen, hit), c')) :
    seen = c.mark key ∧
      (∀ doc, hit = some doc → c' = c ∧ c.cache key = some doc ∧ now < doc.notAfter) ∧
      (c' = c ∨ c' = { c with cache := Function.update c.cache key none }) := by
  unfold lookupDocument at h
  split at h
  · next doc hdoc =>
    split at h <;> cases h
    · next hnow => exact ⟨rfl, fun d hd => by cases hd; exact ⟨rfl, hdoc, hnow⟩, .inl rfl⟩
    · exact ⟨rfl, nofun, .inr rfl⟩
  · cases h; exact ⟨rfl, nofun, .inl rfl⟩

theorem lookupDelegation_spec (h : c.lookupDelegation key now = (hit, c')) :
    (∀ del, hit = some del → c' = c ∧ c.delegations key = some del ∧ now < del.notAfter) ∧
      (c' = c ∨ c' = { c with delegations := Function.update c.delegations key none }) := by
  unfold lookupDelegation at h
  split at h
  · next del hdel =>
    split at h <;> cases h
    · next hnow => exact ⟨fun d hd => by cases hd; exact ⟨rfl, hdel, hnow⟩, .inl rfl⟩
    · exact ⟨nofun, .inr rfl⟩
  · cases h; exact ⟨nofun, .inl rfl⟩

theorem fetchDocument_fresh
    (h : fetchDocument o layout repo ask org now seen = .ok (some doc)) :
    FreshDocument o (installedRoots layout) now seen doc ∧ doc.organization = org := by
  simp only [fetchDocument, bind_eq_ok] at h
  obtain ⟨_ | bytes, _, h⟩ := h
  · simp [pure_eq_ok] at h
  simp only [bind_eq_ok, require_eq_ok, pure_eq_ok, Option.some.injEq] at h
  obtain ⟨roots, hroots, _, _, _, hload, _, horg, rfl⟩ := h
  obtain ⟨⟨envelope, issued, expires, hs, hread⟩, hne, hiss, hcur, hfr⟩ :=
    loadOrgKeyDocument_fresh hload
  exact ⟨⟨⟨envelope, issued, expires, hs.mono (rootsFor_installed hroots), hread⟩, hne, hiss, hcur,
    hfr⟩, horg⟩

theorem fetchDelegation_signed
    (h : fetchDelegation o layout repo now seen = .ok (some del)) :
    RootSignedDelegation o (installedRoots layout) del ∧ now < del.notAfter := by
  simp only [fetchDelegation, bind_eq_ok] at h
  obtain ⟨_ | bytes, _, h⟩ := h
  · simp [pure_eq_ok] at h
  simp only [bind_eq_ok, require_eq_ok, pure_eq_ok, Option.some.injEq] at h
  obtain ⟨roots, hroots, _, _, _, hload, rfl⟩ := h
  obtain ⟨⟨envelope, origin, issued, expires, hs, hread⟩, hcur⟩ :=
    loadRepositoryDelegation_signed hload
  exact ⟨⟨envelope, origin, issued, expires, hs.mono (rootsFor_installed hroots), hread⟩, hcur⟩

theorem Trusted.evictDocument (hc : Trusted o layout c) :
    Trusted o layout { c with cache := Function.update c.cache key none } := by
  refine ⟨fun {k doc} hk => ?_, hc.delegations⟩
  by_cases hkey : k = key
  · subst hkey; simp at hk
  · exact hc.documents (by simpa [Function.update_of_ne hkey] using hk)

theorem Trusted.evictDelegation (hc : Trusted o layout c) :
    Trusted o layout { c with delegations := Function.update c.delegations key none } := by
  refine ⟨hc.documents, fun {k del} hk => ?_⟩
  by_cases hkey : k = key
  · subst hkey; simp at hk
  · exact hc.delegations (by simpa [Function.update_of_ne hkey] using hk)

theorem Trusted.storeDocument (hc : Trusted o layout c)
    (hdoc : RootSignedDocument o (installedRoots layout) doc ∧ doc.organization ≠ "") :
    Trusted o layout (c.storeDocument key doc) := by
  refine ⟨fun {k doc'} hk => ?_, hc.delegations⟩
  by_cases hkey : k = key
  · subst hkey
    simp only [OrgKeyCache.storeDocument, Function.update_self, Option.some.injEq] at hk
    subst hk; exact hdoc
  · exact hc.documents (by simpa [OrgKeyCache.storeDocument, Function.update_of_ne hkey] using hk)

theorem Trusted.storeDelegation (hc : Trusted o layout c)
    (hdel : RootSignedDelegation o (installedRoots layout) del) :
    Trusted o layout (c.storeDelegation key del) := by
  refine ⟨hc.documents, fun {k del'} hk => ?_⟩
  by_cases hkey : k = key
  · subst hkey
    simp only [OrgKeyCache.storeDelegation, Function.update_self, Option.some.injEq] at hk
    subst hk; exact hdel
  · exact hc.delegations
      (by simpa [OrgKeyCache.storeDelegation, Function.update_of_ne hkey] using hk)

theorem documentFor_cases (h : documentFor o layout c repo ask org now = (answer, c')) :
    (∃ doc, answer = .ok (some doc) ∧ c' = c ∧ c.cache (cacheKey repo.name org) = some doc ∧
      now < doc.notAfter) ∨
    ∃ c₁, (c₁ = c ∨ c₁ = { c with
        cache := Function.update c.cache (cacheKey repo.name org) none }) ∧
      ((∃ doc, fetchDocument o layout repo ask org now (c.mark (cacheKey repo.name org)) =
          .ok (some doc) ∧ answer = .ok (some doc) ∧
          c' = c₁.storeDocument (cacheKey repo.name org) doc) ∨
        ((∀ doc, answer ≠ .ok (some doc)) ∧ c' = c₁)) := by
  unfold documentFor at h
  dsimp only at h
  split at h
  · next doc c₁ hlookup =>
    obtain ⟨rfl, rfl⟩ := Prod.mk.inj h
    obtain ⟨rfl, hdoc, hnow⟩ := (lookupDocument_spec hlookup).2.1 _ rfl
    exact .inl ⟨doc, rfl, rfl, hdoc, hnow⟩
  · next seen c₁ hlookup =>
    obtain ⟨rfl, _, hc₁⟩ := lookupDocument_spec hlookup
    refine .inr ⟨c₁, hc₁, ?_⟩
    split at h
    · next doc hfetch =>
      obtain ⟨rfl, rfl⟩ := Prod.mk.inj h
      exact .inl ⟨doc, hfetch, rfl, rfl⟩
    · next hno =>
      obtain ⟨rfl, rfl⟩ := Prod.mk.inj h
      exact .inr ⟨fun doc hdoc => hno doc hdoc, rfl⟩

theorem documentFor_some (hc : Trusted o layout c)
    (h : documentFor o layout c repo ask org now = (.ok (some doc), c')) :
    RootSignedDocument o (installedRoots layout) doc ∧ doc.organization ≠ "" ∧
      now < doc.notAfter ∧ c'.cache (cacheKey repo.name org) = some doc := by
  rcases documentFor_cases h with ⟨doc', hans, rfl, hdoc, hnow⟩ | ⟨c₁, _, hfetched | ⟨hno, _⟩⟩
  · cases hans
    exact ⟨(hc.documents hdoc).1, (hc.documents hdoc).2, hnow, hdoc⟩
  · obtain ⟨doc', hfetch, hans, rfl⟩ := hfetched
    cases hans
    obtain ⟨hfresh, _⟩ := fetchDocument_fresh hfetch
    exact ⟨hfresh.signed, hfresh.named, hfresh.current, by simp [OrgKeyCache.storeDocument]⟩
  · exact absurd rfl (hno doc)

theorem documentFor_trusted (hc : Trusted o layout c)
    (h : documentFor o layout c repo ask org now = (answer, c')) : Trusted o layout c' := by
  rcases documentFor_cases h with ⟨_, _, rfl, _⟩ | ⟨c₁, hc₁, hend⟩
  · exact hc
  have hc₁ : Trusted o layout c₁ := by
    rcases hc₁ with rfl | rfl
    · exact hc
    · exact hc.evictDocument
  rcases hend with ⟨doc, hfetch, _, rfl⟩ | ⟨_, rfl⟩
  · obtain ⟨hfresh, _⟩ := fetchDocument_fresh hfetch
    exact hc₁.storeDocument ⟨hfresh.signed, hfresh.named⟩
  · exact hc₁

theorem documentFor_cached (hdoc : c.cache (cacheKey repo.name org) = some doc)
    (hnow : now < doc.notAfter) :
    documentFor o layout c repo ask org now = (.ok (some doc), c) := by
  simp [documentFor, lookupDocument, hdoc, hnow]

/-- What was handed out is in the cache, and is handed out again. -/
theorem documentFor_again (h : documentFor o layout c repo ask org now = (.ok (some doc), c')) :
    documentFor o layout c' repo ask' org now = (.ok (some doc), c') := by
  rcases documentFor_cases h with ⟨_, hans, rfl, hdoc, hnow⟩ | ⟨c₁, _, hfetched | ⟨hno, _⟩⟩
  · cases hans
    exact documentFor_cached hdoc hnow
  · obtain ⟨_, hfetch, hans, rfl⟩ := hfetched
    cases hans
    exact documentFor_cached (by simp [OrgKeyCache.storeDocument])
      (fetchDocument_fresh hfetch).1.current
  · exact absurd rfl (hno doc)

theorem delegationFor_cases (h : delegationFor o layout c repo now = (answer, c')) :
    (∃ del, answer = .ok (some del) ∧ c' = c ∧ c.delegations repo.name = some del ∧
      now < del.notAfter) ∨
    ∃ c₁, (c₁ = c ∨ c₁ = { c with
        delegations := Function.update c.delegations repo.name none }) ∧
      ((∃ del, fetchDelegation o layout repo now (c₁.mark repo.name) = .ok (some del) ∧
          answer = .ok (some del) ∧ c' = c₁.storeDelegation repo.name del) ∨
        ((∀ del, answer ≠ .ok (some del)) ∧ c' = c₁)) := by
  unfold delegationFor at h
  dsimp only at h
  split at h
  · next del c₁ hlookup =>
    obtain ⟨rfl, rfl⟩ := Prod.mk.inj h
    obtain ⟨rfl, hdel, hnow⟩ := (lookupDelegation_spec hlookup).1 _ rfl
    exact .inl ⟨del, rfl, rfl, hdel, hnow⟩
  · next c₁ hlookup =>
    refine .inr ⟨c₁, (lookupDelegation_spec hlookup).2, ?_⟩
    split at h
    · next del hfetch =>
      obtain ⟨rfl, rfl⟩ := Prod.mk.inj h
      exact .inl ⟨del, hfetch, rfl, rfl⟩
    · next hno =>
      obtain ⟨rfl, rfl⟩ := Prod.mk.inj h
      exact .inr ⟨fun del hdel => hno del hdel, rfl⟩

theorem delegationFor_trusted (hc : Trusted o layout c)
    (h : delegationFor o layout c repo now = (answer, c')) : Trusted o layout c' := by
  rcases delegationFor_cases h with ⟨_, _, rfl, _⟩ | ⟨c₁, hc₁, hend⟩
  · exact hc
  have hc₁ : Trusted o layout c₁ := by
    rcases hc₁ with rfl | rfl
    · exact hc
    · exact hc.evictDelegation
  rcases hend with ⟨del, hfetch, _, rfl⟩ | ⟨_, rfl⟩
  · exact hc₁.storeDelegation (fetchDelegation_signed hfetch).1
  · exact hc₁

/-- The caches that calls lead to from the empty one. -/
inductive Reachable (o : Oracles) (layout : RootTrustLayout) : OrgKeyCache → Prop where
  | empty : Reachable o layout OrgKeyCache.empty
  | document {c c'} : Reachable o layout c →
      documentFor o layout c repo ask org now = (answer, c') → Reachable o layout c'
  | delegation {c c'} : Reachable o layout c →
      delegationFor o layout c repo now = (answer, c') → Reachable o layout c'

theorem Reachable.trusted (h : Reachable o layout c) : Trusted o layout c := by
  induction h with
  | empty => exact .empty
  | document _ h ih => exact documentFor_trusted ih h
  | delegation _ h ih => exact delegationFor_trusted ih h

end
end OrgKeyCache
end Cajeta.Trust
