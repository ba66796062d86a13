import Cajeta.Buildtool.ResolverResult
import Cajeta.Lib.SortedMap

/-!
# A single repository

A repository that carries a finite list of releases, and what the loop does when it is the only
one: each clean package has the lowest version that satisfies what was gathered for it, and what
is recorded as its sidecar is that version's. The demands the roots and the releases make are a
selection problem, which a resolution that succeeds solves.
-/

namespace Cajeta.Buildtool
variable {ω : Type}

structure Release where
  name : String
  version : String
  sidecar : Option String := none
  version_ne : version.isEmpty = false := by decide

abbrev Catalog := List Release

namespace Catalog

def listed (C : Catalog) (name : String) : List String :=
  (C.filter fun rel => rel.name = name).map (·.version)

/-- The sidecar of a release; empty when it has none. -/
def sidecar (C : Catalog) (name version : String) : String :=
  ((C.find? fun rel => rel.name = name && rel.version = version).bind (·.sidecar)).getD ""

theorem nonempty_of_mem_listed {C : Catalog} (h : v ∈ C.listed name) : v.isEmpty = false := by
  obtain ⟨rel, -, rfl⟩ := List.mem_map.mp h
  exact rel.version_ne

end Catalog

/-- The repository answers from a finite list of releases, whenever it answers. -/
structure Repository.Carries (R : Repository ω) (C : Catalog) : Prop where
  listed : ∀ n w vs w', R.listVersions n w = .ok vs w' → vs = C.listed n
  sidecar : ∀ n v w json w', R.fetchManifestJson n v w = .ok json w' →
    json.getD "" = C.sidecar n v

/-- The resolution runs without overrides, over one repository. -/
structure Single (r : Resolver ω) (R : Repository ω) (C : Catalog) : Prop where
  repos : r.repos = [R]
  overrides : r.overrides = []
  carries : R.Carries C

/-- What a package without overrides is picked as. -/
structure PickedFrom (r : Resolver ω) (R : Repository ω) (C : Catalog) (name : String)
    (s : MvsState) (version : String) : Prop where
  eligible : eligible s.fromRepo R = true
  lowest : version = lowestSatisfyingAll r.host (C.listed name) s.constraints
  nonempty : version.isEmpty = false

theorem PickedFrom.listed {r : Resolver ω} (h : PickedFrom r R C name s v) : v ∈ C.listed name :=
  (lowestSatisfyingAll_spec h.lowest.symm h.nonempty).1

theorem Wired.plain {m : Solve} (hw : Wired [] m) (hs : m.find? n = some s) :
    s.overrideConstraint = none ∧ s.overridePath = none ∧ s.overrideGit = none :=
  hw n s hs

theorem fetchPick_manifestJson {host : Host ω} (h : fetchPick host R root name v w = .ok p w')
    (hC : R.Carries C) : p.manifestJson = C.sidecar name v := by
  simp only [fetchPick, EStateM.bind_eq_ok, EStateM.pure_eq_ok] at h
  obtain ⟨_, _, -, _, _, -, json, _, hjson, _, _, -, _, _, -, rfl, -⟩ := h
  exact hC.sidecar name v _ json _ hjson

theorem choose_single {r : Resolver ω} (hr : Single r R C) {m : Solve} (hw : Wired r.overrides m)
    (hs : m.find? name = some s) (h : choose r name s w = .ok p w') :
    PickedFrom r R C name s p.version ∧ p.manifestJson = C.sidecar name p.version := by
  rw [hr.overrides] at hw
  obtain ⟨hc, hpath, hgit⟩ := hw.plain hs
  simp only [choose, hpath, hgit, ite_self, effectiveConstraints, hc, hr.repos, pickLowestForAll,
    EStateM.bind_eq_ok, EStateM.ofResult_eq_ok, Except.orThrow_eq_ok] at h
  obtain ⟨pick, w₁, hfirst, rfl, -⟩ := h
  rw [List.filter_cons] at hfirst
  split at hfirst
  · next helig =>
    simp only [List.filter_nil, firstPick, EStateM.bind_eq_ok] at hfirst
    obtain ⟨versions, w₂, hlist, hfirst⟩ := hfirst
    obtain rfl := hr.carries.listed _ _ _ _ hlist
    split at hfirst
    · cases hfirst
    · next hv =>
      simp only [map_eq_pure_bind, EStateM.bind_eq_ok, EStateM.pure_eq_ok] at hfirst
      obtain ⟨p', w₃, hp, hsome, -⟩ := hfirst
      cases hsome
      have hversion := fetchPick_version hp
      exact ⟨⟨helig, hversion, by simpa [hversion] using hv⟩,
        by rw [fetchPick_manifestJson hp hr.carries, hversion]⟩
  · cases hfirst

/-- The demands the roots and the releases make on each other. -/
def requirements (r : Resolver ω) (R : Repository ω) (C : Catalog) (deps : List DependencySpec) :
    Requirements String String DependencySpec where
  offered n := {v | v ∈ C.listed n}
  roots := {d | d ∈ deps ∧ d.versioned = true}
  declares n v := {d | d ∈ declaredDeps r.host.toManifestReader n v (C.sidecar n v)}
  target d := d.name
  Admits v d := versionSatisfies v d.versionConstraint = true ∧ ∀ p, d.fromRepo = some p →
    R.name = p

def chosen (m : Solve) (n : String) : Option String := (m.find? n).map (·.version)

/-- The pin of a declaration is the pin of its package. -/
def Pinned (m : Solve) (d : DependencySpec) : Prop :=
  ∀ p, d.fromRepo = some p → ∃ s, m.find? d.name = some s ∧ s.fromRepo = some p

theorem Extends.pinned {m m' : Solve} (h : Extends o m m') (hd : Pinned m d) : Pinned m' d := by
  intro p hp
  obtain ⟨s, hs, hf⟩ := hd p hp
  obtain ⟨s', hs', hg⟩ := h.find? hs
  exact ⟨s', hs', hg.fromRepo p hf⟩

theorem addConstraint_pinned {m : Solve} (h : addConstraint o m d b = .ok (m', changed)) :
    Pinned m' d := by
  obtain ⟨hpin, rfl, -⟩ := addConstraint_eq_ok h
  intro p hp
  refine ⟨_, OrderedMap.find?_set_self m, ?_⟩
  cases hs : (known o m d.name).fromRepo with
  | none => simp [MvsState.add, hs, hp]
  | some q =>
    simp only [pinConflict, hs, hp] at hpin
    split at hpin
    · next hq => simp [MvsState.add, hs, hq]
    · cases hpin

theorem addAll_pinned {m : Solve} (h : addAll o b m ds = .ok (m', changed)) :
    ∀ d ∈ ds, d.versioned = true → Pinned m' d := by
  induction ds generalizing m changed with
  | nil => simp
  | cons d ds ih =>
    intro e he hv
    obtain ⟨hdv, h⟩ | ⟨-, m₁, c₁, c₂, h₁, h₂, -⟩ := addAll_cons_eq_ok h
    · obtain rfl | he := List.mem_cons.mp he
      · rw [hdv] at hv; cases hv
      · exact ih h e he hv
    · obtain rfl | he := List.mem_cons.mp he
      · exact (addAll_extends h₂).pinned (addConstraint_pinned h₁)
      · exact ih h₂ e he hv

/-! ## The invariant of a single repository -/

structure SingleInv (r : Resolver ω) (R : Repository ω) (C : Catalog) (deps : List DependencySpec)
    (m : Solve) : Prop where
  lowest : ∀ n s, m.find? n = some s → s.dirty = false → PickedFrom r R C n s s.version
  sidecar : ∀ n s, m.find? n = some s → (s.dirty = false → s.everPicked = true) ∧
    (s.everPicked = true → s.manifestJson = C.sidecar n s.version ∧ s.version ∈ C.listed n)
  roots : ∀ d ∈ deps, d.versioned = true → Pinned m d
  closed : ∀ n s, m.find? n = some s → ∀ d ∈ s.declared r.host.toManifestReader n, Pinned m d

theorem Extends.sidecar {m m' : Solve} (h : Extends o m m') (hs : m'.find? n = some s')
    (hw : ∀ s, m.find? n = some s → (s.dirty = false → s.everPicked = true) ∧
      (s.everPicked = true → s.manifestJson = C.sidecar n s.version ∧ s.version ∈ C.listed n)) :
    (s'.dirty = false → s'.everPicked = true) ∧ (s'.everPicked = true →
      s'.manifestJson = Catalog.sidecar C n s'.version ∧ s'.version ∈ C.listed n) := by
  have hg := h.grows n s' hs
  cases hm : m.find? n with
  | none =>
    have hever : s'.everPicked = false := by rw [hg.pick, known, hm]; rfl
    refine ⟨fun hd => ?_, fun he => by rw [hever] at he; cases he⟩
    have := h.clean hs hd
    rw [hm] at this
    cases this
  | some s =>
    rw [known_of_find? hm] at hg
    obtain ⟨hclean, hpicked⟩ := hw s hm
    refine ⟨fun hd => ?_, fun he => ?_⟩
    · obtain rfl := hg.clean hd
      exact hclean hd
    · rw [hg.version, hg.manifestJson]
      exact hpicked (by rw [hg.pick] at he; exact he)

theorem singleInv_seed {r : Resolver ω} (h : addAll r.overrides true .empty deps =
    .ok (m, changed)) :
    SingleInv r R C deps m := by
  have hext := addAll_extends h
  refine ⟨fun n s hs hd => ?_, fun n s hs => hext.sidecar hs fun _ hm => (nomatch hm),
    addAll_pinned h, fun n s hs d hd => ?_⟩
  · cases hext.clean hs hd
  · rw [(hext.grows n s hs).declared] at hd
    cases hd

theorem pinned_set {m : Solve} (hs : m.find? name = some s) (hc : s₁.fromRepo = s.fromRepo)
    (hd : Pinned m d) : Pinned (m.set name s₁) d := by
  intro p hp
  obtain ⟨t, ht, hf⟩ := hd p hp
  by_cases hn : d.name = name
  · rw [hn, hs] at ht
    cases ht
    exact ⟨s₁, by rw [hn, OrderedMap.find?_set_self], hc ▸ hf⟩
  · exact ⟨t, by rw [OrderedMap.find?_set_of_ne m hn, ht], hf⟩

theorem singleInv_record {r : Resolver ω} (hr : Single r R C) {m : Solve}
    (hw : Wired r.overrides m) (hinv : SingleInv r R C deps m) (hs : m.find? name = some s)
    (hp : choose r name s w = .ok p w') (kids : List DependencySpec)
    (hext : Extends r.overrides (m.set name { s.record p with childDeps := kids }) m')
    (hdecl : ∀ d ∈ declaredDeps r.host.toManifestReader name p.version p.manifestJson,
      Pinned m' d) : SingleInv r R C deps m' := by
  obtain ⟨hpick, hjson⟩ := choose_single hr hw hs hp
  have hkeep : ∀ d, Pinned m d → Pinned m' d := fun d hd => hext.pinned (pinned_set hs rfl hd)
  refine ⟨fun n s' hs' hd => ?_, fun n s' hs' => hext.sidecar hs' fun t ht => ?_,
    fun d hd hv => hkeep d (hinv.roots d hd hv), fun n s' hs' d hd => ?_⟩
  · have ht := hext.clean hs' hd
    rw [OrderedMap.find?_set] at ht
    split at ht
    · next hn => cases ht; subst hn; exact ⟨hpick.eligible, hpick.lowest, hpick.nonempty⟩
    · exact hinv.lowest n s' ht hd
  · rw [OrderedMap.find?_set] at ht
    split at ht
    · next hn => cases ht; subst hn; exact ⟨fun _ => rfl, fun _ => ⟨hjson, hpick.listed⟩⟩
    · exact hinv.sidecar n t ht
  · rw [(hext.grows n s' hs').declared, known, OrderedMap.find?_set] at hd
    split at hd
    · next hn => subst hn; exact hdecl d hd
    · cases hm : m.find? n with
      | none => rw [hm] at hd; cases hd
      | some t => rw [hm] at hd; exact hkeep d (hinv.closed n t hm d hd)

theorem SingleInv.repick {r : Resolver ω} (hr : Single r R C) {m : Solve}
    (hw : Wired r.overrides m) (hinv : SingleInv r R C deps m) (hs : m.find? name = some s)
    (hp : choose r name s w = .ok p w') (hv : s.versionChanged p = false) :
    declaredDeps r.host.toManifestReader name p.version p.manifestJson =
      s.declared r.host.toManifestReader name := by
  simp only [MvsState.versionChanged, Bool.or_eq_false_iff, Bool.not_eq_false', bne_eq_false_iff_eq]
    at hv
  obtain ⟨hever, hversion⟩ := hv
  rw [(choose_single hr hw hs hp).2, MvsState.declared, ((hinv.sidecar name s hs).2 hever).1,
    hversion]

theorem singleInv_visit {r : Resolver ω} (hr : Single r R C) {m : Solve}
    (hw : Wired r.overrides m) (hinv : SingleInv r R C deps m) (hs : m.find? name = some s)
    (h : visit r m name s w = .ok (m', again) w') : SingleInv r R C deps m' := by
  obtain ⟨-, rfl, -, -⟩ | ⟨p, -, hp, ⟨hv, rfl, -⟩ | ⟨-, hprop⟩⟩ := visit_eq_ok h
  · exact hinv
  · refine singleInv_record hr hw hinv hs hp s.childDeps (.refl _) fun d hd => ?_
    rw [hinv.repick hr hw hs hp hv] at hd
    exact pinned_set hs rfl (hinv.closed name s hs d hd)
  · obtain ⟨kids, added, hkids, hadd, -⟩ := propagate_eq_ok hprop
    refine singleInv_record hr hw hinv hs hp kids (addAll_extends hadd) fun d hd => ?_
    simp only [declaredDeps, hkids, List.mem_filter] at hd
    exact addAll_pinned hadd d hd.1 hd.2

theorem repickAgrees_single {r : Resolver ω} (hr : Single r R C) {m : Solve} (hinv : Inv r deps m)
    (hsingle : SingleInv r R C deps m) (hs : m.find? name = some s) :
    RepickAgrees r m name s w := by
  intro p w' _ hp hv d hd
  rw [hsingle.repick hr hinv.wired hs hp hv] at hd
  exact hinv.closed name s hs d hd

theorem single_turn {r : Resolver ω} (hr : Single r R C) (hinv : Inv r deps c.solve)
    (hsingle : SingleInv r R C deps c.solve) (h : turn r c w = .ok (some c') w') :
    Inv r deps c'.solve ∧ SingleInv r R C deps c'.solve := by
  refine ⟨inv_turn hinv (fun name s _ hs => repickAgrees_single hr hinv hsingle hs) h, ?_⟩
  obtain ⟨name, m', again, hk, hv, heq⟩ | ⟨-, -, heq, -⟩ | ⟨-, -, heq, -⟩ := turn_eq_ok h
  · cases heq
    exact singleInv_visit hr hinv.wired hsingle (find?_of_key hk r.overrides) hv
  · cases heq
    exact hsingle
  · cases heq

theorem passesThrough_single {r : Resolver ω} (hr : Single r R C)
    (h : PassesThrough r deps w c w₁) :
    Inv r deps c.solve ∧ SingleInv r R C deps c.solve ∧ PassInv c := by
  refine h.preserves (P := fun c => Inv r deps c.solve ∧ SingleInv r R C deps c.solve ∧ PassInv c)
    (fun _ _ hseed => ?_) fun _ _ _ _ _ ih hturn => ?_
  · exact ⟨inv_seed hseed, singleInv_seed hseed, fun _ j hj => absurd hj (Nat.not_lt_zero j)⟩
  · obtain ⟨hinv, hsingle⟩ := single_turn hr ih.1 ih.2.1 hturn
    exact ⟨hinv, hsingle, passInv_turn ih.2.2 hturn⟩

theorem repicksAgree_single {r : Resolver ω} (hr : Single r R C) (deps : List DependencySpec)
    (w : ω) : RepicksAgree r deps w := by
  intro c w₁ hpasses name s _ hs
  obtain ⟨hinv, hsingle, -⟩ := passesThrough_single hr hpasses
  exact repickAgrees_single hr hinv hsingle hs

theorem resolveState_picked {r : Resolver ω} (hr : Single r R C)
    (h : resolveState r fuel deps w = .ok (some m) w') :
    Inv r deps m ∧ SingleInv r R C deps m ∧
      ∀ n s, m.find? n = some s → PickedFrom r R C n s s.version := by
  obtain ⟨c, w₁, w₂, hpasses, hend, rfl⟩ := resolveState_eq_ok h
  obtain ⟨hinv, hsingle, hpass⟩ := passesThrough_single hr hpasses
  exact ⟨hinv, hsingle, fun n s hs => hsingle.lowest n s hs (clean_of_end hpass hend hs)⟩

/-- What a successful resolution has chosen answers the demands it gives rise to. -/
theorem resolveState_solves {r : Resolver ω} (hr : Single r R C)
    (h : resolveState r fuel deps w = .ok (some m) w') :
    (requirements r R C deps).Solves (chosen m) := by
  obtain ⟨c, w₁, w₂, hpasses, hend, rfl⟩ := resolveState_eq_ok h
  obtain ⟨hinv, hsingle, hpass⟩ := passesThrough_single hr hpasses
  have hclean := fun n s hs => clean_of_end (n := n) (s := s) hpass hend hs
  have hmeets : ∀ d, Recorded c.solve d → Pinned c.solve d →
      (requirements r R C deps).Meets (chosen c.solve) d := by
    intro d ⟨s, hs, hc⟩ hpin
    have hpick := hsingle.lowest _ s hs (hclean _ s hs)
    refine ⟨s.version, by simp [chosen, requirements, hs],
      (lowestSatisfyingAll_spec hpick.lowest.symm hpick.nonempty).2 _ hc, fun p hp => ?_⟩
    obtain ⟨t, ht, hf⟩ := hpin p hp
    rw [hs] at ht
    cases ht
    simpa [eligible, hf] using hpick.eligible
  refine ⟨fun n v hv => ?_, fun d hd => ?_⟩
  · obtain ⟨s, hs, rfl⟩ := Option.map_eq_some_iff.mp hv
    exact (hsingle.lowest n s hs (hclean n s hs)).listed
  · obtain ⟨hroot, hv⟩ | ⟨n, v, hsel, hdecl⟩ := hd
    · exact hmeets d (hinv.roots d hroot hv) (hsingle.roots d hroot hv)
    · obtain ⟨s, hs, rfl⟩ := Option.map_eq_some_iff.mp hsel
      obtain ⟨hever, hside⟩ := hsingle.sidecar n s hs
      have hd : d ∈ s.declared r.host.toManifestReader n := by
        rw [MvsState.declared, (hside (hever (hclean n s hs))).1]
        exact hdecl
      exact hmeets d (hinv.closed n s hs d hd) (hsingle.closed n s hs d hd)

end Cajeta.Buildtool
