import Cajeta.Buildtool.Resolver
import Mathlib.Logic.Relation

/-!
# What the resolver records

Adding declarations only ever adds: constraints are kept, packages keep their places, and a record
that is clean afterwards is the record from before. One turn of the loop is read off here once.
-/

namespace Cajeta.Buildtool
variable {ω : Type}

def Recorded (m : Solve) (d : DependencySpec) : Prop :=
  ∃ s, m.find? d.name = some s ∧ d.versionConstraint ∈ s.constraints

/-- `s'` is `s` with more declarations added: the pick stands, and it is dirty if they were new. -/
structure Grows (s s' : MvsState) : Prop where
  constraints : s.constraints ⊆ s'.constraints
  fromRepo : ∀ p, s.fromRepo = some p → s'.fromRepo = some p
  pick : s' = { s with
    constraints := s'.constraints, directRoot := s'.directRoot, fromRepo := s'.fromRepo,
    dirty := s'.dirty }
  clean : s'.dirty = false → s' = s

namespace Grows

theorem refl (s : MvsState) : Grows s s := ⟨List.Subset.refl _, fun _ h => h, rfl, fun _ => rfl⟩

theorem trans (h : Grows s s') (h' : Grows s' s'') : Grows s s'' where
  constraints := List.Subset.trans h.constraints h'.constraints
  fromRepo p hp := h'.fromRepo p (h.fromRepo p hp)
  pick := by rw [h'.pick, h.pick]
  clean hd := by
    obtain rfl := h'.clean hd
    exact h.clean hd

theorem version (h : Grows s s') : s'.version = s.version := by rw [h.pick]

theorem manifestJson (h : Grows s s') : s'.manifestJson = s.manifestJson := by rw [h.pick]

theorem overrideConstraint (h : Grows s s') : s'.overrideConstraint = s.overrideConstraint := by
  rw [h.pick]

theorem overridePath (h : Grows s s') : s'.overridePath = s.overridePath := by rw [h.pick]

theorem overrideGit (h : Grows s s') : s'.overrideGit = s.overrideGit := by rw [h.pick]

end Grows

theorem mem_constraints_add (s : MvsState) (d : DependencySpec) (b : Bool) :
    d.versionConstraint ∈ (s.add d b).constraints := by
  unfold MvsState.add
  dsimp only
  split
  · next h => simpa using h
  · simp

theorem add_of_not_changedBy {s : MvsState} (h : s.changedBy d b = false) : s.add d b = s := by
  have hdirty : (s.dirty || s.changedBy d b) = s.dirty := by rw [h, Bool.or_false]
  simp only [MvsState.changedBy, Bool.or_eq_false_iff, Bool.not_eq_false'] at h
  obtain ⟨⟨hc, hr⟩, hf⟩ := h
  have hpin : (s.fromRepo <|> d.fromRepo) = s.fromRepo := by
    cases hs : s.fromRepo <;> cases hd : d.fromRepo <;> simp_all
  have hroot : (s.directRoot || b) = s.directRoot := by
    cases hs : s.directRoot <;> simp_all
  unfold MvsState.add
  rw [if_pos hc, hpin, hroot, hdirty]

theorem grows_add (s : MvsState) (d : DependencySpec) (b : Bool) : Grows s (s.add d b) where
  constraints := by
    unfold MvsState.add
    dsimp only
    split
    · exact List.Subset.refl _
    · exact List.subset_append_left _ _
  fromRepo p hp := by simp [MvsState.add, hp]
  pick := rfl
  clean h := by
    have hdirty : s.dirty = false ∧ s.changedBy d b = false := by
      simpa [MvsState.add] using h
    exact add_of_not_changedBy hdirty.2

/-! ## Additions to the whole solve -/

def known (overrides : List OverrideSpec) (m : Solve) (name : String) : MvsState :=
  (m.find? name).getD (.fresh overrides name)

theorem known_of_find? {m : Solve} (h : m.find? n = some s) : known o m n = s := by
  simp [known, h]

/-- `m'` is `m` with declarations added. -/
structure Extends (overrides : List OverrideSpec) (m m' : Solve) : Prop where
  keys : m.keys <+: m'.keys
  grows : ∀ n s', m'.find? n = some s' → Grows (known overrides m n) s'

namespace Extends
variable {o : List OverrideSpec} {m m' m'' : Solve}

theorem refl (m : Solve) : Extends o m m :=
  ⟨List.prefix_refl _, fun n s h => by rw [known_of_find? h]; exact .refl s⟩

theorem find? (h : Extends o m m') (hs : m.find? n = some s) :
    ∃ s', m'.find? n = some s' ∧ Grows s s' := by
  obtain ⟨s', hs'⟩ :=
    OrderedMap.find?_of_mem_keys (h.keys.subset (OrderedMap.mem_keys_of_find? hs))
  exact ⟨s', hs', known_of_find? (o := o) hs ▸ h.grows n s' hs'⟩

theorem trans (h : Extends o m m') (h' : Extends o m' m'') : Extends o m m'' where
  keys := h.keys.trans h'.keys
  grows n s'' hs'' := by
    refine Grows.trans ?_ (h'.grows n s'' hs'')
    cases hs' : m'.find? n with
    | some s' => rw [known_of_find? hs']; exact h.grows n s' hs'
    | none =>
      have hs : m.find? n = none := by
        by_contra hne
        obtain ⟨s, hs⟩ := Option.ne_none_iff_exists'.mp hne
        obtain ⟨s', hsome, -⟩ := h.find? hs
        rw [hs'] at hsome
        cases hsome
      simp only [known, hs, hs']
      exact .refl _

theorem recorded (h : Extends o m m') (hd : Recorded m d) : Recorded m' d := by
  obtain ⟨s, hs, hc⟩ := hd
  obtain ⟨s', hs', hg⟩ := h.find? hs
  exact ⟨s', hs', hg.constraints hc⟩

end Extends

theorem addConstraint_eq_ok {m : Solve} (h : addConstraint o m d b = .ok (m', changed)) :
    pinConflict (known o m d.name) d.fromRepo = none ∧
      m' = m.set d.name ((known o m d.name).add d b) ∧
      changed = ((m.find? d.name).isNone || (known o m d.name).changedBy d b) := by
  unfold addConstraint at h
  dsimp only at h
  split at h
  · cases h
  · next hp => cases h; exact ⟨hp, rfl, rfl⟩

theorem addConstraint_extends {m : Solve} (h : addConstraint o m d b = .ok (m', changed)) :
    Extends o m m' := by
  obtain ⟨-, rfl, -⟩ := addConstraint_eq_ok h
  refine ⟨m.keys_prefix_set _ _, fun n s' hs' => ?_⟩
  rw [OrderedMap.find?_set] at hs'
  split at hs'
  · next hn => cases hs'; subst hn; exact grows_add _ d b
  · rw [known_of_find? hs']; exact .refl _

theorem addConstraint_recorded {m : Solve} (h : addConstraint o m d b = .ok (m', changed)) :
    Recorded m' d := by
  obtain ⟨-, rfl, -⟩ := addConstraint_eq_ok h
  exact ⟨_, OrderedMap.find?_set_self m, mem_constraints_add _ d b⟩

theorem addConstraint_unchanged {m : Solve} (h : addConstraint o m d b = .ok (m', false)) :
    ∀ n, m'.find? n = m.find? n := by
  obtain ⟨-, rfl, hch⟩ := addConstraint_eq_ok h
  obtain ⟨hsome, hch⟩ := Bool.or_eq_false_iff.mp hch.symm
  obtain ⟨s, hs⟩ := Option.isSome_iff_exists.mp (by simpa using hsome)
  rw [known_of_find? hs] at hch ⊢
  intro n
  rw [OrderedMap.find?_set, add_of_not_changedBy hch]
  split
  · next hn => rw [hn, hs]
  · rfl

theorem addAll_cons_eq_ok {m : Solve} (h : addAll o b m (d :: ds) = .ok (m', changed)) :
    (d.versioned = false ∧ addAll o b m ds = .ok (m', changed)) ∨
    (d.versioned = true ∧ ∃ m₁ c₁ c₂, addConstraint o m d b = .ok (m₁, c₁) ∧
      addAll o b m₁ ds = .ok (m', c₂) ∧ changed = (c₁ || c₂)) := by
  unfold addAll at h
  split at h
  · next hv =>
    simp only [Except.bind_eq_ok, Except.pure_eq_ok] at h
    obtain ⟨⟨m₁, c₁⟩, h₁, ⟨m₂, c₂⟩, h₂, heq⟩ := h
    cases heq
    exact .inr ⟨hv, m₁, c₁, c₂, h₁, h₂, rfl⟩
  · next hv => exact .inl ⟨by simpa using hv, h⟩

theorem addAll_extends {m : Solve} (h : addAll o b m ds = .ok (m', changed)) :
    Extends o m m' := by
  induction ds generalizing m changed with
  | nil => cases h; exact .refl _
  | cons d ds ih =>
    obtain ⟨-, h⟩ | ⟨-, m₁, c₁, c₂, h₁, h₂, -⟩ := addAll_cons_eq_ok h
    · exact ih h
    · exact (addConstraint_extends h₁).trans (ih h₂)

theorem addAll_recorded {m : Solve} (h : addAll o b m ds = .ok (m', changed)) :
    ∀ d ∈ ds, d.versioned = true → Recorded m' d := by
  induction ds generalizing m changed with
  | nil => simp
  | cons d ds ih =>
    intro e he hv
    obtain ⟨hdv, h⟩ | ⟨-, m₁, c₁, c₂, h₁, h₂, -⟩ := addAll_cons_eq_ok h
    · obtain rfl | he := List.mem_cons.mp he
      · rw [hdv] at hv; cases hv
      · exact ih h e he hv
    · obtain rfl | he := List.mem_cons.mp he
      · exact (addAll_extends h₂).recorded (addConstraint_recorded h₁)
      · exact ih h₂ e he hv

theorem addAll_unchanged {m : Solve} (h : addAll o b m ds = .ok (m', false)) :
    ∀ n, m'.find? n = m.find? n := by
  induction ds generalizing m with
  | nil => cases h; exact fun _ => rfl
  | cons d ds ih =>
    obtain ⟨-, h⟩ | ⟨-, m₁, c₁, c₂, h₁, h₂, hc⟩ := addAll_cons_eq_ok h
    · exact ih h
    · obtain ⟨rfl, rfl⟩ := Bool.or_eq_false_iff.mp hc.symm
      exact fun n => (ih h₂ n).trans (addConstraint_unchanged h₁ n)

theorem addAll_directRoot {m : Solve} (h : addAll o b m ds = .ok (m', changed))
    (hs : m'.find? n = some s) :
    s.directRoot = ((m.find? n).any (·.directRoot) ||
      (b && ds.any fun d => d.versioned && d.name = n)) := by
  induction ds generalizing m changed with
  | nil => cases h; simp [hs]
  | cons d ds ih =>
    obtain ⟨hv, h⟩ | ⟨hv, m₁, c₁, c₂, h₁, h₂, -⟩ := addAll_cons_eq_ok h
    · simpa [hv] using ih h
    · rw [ih h₂]
      obtain ⟨-, rfl, -⟩ := addConstraint_eq_ok h₁
      rw [OrderedMap.find?_set]
      by_cases hn : n = d.name
      · subst hn
        cases hm : m.find? d.name <;> cases b <;> simp [known, hm, hv, MvsState.add, MvsState.fresh]
      · have hn' : ¬d.name = n := fun e => hn e.symm
        simp [hn, hn']

theorem visit_eq_ok {r : Resolver ω} (h : visit r m name s w = .ok (m', again) w') :
    (s.dirty = false ∧ m' = m ∧ again = false ∧ w' = w) ∨
    ∃ p, s.dirty = true ∧ choose r name s w = .ok p w' ∧
      ((s.versionChanged p = false ∧ m' = m.set name (s.record p) ∧ again = false) ∨
        (s.versionChanged p = true ∧ propagate r m name s p = .ok (m', again))) := by
  unfold visit at h
  split at h
  · next hd =>
    rw [EStateM.bind_eq_ok] at h
    obtain ⟨p, w₁, hp, h⟩ := h
    split at h
    · next hv =>
      obtain ⟨hprop, rfl⟩ := EStateM.ofResult_eq_ok.mp h
      exact .inr ⟨p, hd, hp, .inr ⟨hv, hprop⟩⟩
    · next hv =>
      rw [EStateM.pure_eq_ok] at h
      obtain ⟨heq, rfl⟩ := h
      cases heq
      exact .inr ⟨p, hd, hp, .inl ⟨by simpa using hv, rfl, rfl⟩⟩
  · next hd =>
    rw [EStateM.pure_eq_ok] at h
    obtain ⟨heq, rfl⟩ := h
    cases heq
    exact .inl ⟨by simpa using hd, rfl, rfl, rfl⟩

theorem propagate_eq_ok {r : Resolver ω} (h : propagate r m name s p = .ok (m', again)) :
    ∃ kids added,
      sidecarDeps r.host.toManifestReader name p.version p.manifestJson = .ok kids ∧
      addAll r.overrides false (m.set name { s.record p with childDeps := kids }) kids =
        .ok (m', added) ∧
      again = (added || isDirty m' name) := by
  simp only [propagate, Except.bind_eq_ok, Except.pure_eq_ok] at h
  obtain ⟨kids, hk, ⟨m₁, added⟩, ha, heq⟩ := h
  cases heq
  exact ⟨kids, added, hk, ha, rfl⟩

theorem turn_eq_ok {r : Resolver ω} (h : turn r c w = .ok c' w') :
    (∃ name m' again, c.solve.keys[c.i]? = some name ∧
      visit r c.solve name (known r.overrides c.solve name) w = .ok (m', again) w' ∧
      c' = some ⟨m', c.i + 1, c.anyDirty || again⟩) ∨
    (c.solve.keys[c.i]? = none ∧ c.anyDirty = true ∧ c' = some ⟨c.solve, 0, false⟩ ∧ w' = w) ∨
    (c.solve.keys[c.i]? = none ∧ c.anyDirty = false ∧ c' = none ∧ w' = w) := by
  cases hk : c.solve.keys[c.i]? with
  | some name =>
    simp only [turn, hk, EStateM.bind_eq_ok] at h
    obtain ⟨⟨m', again⟩, w₁, hv, h⟩ := h
    obtain ⟨rfl, rfl⟩ := EStateM.pure_eq_ok.mp h
    exact .inl ⟨name, m', again, rfl, hv, rfl⟩
  | none =>
    simp only [turn, hk] at h
    obtain ⟨rfl, rfl⟩ := EStateM.pure_eq_ok.mp h
    cases hd : c.anyDirty
    · exact .inr (.inr ⟨rfl, rfl, by simp, rfl⟩)
    · exact .inr (.inl ⟨rfl, rfl, by simp, rfl⟩)

/-!
## The resolved graph is closed

A package that is left clean satisfies every constraint gathered for it, and what its sidecar
declares has been gathered. The loop ends with every package clean, so the result is closed and
consistent, as long as a pick that keeps the recorded version never brings a sidecar that declares
something new: the loop does not look at that sidecar.
-/

def declaredDeps (reader : ManifestReader) (name version manifestJson : String) :
    List DependencySpec :=
  match sidecarDeps reader name version manifestJson with
  | .ok ds => ds.filter (·.versioned)
  | .error _ => []

def MvsState.declared (reader : ManifestReader) (name : String) (s : MvsState) :
    List DependencySpec :=
  declaredDeps reader name s.version s.manifestJson

def IsRoot (deps : List DependencySpec) (name : String) : Prop :=
  ∃ d ∈ deps, d.versioned = true ∧ d.name = name

/-- The version override that is in force for a package, if one is. -/
def VersionForced (overrides : List OverrideSpec) (deps : List DependencySpec) (name : String)
    (o : OverrideSpec) : Prop :=
  ¬IsRoot deps name ∧ findOverride overrides .version name = some o ∧
    findOverride overrides .path name = none ∧ findOverride overrides .git name = none

def Unforced (overrides : List OverrideSpec) (deps : List DependencySpec) (name : String) : Prop :=
  IsRoot deps name ∨ ∀ o ∈ overrides, o.name ≠ name

/-- A constraint placed by the roots, or by the chosen version of a package. -/
def Placed (reader : ManifestReader) (deps : List DependencySpec) (m : Solve) (d : DependencySpec) :
    Prop :=
  (d ∈ deps ∧ d.versioned = true) ∨
    ∃ name s, m.find? name = some s ∧ d ∈ s.declared reader name

/-- The result of a solve is closed under what is declared, and consistent with it. -/
structure Consistent (r : Resolver ω) (deps : List DependencySpec) (m : Solve)
    (g : ResolvedGraph) : Prop where
  once : ∀ d, Placed r.host.toManifestReader deps m d →
    (g.packages.map (·.name)).count d.name = 1
  satisfied : ∀ p ∈ g.packages, Unforced r.overrides deps p.name →
    ∀ d, Placed r.host.toManifestReader deps m d → d.name = p.name →
      versionSatisfies p.version d.versionConstraint = true
  forced : ∀ p ∈ g.packages, ∀ o, VersionForced r.overrides deps p.name o →
    versionSatisfies p.version (exactIfBare o.versionConstraint) = true

def MvsState.fromRepositories (s : MvsState) : Prop :=
  s.directRoot = true ∨ (s.overridePath = none ∧ s.overrideGit = none)

/-- The overrides of a package are those wired in at first sight. -/
def Wired (overrides : List OverrideSpec) (m : Solve) : Prop :=
  ∀ n s, m.find? n = some s →
    s.overrideConstraint = (MvsState.fresh overrides n).overrideConstraint ∧
    s.overridePath = (MvsState.fresh overrides n).overridePath ∧
    s.overrideGit = (MvsState.fresh overrides n).overrideGit

structure Inv (r : Resolver ω) (deps : List DependencySpec) (m : Solve) : Prop where
  roots : ∀ d ∈ deps, d.versioned = true → Recorded m d
  directRoot : ∀ n s, m.find? n = some s → (s.directRoot = true ↔ IsRoot deps n)
  wired : Wired r.overrides m
  picked : ∀ n s, m.find? n = some s → s.dirty = false → s.fromRepositories →
    ∀ c ∈ effectiveConstraints s, versionSatisfies s.version c = true
  closed : ∀ n s, m.find? n = some s → ∀ d ∈ s.declared r.host.toManifestReader n, Recorded m d

theorem choose_satisfies {r : Resolver ω} (h : choose r name s w = .ok p w')
    (hs : s.fromRepositories) :
    ∀ c ∈ effectiveConstraints s, versionSatisfies p.version c = true := by
  unfold choose at h
  obtain hroot | ⟨hpath, hgit⟩ := hs
  · rw [if_pos hroot, if_pos hroot] at h
    exact pickLowestForAll_satisfies h
  · rw [hpath, hgit, ite_self, ite_self] at h
    exact pickLowestForAll_satisfies h

theorem Grows.declared (h : Grows s s') (reader : ManifestReader) (n : String) :
    s'.declared reader n = s.declared reader n := by
  rw [MvsState.declared, h.version, h.manifestJson, MvsState.declared]

theorem Extends.wired {m m' : Solve} (h : Extends o m m') (hw : Wired o m) : Wired o m' := by
  intro n s' hs'
  have hg := h.grows n s' hs'
  rw [hg.overrideConstraint, hg.overridePath, hg.overrideGit]
  unfold known
  cases hm : m.find? n with
  | none => exact ⟨rfl, rfl, rfl⟩
  | some s => exact hw n s hm

theorem wired_record {m : Solve} (hw : Wired o m) (hs : m.find? name = some s) (p : MvsPick)
    (kids : List DependencySpec) :
    Wired o (m.set name { s.record p with childDeps := kids }) := by
  intro n t ht
  rw [OrderedMap.find?_set] at ht
  split at ht
  · next hn => cases ht; subst hn; exact hw n s hs
  · exact hw n t ht

theorem Extends.closed {m m' : Solve} (h : Extends o m m') {reader : ManifestReader}
    (hs : m'.find? n = some s') (hd : d ∈ s'.declared reader n)
    (hc : ∀ s, m.find? n = some s → ∀ d ∈ s.declared reader n, Recorded m' d) : Recorded m' d := by
  rw [(h.grows n s' hs).declared] at hd
  unfold known at hd
  cases hm : m.find? n with
  | none => rw [hm] at hd; cases hd
  | some s => rw [hm] at hd; exact hc s hm d hd

theorem Extends.clean {m m' : Solve} (h : Extends o m m') (hs : m'.find? n = some s')
    (hd : s'.dirty = false) : m.find? n = some s' := by
  have hk := (h.grows n s' hs).clean hd
  unfold known at hk
  cases hm : m.find? n with
  | none => rw [hm] at hk; subst hk; cases hd
  | some s => rw [hm] at hk; rw [hk]; rfl

theorem inv_seed {r : Resolver ω} (h : addAll r.overrides true .empty deps = .ok (m, changed)) :
    Inv r deps m := by
  have hext := addAll_extends h
  refine ⟨addAll_recorded h, fun n s hs => ?_, hext.wired fun _ _ hm => (nomatch hm),
    fun n s hs hd => ?_, fun n s hs d hd => ?_⟩
  · rw [addAll_directRoot h hs]
    simp [IsRoot]
  · cases hext.clean hs hd
  · exact hext.closed hs hd (fun _ hm => by cases hm)

theorem recorded_set {m : Solve} (hs : m.find? name = some s) (hc : s.constraints ⊆ s₁.constraints)
    (hd : Recorded m d) : Recorded (m.set name s₁) d := by
  obtain ⟨t, ht, hmem⟩ := hd
  by_cases hn : d.name = name
  · rw [hn, hs] at ht
    cases ht
    exact ⟨s₁, by rw [hn, OrderedMap.find?_set_self], hc hmem⟩
  · exact ⟨t, by rw [OrderedMap.find?_set_of_ne m hn, ht], hmem⟩

/-- A pick is recorded and declarations are added: the record is closed again once what the
sidecar of the pick declares is among them. -/
theorem inv_record {r : Resolver ω} {m : Solve} (hinv : Inv r deps m) (hs : m.find? name = some s)
    (hp : choose r name s w = .ok p w') (kids : List DependencySpec)
    (hext : Extends r.overrides (m.set name { s.record p with childDeps := kids }) m')
    (hroot : ∀ n s', m'.find? n = some s' → s'.directRoot =
      ((m.set name { s.record p with childDeps := kids }).find? n).any (·.directRoot))
    (hdecl : ∀ d ∈ declaredDeps r.host.toManifestReader name p.version p.manifestJson,
      Recorded m' d) : Inv r deps m' := by
  have hkeep : ∀ d, Recorded m d → Recorded m' d := fun d hd =>
    hext.recorded (recorded_set hs (List.Subset.refl s.constraints) hd)
  refine ⟨fun d hd hv => hkeep d (hinv.roots d hd hv), fun n s' hs' => ?_,
    hext.wired (wired_record hinv.wired hs p kids), fun n s' hs' hd => ?_,
    fun n s' hs' d hd => ?_⟩
  · rw [hroot n s' hs', OrderedMap.find?_set]
    split
    · next hn => subst hn; exact hinv.directRoot n s hs
    · next hn =>
      cases hm : m.find? n with
      | some t => exact hinv.directRoot n t hm
      | none =>
        refine ⟨fun hf => (nomatch hf), fun ⟨d, hd, hv, hdn⟩ => ?_⟩
        obtain ⟨t, ht, -⟩ := hinv.roots d hd hv
        rw [hdn, hm] at ht
        cases ht
  · have ht := hext.clean hs' hd
    rw [OrderedMap.find?_set] at ht
    split at ht
    · cases ht; exact choose_satisfies hp
    · exact hinv.picked n s' ht hd
  · refine hext.closed hs' hd fun t ht e he => ?_
    rw [OrderedMap.find?_set] at ht
    split at ht
    · next hn => cases ht; subst hn; exact hdecl e he
    · exact hkeep e (hinv.closed n t ht e he)

/-- A pick that keeps the recorded version brings a sidecar whose declarations are already
gathered. -/
def RepickAgrees (r : Resolver ω) (m : Solve) (name : String) (s : MvsState) (w : ω) : Prop :=
  ∀ p w', s.dirty = true → choose r name s w = .ok p w' → s.versionChanged p = false →
    ∀ d ∈ declaredDeps r.host.toManifestReader name p.version p.manifestJson, Recorded m d

theorem inv_visit {r : Resolver ω} {m : Solve} (hinv : Inv r deps m) (hs : m.find? name = some s)
    (hre : RepickAgrees r m name s w) (h : visit r m name s w = .ok (m', again) w') :
    Inv r deps m' := by
  obtain ⟨-, rfl, -, -⟩ | ⟨p, hd, hp, ⟨hv, rfl, -⟩ | ⟨-, hprop⟩⟩ := visit_eq_ok h
  · exact hinv
  · refine inv_record hinv hs hp s.childDeps (.refl _) (fun n s' hs' => ?_)
      fun d hd' => recorded_set hs (List.Subset.refl s.constraints) (hre p w' hd hp hv d hd')
    change _ = ((m.set name (s.record p)).find? n).any _
    rw [hs']
    rfl
  · obtain ⟨kids, added, hkids, hadd, -⟩ := propagate_eq_ok hprop
    refine inv_record hinv hs hp kids (addAll_extends hadd) (fun n s' hs' => ?_) fun d hd' => ?_
    · simpa using addAll_directRoot hadd hs'
    · simp only [declaredDeps, hkids, List.mem_filter] at hd'
      exact addAll_recorded hadd d hd'.1 hd'.2

theorem isDirty_of_find? {m : Solve} (h : m.find? n = some s) : isDirty m n = s.dirty := by
  simp [isDirty, h]

theorem visit_clean {r : Resolver ω} {m : Solve} (hs : m.find? name = some s)
    (h : visit r m name s w = .ok (m', false) w') :
    isDirty m' name = false ∧ ∀ n, isDirty m n = false → isDirty m' n = false := by
  have hset : ∀ s₁ : MvsState, s₁.dirty = false → ∀ n, isDirty m n = false →
      isDirty (m.set name s₁) n = false := by
    intro s₁ hd n hn
    rw [isDirty, OrderedMap.find?_set]
    split
    · exact hd
    · exact hn
  obtain ⟨hd, rfl, -, -⟩ | ⟨p, -, -, ⟨-, rfl, -⟩ | ⟨-, hprop⟩⟩ := visit_eq_ok h
  · exact ⟨by rw [isDirty_of_find? hs, hd], fun _ hn => hn⟩
  · exact ⟨isDirty_of_find? (OrderedMap.find?_set_self m), hset (s.record p) rfl⟩
  · obtain ⟨kids, added, -, hadd, hagain⟩ := propagate_eq_ok hprop
    obtain ⟨rfl, hclean⟩ := Bool.or_eq_false_iff.mp hagain.symm
    refine ⟨hclean, fun n hn => ?_⟩
    rw [isDirty, addAll_unchanged hadd n]
    exact hset { s.record p with childDeps := kids } rfl n hn

theorem visit_keys {r : Resolver ω} {m : Solve} (h : visit r m name s w = .ok (m', again) w') :
    m.keys <+: m'.keys := by
  obtain ⟨-, rfl, -, -⟩ | ⟨p, -, -, ⟨-, rfl, -⟩ | ⟨-, hprop⟩⟩ := visit_eq_ok h
  · exact List.prefix_refl _
  · exact m.keys_prefix_set _ _
  · obtain ⟨kids, added, -, hadd, -⟩ := propagate_eq_ok hprop
    exact (m.keys_prefix_set _ _).trans (addAll_extends hadd).keys

/-- As long as a pass has left nothing to pick, the packages it has been to are clean. -/
def PassInv (c : Config) : Prop :=
  c.anyDirty = false → ∀ j < c.i, ∀ n, c.solve.keys[j]? = some n → isDirty c.solve n = false

/-- One turn of the loop that goes on. -/
def Turn (r : Resolver ω) (x y : Config × ω) : Prop := turn r x.1 x.2 = .ok (some y.1) y.2

theorem find?_of_key {m : Solve} {i : Nat} (h : m.keys[i]? = some name) (o : List OverrideSpec) :
    m.find? name = some (known o m name) := by
  obtain ⟨s, hs⟩ := OrderedMap.find?_of_mem_keys (List.mem_of_getElem? h)
  rw [hs, known_of_find? hs]

theorem passInv_turn {r : Resolver ω} (hpass : PassInv c) (h : turn r c w = .ok (some c') w') :
    PassInv c' := by
  obtain ⟨name, m', again, hk, hv, heq⟩ | ⟨-, -, heq, -⟩ | ⟨-, -, heq, -⟩ := turn_eq_ok h
  · cases heq
    intro hclean j hj n hn
    obtain ⟨hc, rfl⟩ := Bool.or_eq_false_iff.mp hclean
    obtain ⟨hself, hothers⟩ := visit_clean (find?_of_key hk r.overrides) hv
    have hkeys : c.solve.keys[j]? = some n := by
      have hlt : j < c.solve.keys.length :=
        Nat.lt_of_lt_of_le hj (List.getElem?_eq_some_iff.mp hk).1
      obtain ⟨t, ht⟩ := visit_keys hv
      rw [← hn, ← ht, List.getElem?_append_left hlt]
    rcases Nat.lt_succ_iff_lt_or_eq.mp hj with hj | rfl
    · exact hothers n (hpass hc j hj n hkeys)
    · rw [hk] at hkeys
      cases hkeys
      exact hself
  · cases heq
    exact fun _ j hj => absurd hj (Nat.not_lt_zero j)
  · cases heq

theorem solveLoop_run {r : Resolver ω} (h : solveLoop r fuel c w = .ok (some m) w') :
    ∃ c' w₁, Relation.ReflTransGen (Turn r) (c, w) (c', w₁) ∧ turn r c' w₁ = .ok none w' ∧
      m = c'.solve := by
  induction fuel generalizing c w with
  | zero => cases h
  | succ fuel ih =>
    simp only [solveLoop, EStateM.bind_eq_ok] at h
    obtain ⟨c', w₁, ht, h⟩ := h
    cases c' with
    | none =>
      obtain ⟨heq, rfl⟩ := EStateM.pure_eq_ok.mp h
      exact ⟨c, w, .refl, ht, (Option.some.inj heq).symm⟩
    | some c' =>
      obtain ⟨c'', w₂, hrun, hend, hm⟩ := ih h
      exact ⟨c'', w₂, .head (b := (c', w₁)) ht hrun, hend, hm⟩

end Cajeta.Buildtool
