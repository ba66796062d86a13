import Cajeta.Buildtool.Catalog
import Cajeta.Buildtool.ResolverResult

/-!
# The order of the roots

The constraints of replaced versions stay, so an intermediate pick can leave demands that no
chosen version makes. When every version that is recorded in place of a pick demands at least as
much, this does no harm: what is gathered stays within what the other order's answer meets, so the
two orders of the roots resolve to the same versions.
-/

namespace Cajeta.Buildtool
variable {ω : Type}

/-- `v` satisfies everything gathered for a package, from the repository its pin allows. -/
structure Met (R : Repository ω) (s : MvsState) (v : String) : Prop where
  satisfies : ∀ c ∈ s.constraints, versionSatisfies v c = true
  pin : ∀ p, s.fromRepo = some p → R.name = p

/-- Every version that `A` allows a package meets everything gathered for it. -/
def Held (R : Repository ω) (A : String → String → Prop) (m : Solve) : Prop :=
  ∀ n s v, m.find? n = some s → A n v → Met R s v

/-- Everything gathered so far is met by the versions `sel` selects. -/
def Below (R : Repository ω) (sel : String → Option String) (m : Solve) : Prop :=
  ∀ n s, m.find? n = some s → ∃ v, sel n = some v ∧ Met R s v

theorem Below.held {m : Solve} (hb : Below R sel m) : Held R (fun n v => sel n = some v) m := by
  intro n s v hs hv
  obtain ⟨u, hu, hmet⟩ := hb n s hs
  obtain rfl : u = v := Option.some.inj (hu.symm.trans hv)
  exact hmet

theorem Met.of_grows (h : Met R s' v) (hg : Grows s s') : Met R s v :=
  ⟨fun c hc => h.satisfies c (hg.constraints hc), fun p hp => h.pin p (hg.fromRepo p hp)⟩

theorem Met.add (h : Met R s v) (hd : (requirements r R C deps).Admits v d) (b : Bool) :
    Met R (s.add d b) v where
  satisfies c hc := by
    simp only [MvsState.add] at hc
    split at hc
    · exact h.satisfies c hc
    · obtain hc | hc := List.mem_append.mp hc
      · exact h.satisfies c hc
      · rw [List.mem_singleton.mp hc]; exact hd.1
  pin p hp := by
    simp only [MvsState.add] at hp
    cases hk : s.fromRepo with
    | none => rw [hk] at hp; exact hd.2 p hp
    | some q => rw [hk] at hp; exact h.pin p (hk.trans hp)

theorem Held.known {m : Solve} (h : Held R A m) (hv : A n v) : Met R (known [] m n) v := by
  cases hm : m.find? n with
  | none =>
    rw [Buildtool.known, hm]
    exact ⟨fun _ hc => absurd hc List.not_mem_nil,
      fun _ hp => absurd hp (Option.some_ne_none _).symm⟩
  | some s => rw [known_of_find? hm]; exact h n s v hm hv

theorem addAll_held {m : Solve} (h : addAll [] b m ds = .ok (m', changed)) (hm : Held R A m)
    (hds : ∀ d ∈ ds, d.versioned = true → ∀ v, A d.name v →
      (requirements r R C deps).Admits v d) : Held R A m' := by
  induction ds generalizing m changed with
  | nil => cases h; exact hm
  | cons d ds ih =>
    have hds' := fun e he => hds e (List.mem_cons_of_mem d he)
    obtain ⟨-, h⟩ | ⟨hv, m₁, c₁, c₂, h₁, h₂, -⟩ := addAll_cons_eq_ok h
    · exact ih h hm hds'
    · refine ih h₂ (fun n s v hs hA => ?_) hds'
      obtain ⟨-, rfl, -⟩ := addConstraint_eq_ok h₁
      rw [OrderedMap.find?_set] at hs
      split at hs
      · next hn =>
        cases hs
        subst hn
        exact (hm.known hA).add (hds d List.mem_cons_self hv v hA) b
      · exact hm n s v hs hA

theorem pinConflict_eq_none {s : MvsState} {R : Repository ω}
    (hs : ∀ p, s.fromRepo = some p → R.name = p) (hf : ∀ p, fromRepo = some p → R.name = p) :
    pinConflict s fromRepo = none := by
  unfold pinConflict
  split
  · next a b ha => exact if_pos ((hs a ha).symm.trans (hf b rfl))
  · rfl

/-- A demand that `sel` meets can be added, and `sel` still meets everything. -/
theorem addConstraint_below {m : Solve} (hb : Below R sel m)
    (hd : (requirements r R C ds).Meets sel d)
    (b : Bool) : ∃ m' changed, addConstraint [] m d b = .ok (m', changed) ∧ Below R sel m' := by
  obtain ⟨v, hv, hadm⟩ := hd
  have hknown : Met R (known [] m d.name) v := hb.held.known hv
  have hok : addConstraint [] m d b = .ok (m.set d.name ((known [] m d.name).add d b),
      (m.find? d.name).isNone || (known [] m d.name).changedBy d b) := by
    simp only [addConstraint]
    rw [show (m.find? d.name).getD (.fresh [] d.name) = known [] m d.name from rfl,
      pinConflict_eq_none hknown.pin hadm.2]
  refine ⟨_, _, hok, fun n s hs => ?_⟩
  rw [OrderedMap.find?_set] at hs
  split at hs
  · next hn =>
    cases hs
    subst hn
    exact ⟨v, hv, hknown.add hadm b⟩
  · exact hb n s hs

theorem addAll_below {m : Solve} (hb : Below R sel m)
    (hds : ∀ d ∈ ds, d.versioned = true → (requirements r R C deps).Meets sel d) (b : Bool) :
    ∃ m' changed, addAll [] b m ds = .ok (m', changed) ∧ Below R sel m' := by
  induction ds generalizing m with
  | nil => exact ⟨m, false, rfl, hb⟩
  | cons d ds ih =>
    have hds' := fun e he => hds e (List.mem_cons_of_mem d he)
    unfold addAll
    split
    · next hv =>
      obtain ⟨m₁, c₁, h₁, hb₁⟩ := addConstraint_below hb (hds d List.mem_cons_self hv) b
      obtain ⟨m₂, c₂, h₂, hb₂⟩ := ih hb₁ hds'
      exact ⟨m₂, c₁ || c₂, by rw [h₁]; simp [bind, Except.bind, h₂]; rfl, hb₂⟩
    · exact ih hb hds'

/-! ## Turns that do no harm -/

/-- A dirty package is up for its pick, at some time of the resolution from `w`. -/
def AtPick (r : Resolver ω) (deps : List DependencySpec) (w : ω) (name : String) (s : MvsState)
    (w₁ : ω) : Prop :=
  ∃ c, PassesThrough r deps w c w₁ ∧ c.solve.keys[c.i]? = some name ∧
    c.solve.find? name = some s ∧ s.dirty = true

/-- What a turn needs of a dirty package, with respect to the versions in `V`. If one of them meets
everything gathered, a version can be fetched and its sidecar can be read; and each that does
demands at least what the picked version does. -/
structure Supported (r : Resolver ω) (R : Repository ω) (C : Catalog) (deps : List DependencySpec)
    (V : String → String → Prop) (name : String) (s : MvsState) (w : ω) : Prop where
  answers : (∃ v ∈ C.listed name, V name v ∧ Met R s v) →
    ∃ p w', choose r name s w = .ok p w' ∧ (s.versionChanged p = true →
      ∃ kids, sidecarDeps r.host.toManifestReader name p.version p.manifestJson = .ok kids)
  covered : ∀ p w', choose r name s w = .ok p w' → ∀ v ∈ C.listed name, V name v → Met R s v →
    (requirements r R C deps).Covers name v p.version

/-- Every turn of the resolution is supported. -/
def AllSupported (r : Resolver ω) (R : Repository ω) (C : Catalog) (deps : List DependencySpec)
    (V : String → String → Prop) (w : ω) : Prop :=
  ∀ name s w₁, AtPick r deps w name s w₁ → Supported r R C deps V name s w₁

theorem Below.set {m : Solve} (hb : Below R sel m) (hs : m.find? name = some s) (s₁ : MvsState)
    (hc : s₁.constraints = s.constraints) (hf : s₁.fromRepo = s.fromRepo) :
    Below R sel (m.set name s₁) := by
  intro n t ht
  rw [OrderedMap.find?_set] at ht
  split at ht
  · next hn =>
    cases ht
    subst hn
    obtain ⟨v, hv, hmet⟩ := hb n s hs
    exact ⟨v, hv, fun c hmem => hmet.satisfies c (hc ▸ hmem), fun p hp => hmet.pin p (hf ▸ hp)⟩
  · exact hb n t ht

theorem visit_below {r : Resolver ω} (hr : Single r R C) {m : Solve} (hw : Wired r.overrides m)
    (hsol : (requirements r R C deps).Solves sel) (hV : ∀ n v, sel n = some v → V n v)
    (hb : Below R sel m) (hs : m.find? name = some s)
    (hsup : s.dirty = true → Supported r R C deps V name s w) :
    ∃ m' again w', visit r m name s w = .ok (m', again) w' ∧ Below R sel m' := by
  unfold visit
  by_cases hd : s.dirty = true
  · obtain ⟨v, hv, hmet⟩ := hb name s hs
    have hlisted : v ∈ C.listed name := hsol.1 name v hv
    obtain ⟨p, w', hp, hread⟩ := (hsup hd).answers ⟨v, hlisted, hV name v hv, hmet⟩
    have hcov := (hsup hd).covered p w' hp v hlisted (hV name v hv) hmet
    rw [if_pos hd]
    by_cases hver : s.versionChanged p = true
    · obtain ⟨kids, hkids⟩ := hread hver
      have hmeets : ∀ d ∈ kids, d.versioned = true → (requirements r R C deps).Meets sel d := by
        intro d hdk hdv
        refine hsol.meets_covered hv hcov ?_
        change d ∈ declaredDeps _ _ _ _
        rw [← (choose_single hr hw hs hp).2, declaredDeps, hkids]
        exact List.mem_filter.mpr ⟨hdk, hdv⟩
      obtain ⟨m', added, hadd, hb'⟩ :=
        addAll_below (hb.set hs { s.record p with childDeps := kids } rfl rfl) hmeets false
      refine ⟨m', added || isDirty m' name, w', EStateM.bind_eq_ok.mpr ⟨p, w', hp, ?_⟩, hb'⟩
      rw [if_pos hver]
      refine EStateM.ofResult_eq_ok.mpr ⟨?_, rfl⟩
      simp only [propagate, Except.bind_eq_ok, Except.pure_eq_ok, hr.overrides]
      exact ⟨kids, hkids, (m', added), hadd, rfl⟩
    · refine ⟨m.set name (s.record p), false, w', EStateM.bind_eq_ok.mpr ⟨p, w', hp, ?_⟩,
        hb.set hs _ rfl rfl⟩
      rw [if_neg hver]
      rfl
  · exact ⟨m, false, w, by rw [if_neg hd]; rfl, hb⟩

theorem turn_below {r : Resolver ω} (hr : Single r R C)
    (hsol : (requirements r R C deps).Solves sel) (hV : ∀ n v, sel n = some v → V n v)
    (hsup : AllSupported r R C deps V w) (h : PassesThrough r deps w c w₁)
    (hb : Below R sel c.solve) :
    ∃ c' w', turn r c w₁ = .ok c' w' ∧ ∀ c'' ∈ c', Below R sel c''.solve := by
  cases hk : c.solve.keys[c.i]? with
  | none =>
    simp only [turn, hk]
    refine ⟨_, w₁, rfl, fun c'' hc => ?_⟩
    cases hd : c.anyDirty <;> simp only [hd] at hc <;> cases hc
    exact hb
  | some name =>
    have hs := find?_of_key hk r.overrides
    obtain ⟨m', again, w', hv, hb'⟩ := visit_below hr (passesThrough_single hr h).1.wired hsol hV hb
      hs fun hd => hsup name _ w₁ ⟨c, h, hk, hs, hd⟩
    refine ⟨some ⟨m', c.i + 1, c.anyDirty || again⟩, w', ?_, fun c'' hc => ?_⟩
    · simp only [turn, hk]
      exact EStateM.bind_eq_ok.mpr ⟨(m', again), w', hv, rfl⟩
    · cases hc
      exact hb'

theorem passesThrough_below {r : Resolver ω} (hr : Single r R C)
    (hsol : (requirements r R C deps).Solves sel) (hV : ∀ n v, sel n = some v → V n v)
    (hsup : AllSupported r R C deps V w) (h : PassesThrough r deps w c w₁) :
    Below R sel c.solve := by
  refine h.preserves (P := fun c => Below R sel c.solve) (fun m₀ changed hseed => ?_)
    fun b c' w₂ w₃ hpass ih hturn => ?_
  · obtain ⟨m, ch, hadd, hb⟩ := addAll_below (m := .empty) (fun _ _ hm => (nomatch hm))
      (fun d hd hv => hsol.meets_root ⟨hd, hv⟩) true
    rw [hr.overrides, hadd] at hseed
    cases hseed
    exact hb
  · obtain ⟨c'', w', hok, hbelow⟩ := turn_below hr hsol hV hsup hpass ih
    rw [hok] at hturn
    cases hturn
    exact hbelow c' rfl

/-! ## An answerable problem is resolved -/

/-- Every declaration a resolution can come across. -/
def declarations (reader : ManifestReader) (C : Catalog) (deps : List DependencySpec) :
    List DependencySpec :=
  deps ++ C.flatMap fun rel => declaredDeps reader rel.name rel.version
    (C.sidecar rel.name rel.version)

theorem drawsFrom_declarations {r : Resolver ω} (hr : Single r R C) (deps : List DependencySpec) :
    DrawsFrom r (declarations r.host.toManifestReader C deps) := by
  intro m name s w p w' hw hs hp d hd
  obtain ⟨hpick, hjson⟩ := choose_single hr hw hs hp
  obtain ⟨rel, hrel, hversion⟩ := List.mem_map.mp hpick.listed
  obtain ⟨hmem, hname⟩ := List.mem_filter.mp hrel
  refine List.mem_append_right _ (List.mem_flatMap.mpr ⟨rel, hmem, ?_⟩)
  obtain rfl : rel.name = name := by simpa using hname
  rw [hversion, ← hjson]
  exact hd

theorem audit_eq_ok {r : Resolver ω} {m : Solve} (hw : Wired [] m) (names : List String) (w : ω) :
    audit r m names w = .ok () w := by
  induction names with
  | nil => rfl
  | cons name names ih =>
    have hone : (m.find? name).elim (pure ()) (auditPackage r name) w = .ok () w := by
      cases hm : m.find? name with
      | none => rfl
      | some s =>
        obtain ⟨hc, hp, hg⟩ := hw.plain hm
        simp only [Option.elim_some, auditPackage, overridden, hc, hp, hg, Option.isSome_none,
          Bool.or_false, Bool.false_and, Bool.false_eq_true, if_false]
        rfl
    exact EStateM.bind_eq_ok.mpr ⟨(), w, hone, ih⟩

theorem resolveState_of_loop {r : Resolver ω} (hr : Single r R C)
    (hseed : addAll r.overrides true .empty deps = .ok (m₀, changed))
    (hloop : solveLoop r fuel { solve := m₀ } w = .ok (some m) w') :
    resolveState r fuel deps w = .ok (some m) w' := by
  obtain ⟨c, w₁, hrun, -, rfl⟩ := solveLoop_run hloop
  have hwired := (passesThrough_single hr ⟨m₀, changed, hseed, hrun⟩).1.wired
  rw [hr.overrides] at hwired
  simp only [resolveState, EStateM.bind_eq_ok, EStateM.ofResult_eq_ok, EStateM.pure_eq_ok]
  exact ⟨(), w, ⟨by rw [hr.overrides]; rfl, rfl⟩, (m₀, changed), w, ⟨hseed, rfl⟩, some c.solve, w',
    hloop, (), w', audit_eq_ok hwired _ w', rfl, rfl⟩

theorem resolveState_of_solves {r : Resolver ω} (hr : Single r R C)
    (hsol : (requirements r R C deps).Solves sel) (hV : ∀ n v, sel n = some v → V n v)
    (hsup : AllSupported r R C deps V w) :
    ∃ fuel m w', resolveState r fuel deps w = .ok (some m) w' := by
  obtain ⟨m₀, changed, hadd, -⟩ := addAll_below (m := .empty) (fun _ _ hm => (nomatch hm))
    (fun d hd hv => hsol.meets_root ⟨hd, hv⟩) true
  have hseed : addAll r.overrides true .empty deps = .ok (m₀, changed) := by
    rw [hr.overrides]; exact hadd
  have hnamed : NamedIn (declarations r.host.toManifestReader C deps) m₀ :=
    addAll_namedIn hseed (fun d hd _ => List.mem_append_left _ hd) fun _ hn => (nomatch hn)
  have hgo : ∀ c' w', Relation.ReflTransGen (Turn r) ({ solve := m₀ }, w) (c', w') →
      ∃ x w'', turn r c' w' = .ok x w'' := by
    intro c' w' hrun
    have hp : PassesThrough r deps w c' w' := ⟨m₀, changed, hseed, hrun⟩
    obtain ⟨x, w'', hx, -⟩ :=
      turn_below hr hsol hV hsup hp (passesThrough_below hr hsol hV hsup hp)
    exact ⟨x, w'', hx⟩
  obtain ⟨m, w', hloop⟩ := solveLoop_ends (drawsFrom_declarations hr deps) (inv_seed hseed).wired
    hnamed hgo (Nat.lt_succ_self _)
  exact ⟨_, m, w', resolveState_of_loop hr hseed hloop⟩

/-- Two resolutions below each other's answers have chosen the same versions. -/
theorem chosen_eq {r : Resolver ω} {m₁ m₂ : Solve}
    (h₁ : ∀ n s, m₁.find? n = some s → PickedFrom r R C n s s.version)
    (h₂ : ∀ n s, m₂.find? n = some s → PickedFrom r R C n s s.version)
    (hb₁ : Below R (chosen m₂) m₁) (hb₂ : Below R (chosen m₁) m₂) : chosen m₁ = chosen m₂ := by
  have hsub : ∀ {m₁ m₂ : Solve}, Below R (chosen m₂) m₁ → ∀ n, m₂.find? n = none →
      m₁.find? n = none := by
    intro m₁ m₂ hb n hn
    by_contra hne
    obtain ⟨s, hs⟩ := Option.ne_none_iff_exists'.mp hne
    obtain ⟨v, hv, -⟩ := hb n s hs
    rw [chosen, hn] at hv
    cases hv
  funext n
  cases hs₁ : m₁.find? n with
  | none => rw [chosen, chosen, hs₁, hsub hb₂ n hs₁]
  | some s₁ =>
    obtain ⟨s₂, hs₂⟩ : ∃ s₂, m₂.find? n = some s₂ := by
      by_contra hno
      have := hsub hb₁ n (Option.eq_none_iff_forall_ne_some.mpr fun s hs => hno ⟨s, hs⟩)
      rw [hs₁] at this
      cases this
    obtain ⟨v₂, hv₂, ⟨hsat₂, -⟩⟩ := hb₁ n s₁ hs₁
    obtain ⟨v₁, hv₁, ⟨hsat₁, -⟩⟩ := hb₂ n s₂ hs₂
    simp only [chosen, hs₁, hs₂, Option.map_some, Option.some.injEq] at hv₁ hv₂ ⊢
    subst hv₁ hv₂
    have hfind : ∀ s : MvsState, PickedFrom r R C n s s.version →
        (r.host.sort (C.listed n)).find? (fun v => s.constraints.all (versionSatisfies v)) =
          some s.version := by
      intro s hp
      have hl := hp.lowest
      unfold lowestSatisfyingAll at hl
      cases hf : (r.host.sort (C.listed n)).find? fun v =>
        s.constraints.all (versionSatisfies v) with
      | none => rw [hf] at hl; have := hp.nonempty; rw [hl] at this; cases this
      | some v => rw [hf] at hl; rw [hl]; rfl
    exact find?_eq_of_mutual (hfind s₁ (h₁ n s₁ hs₁)) (hfind s₂ (h₂ n s₂ hs₂))
      (List.all_eq_true.mpr hsat₁) (List.all_eq_true.mpr hsat₂)

theorem requirements_perm {r : Resolver ω} (hperm : deps.Perm deps') :
    requirements r R C deps = requirements r R C deps' := by
  simp only [requirements, hperm.mem_iff]

def pairs (g : ResolvedGraph) : List (String × String) :=
  g.packages.map fun p => (p.name, p.version)

theorem mem_pairs {m : Solve} : (n, v) ∈ pairs (graph deps m) ↔ chosen m n = some v := by
  simp only [pairs, graph, entries, chosen, List.mem_map, List.mem_filterMap,
    Option.map_eq_some_iff]
  constructor
  · rintro ⟨_, ⟨_, ⟨k, -, s, hs, rfl⟩, rfl⟩, heq⟩
    cases heq
    exact ⟨s, hs, rfl⟩
  · rintro ⟨s, hs, rfl⟩
    exact ⟨_, ⟨(n, s), ⟨n, OrderedMap.mem_keys_of_find? hs, s, hs, rfl⟩, rfl⟩, rfl⟩

def Resolves (r : Resolver ω) (deps : List DependencySpec) (w : ω) : Prop :=
  ∃ fuel g w', resolveMvsGraph r fuel deps w = .ok (some g) w'

/-- Both orders resolve or neither does, and they resolve to the same versions. -/
structure OrderIndependent (r : Resolver ω) (deps deps' : List DependencySpec) (w : ω) : Prop where
  resolves : Resolves r deps w ↔ Resolves r deps' w
  pairs : ∀ fuel fuel' g g' w₁ w₂, resolveMvsGraph r fuel deps w = .ok (some g) w₁ →
    resolveMvsGraph r fuel' deps' w = .ok (some g') w₂ → ∀ x, x ∈ pairs g ↔ x ∈ pairs g'

theorem resolveMvsGraph_eq_ok {r : Resolver ω}
    (h : resolveMvsGraph r fuel deps w = .ok (some g) w') :
    ∃ m, resolveState r fuel deps w = .ok (some m) w' ∧ g = graph deps m := by
  simp only [resolveMvsGraph, EStateM.bind_eq_ok, EStateM.pure_eq_ok] at h
  obtain ⟨m, _, hstate, hg, rfl⟩ := h
  obtain ⟨m, rfl, rfl⟩ := Option.map_eq_some_iff.mp hg
  exact ⟨m, hstate, rfl⟩

theorem solves_of_perm {r : Resolver ω} (hr : Single r R C) (hperm : deps.Perm deps')
    (h : resolveState r fuel deps' w = .ok (some m) w') :
    (requirements r R C deps).Solves (chosen m) :=
  requirements_perm hperm ▸ resolveState_solves hr h

/-! ## What the two orders record -/

/-- The version recorded for a package that has been picked. -/
def recordedVersion (m : Solve) (n : String) : Option String :=
  (m.find? n).bind fun s => if s.everPicked then some s.version else none

/-- `v` is recorded for a package, at some time of the resolution from `w`. -/
def Records (r : Resolver ω) (deps : List DependencySpec) (w : ω) (n v : String) : Prop :=
  ∃ c w₁, PassesThrough r deps w c w₁ ∧ recordedVersion c.solve n = some v

def EitherRecords (r : Resolver ω) (deps deps' : List DependencySpec) (w : ω) (n v : String) :
    Prop :=
  Records r deps w n v ∨ Records r deps' w n v

/-- Every turn of both orders is supported, with respect to the versions that one of the two
records. -/
def OrdersSupported (r : Resolver ω) (R : Repository ω) (C : Catalog)
    (deps deps' : List DependencySpec) (w : ω) : Prop :=
  AllSupported r R C deps (EitherRecords r deps deps' w) w ∧
    AllSupported r R C deps' (EitherRecords r deps deps' w) w

theorem recordedVersion_of_find? {m : Solve} (hs : m.find? n = some s) :
    recordedVersion m n = if s.everPicked then some s.version else none := by
  rw [recordedVersion, hs]; rfl

theorem recordedVersion_eq_some {m : Solve} :
    recordedVersion m n = some v ↔
      ∃ s, m.find? n = some s ∧ s.everPicked = true ∧ s.version = v := by
  simp only [recordedVersion, Option.bind_eq_some_iff, Option.ite_none_right_eq_some,
    Option.some.injEq]

/-- All packages of a resolution that went through have been picked. -/
theorem recordedVersion_eq_chosen {r : Resolver ω} (hr : Single r R C)
    (hpass : PassesThrough r deps w c w₁) (hend : turn r c w₁ = .ok none w₂) :
    recordedVersion c.solve = chosen c.solve := by
  obtain ⟨-, hsingle, hinv⟩ := passesThrough_single hr hpass
  funext n
  cases hs : c.solve.find? n with
  | none => rw [recordedVersion, chosen, hs]; rfl
  | some s =>
    have hever := (hsingle.sidecar n s hs).1 (clean_of_end hinv hend hs)
    rw [recordedVersion_of_find? hs, if_pos hever, chosen, hs]
    rfl

theorem records_of_resolveState {r : Resolver ω} (hr : Single r R C)
    (h : resolveState r fuel deps w = .ok (some m) w') (hv : chosen m n = some v) :
    Records r deps w n v := by
  obtain ⟨c, w₁, w₂, hpasses, hend, rfl⟩ := resolveState_eq_ok h
  exact ⟨c, w₁, hpasses, by rw [recordedVersion_eq_chosen hr hpasses hend, hv]⟩

theorem resolves_of_perm {r : Resolver ω} (hr : Single r R C) (hperm : deps.Perm deps')
    (hV : ∀ n v, Records r deps' w n v → V n v) (hsup : AllSupported r R C deps V w)
    (h : Resolves r deps' w) : Resolves r deps w := by
  obtain ⟨fuel, g, w', h⟩ := h
  obtain ⟨m, hm, -⟩ := resolveMvsGraph_eq_ok h
  obtain ⟨fuel, m, w', h⟩ := resolveState_of_solves hr (solves_of_perm hr hperm hm)
    (fun n v hv => hV n v (records_of_resolveState hr hm hv)) hsup
  exact ⟨fuel, graph deps m, w', EStateM.bind_eq_ok.mpr ⟨some m, w', h, rfl⟩⟩

theorem resolveState_below {r : Resolver ω} (hr : Single r R C) (hperm : deps.Perm deps')
    (hV : ∀ n v, Records r deps' w n v → V n v) (hsup : AllSupported r R C deps V w)
    (h : resolveState r fuel deps w = .ok (some m) w₁)
    (h' : resolveState r fuel' deps' w = .ok (some m') w₂) : Below R (chosen m') m := by
  obtain ⟨c, w₁, w₂, hpasses, -, rfl⟩ := resolveState_eq_ok h
  exact passesThrough_below hr (solves_of_perm hr hperm h')
    (fun n v hv => hV n v (records_of_resolveState hr h' hv)) hsup hpasses

theorem orderIndependent_of_supported {r : Resolver ω} (hr : Single r R C) (hperm : deps.Perm deps')
    (h : OrdersSupported r R C deps deps' w) : OrderIndependent r deps deps' w := by
  refine ⟨⟨resolves_of_perm hr hperm.symm (fun _ _ => .inl) h.2,
    resolves_of_perm hr hperm (fun _ _ => .inr) h.1⟩, fun fuel fuel' g g' w₁ w₂ hg hg' x => ?_⟩
  obtain ⟨m, hm, rfl⟩ := resolveMvsGraph_eq_ok hg
  obtain ⟨m', hm', rfl⟩ := resolveMvsGraph_eq_ok hg'
  obtain ⟨n, v⟩ := x
  have hsame : chosen m = chosen m' :=
    chosen_eq (resolveState_picked hr hm).2.2 (resolveState_picked hr hm').2.2
      (resolveState_below hr hperm (fun _ _ => .inr) h.1 hm hm')
      (resolveState_below hr hperm.symm (fun _ _ => .inl) h.2 hm' hm)
  rw [mem_pairs, mem_pairs, hsame]

theorem solveLoop_of_error {r : Resolver ω} (h : solveLoop r k c w = .error e w') :
    solveLoop r fuel c w ≠ .ok (some m) w'' := by
  induction k generalizing fuel c w with
  | zero => cases h
  | succ k ih =>
    cases fuel with
    | zero => intro hf; cases hf
    | succ fuel =>
      simp only [solveLoop, bind, EStateM.bind] at h ⊢
      cases ht : turn r c w with
      | error e w₁ => intro hf; cases hf
      | ok x w₁ =>
        rw [ht] at h
        cases x with
        | none => cases h
        | some c' => exact ih h

end Cajeta.Buildtool
