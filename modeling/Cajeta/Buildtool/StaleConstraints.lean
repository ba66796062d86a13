import Cajeta.Buildtool.ResolverOrder

/-!
# What replaced versions leave behind

In a pair of supported resolutions whatever the roots and the recorded versions allow satisfies
everything gathered, so a constraint that only a replaced version declared rules nothing out. In a
pair that is not supported some turn does not pick what one of the two records, and if one of them
goes through then a recorded version is replaced, or the order of the roots shows in the result.
-/

namespace Cajeta.Buildtool
variable {ω : Type}

/-- What the roots and the recorded versions allow satisfies everything gathered, at every time of
the resolution. -/
def StaleHarmless (r : Resolver ω) (R : Repository ω) (C : Catalog) (deps : List DependencySpec)
    (w : ω) : Prop :=
  ∀ c w₁, PassesThrough r deps w c w₁ →
    Held R ((requirements r R C deps).Allows (recordedVersion c.solve)) c.solve

/-- Some turn does not pick a version in `V` for its package. -/
def Departs (r : Resolver ω) (V : String → String → Prop) (deps : List DependencySpec) (w : ω) :
    Prop :=
  ∃ name s w₁ v, AtPick r deps w name s w₁ ∧ V name v ∧
    ∀ p w', choose r name s w₁ = .ok p w' → p.version ≠ v

/-- Some turn picks another version than the one recorded for its package. -/
def Replaces (r : Resolver ω) (deps : List DependencySpec) (w : ω) : Prop :=
  ∃ name s w₁ p w', AtPick r deps w name s w₁ ∧ s.everPicked = true ∧
    choose r name s w₁ = .ok p w' ∧ p.version ≠ s.version

/-! ## What a turn records -/

theorem Extends.recordedVersion {m m' : Solve} (h : Extends [] m m') :
    recordedVersion m' = recordedVersion m := by
  funext n
  cases hs' : m'.find? n with
  | none =>
    cases hs : m.find? n with
    | none => rw [Buildtool.recordedVersion, Buildtool.recordedVersion, hs, hs']
    | some s =>
      obtain ⟨s', hsome, -⟩ := h.find? hs
      rw [hs'] at hsome
      cases hsome
  | some s' =>
    have hpick := (h.grows n s' hs').pick
    rw [recordedVersion_of_find? hs', hpick]
    cases hs : m.find? n with
    | none => rw [known, hs, Buildtool.recordedVersion, hs]; rfl
    | some s => rw [known_of_find? hs, recordedVersion_of_find? hs]

theorem recordedVersion_set {m : Solve} (s : MvsState) (hs : s.everPicked = true) :
    recordedVersion (m.set n s) = Function.update (recordedVersion m) n (some s.version) := by
  funext k
  rw [Function.update_apply, recordedVersion, OrderedMap.find?_set]
  split
  · next hk => subst hk; simp [hs]
  · rfl

/-- What was recorded stays, or the pick is recorded in its place; then its sidecar was read, if not
now then when the same version was recorded before. -/
theorem visit_recordedVersion {r : Resolver ω} (hr : Single r R C) {m : Solve}
    (hs : m.find? name = some s) (h : visit r m name s w = .ok (m', again) w') :
    (s.dirty = false ∧ m' = m) ∨
    ∃ p, s.dirty = true ∧ choose r name s w = .ok p w' ∧
      recordedVersion m' = Function.update (recordedVersion m) name (some p.version) ∧
      (recordedVersion m name = some p.version ∨
        ∃ kids, sidecarDeps r.host.toManifestReader name p.version p.manifestJson = .ok kids) := by
  obtain ⟨hd, rfl, -, -⟩ | ⟨p, hd, hp, ⟨hver, rfl, -⟩ | ⟨-, hprop⟩⟩ := visit_eq_ok h
  · exact .inl ⟨hd, rfl⟩
  · refine .inr ⟨p, hd, hp, recordedVersion_set (s.record p) rfl, .inl ?_⟩
    simp only [MvsState.versionChanged, Bool.or_eq_false_iff, Bool.not_eq_false',
      bne_eq_false_iff_eq] at hver
    exact recordedVersion_eq_some.mpr ⟨s, hs, hver⟩
  · obtain ⟨kids, added, hkids, hadd, -⟩ := propagate_eq_ok hprop
    rw [hr.overrides] at hadd
    refine .inr ⟨p, hd, hp, ?_, .inr ⟨kids, hkids⟩⟩
    rw [(addAll_extends hadd).recordedVersion, recordedVersion_set _ rfl]
    rfl

theorem recordedVersion_seed {r : Resolver ω} (hr : Single r R C)
    (h : addAll r.overrides true .empty deps = .ok (m, changed)) (n : String) :
    recordedVersion m n = none := by
  rw [hr.overrides] at h
  rw [(addAll_extends h).recordedVersion]
  rfl

/-- A turn of the resolution, as far as the recorded versions go. -/
theorem turn_recordedVersion {r : Resolver ω} (hr : Single r R C)
    (hpass : PassesThrough r deps w c w₁) (h : turn r c w₁ = .ok (some c') w₂) :
    c'.solve = c.solve ∨ ∃ name s p, AtPick r deps w name s w₁ ∧ c.solve.find? name = some s ∧
      choose r name s w₁ = .ok p w₂ ∧
      recordedVersion c'.solve = Function.update (recordedVersion c.solve) name (some p.version) ∧
      (recordedVersion c.solve name = some p.version ∨
        ∃ kids, sidecarDeps r.host.toManifestReader name p.version p.manifestJson = .ok kids) := by
  obtain ⟨name, m', again, hk, hv, heq⟩ | ⟨-, -, heq, -⟩ | ⟨-, -, heq, -⟩ := turn_eq_ok h
  · cases heq
    have hs := find?_of_key hk r.overrides
    obtain ⟨-, rfl⟩ | ⟨p, hd, hp, hrec⟩ := visit_recordedVersion hr hs hv
    · exact .inl rfl
    · exact .inr ⟨name, _, p, ⟨c, hpass, hk, hs, hd⟩, hs, hp, hrec⟩
  · cases heq
    exact .inl rfl
  · cases heq

/-! ## Replaced versions rule nothing out -/

/-- Each recorded version is covered by those in `V` that can still be picked, and what the demands
in force allow satisfies everything gathered. -/
structure Justified (r : Resolver ω) (R : Repository ω) (C : Catalog) (deps : List DependencySpec)
    (V : String → String → Prop) (m : Solve) : Prop where
  covered : ∀ n s u, m.find? n = some s → recordedVersion m n = some u →
    ∀ v ∈ C.listed n, V n v → Met R s v → (requirements r R C deps).Covers n v u
  held : Held R ((requirements r R C deps).Allows (recordedVersion m)) m

theorem choose_met {r : Resolver ω} (hr : Single r R C) {m : Solve} (hw : Wired r.overrides m)
    (hs : m.find? name = some s) (h : choose r name s w = .ok p w') : Met R s p.version := by
  obtain ⟨hpick, -⟩ := choose_single hr hw hs h
  refine ⟨(lowestSatisfyingAll_spec hpick.lowest.symm hpick.nonempty).2, fun q hq => ?_⟩
  simpa [eligible, hq] using hpick.eligible

namespace Justified
variable {r : Resolver ω} {m m' : Solve}

/-- A supported pick is recorded. What it replaces it covers. -/
theorem record (hr : Single r R C) (hw : Wired r.overrides m) (hj : Justified r R C deps V m)
    (hs : m.find? name = some s) (hsup : Supported r R C deps V name s w)
    (hp : choose r name s w = .ok p w') (hV : V name p.version) (kids : List DependencySpec) :
    Justified r R C deps V (m.set name { s.record p with childDeps := kids }) := by
  have hmet := choose_met hr hw hs hp
  have hlisted := (choose_single hr hw hs hp).1.listed
  have hrec : recordedVersion (m.set name { s.record p with childDeps := kids }) =
      Function.update (recordedVersion m) name (some p.version) := recordedVersion_set _ rfl
  refine ⟨fun n t u ht hu v hv hVv hmetv => ?_, fun n t v ht hA => ?_⟩
  · rw [OrderedMap.find?_set] at ht
    rw [hrec, Function.update_apply] at hu
    split at ht
    · next hn =>
      subst hn
      cases ht
      rw [if_pos rfl] at hu
      cases hu
      exact hsup.covered p w' hp v hv hVv ⟨hmetv.satisfies, hmetv.pin⟩
    · next hn =>
      rw [if_neg hn] at hu
      exact hj.covered n t u ht hu v hv hVv hmetv
  · rw [hrec] at hA
    have hbefore := hA.of_covers fun u hu => hj.covered name s u hs hu p.version hlisted hV hmet
    rw [OrderedMap.find?_set] at ht
    split at ht
    · next hn =>
      subst hn
      cases ht
      have hheld := hj.held n s v hs hbefore
      exact ⟨hheld.satisfies, hheld.pin⟩
    · exact hj.held n t v ht hbefore

/-- Demands in force are gathered. -/
theorem addAll (hj : Justified r R C deps V m)
    (hadd : Buildtool.addAll [] b m ds = .ok (m', changed))
    (hds : ∀ d ∈ ds, d.versioned = true →
      (requirements r R C deps).Demanded (recordedVersion m) d) : Justified r R C deps V m' := by
  have hext := addAll_extends hadd
  refine ⟨fun n s' u hs' hu v hv hVv hmet => ?_, ?_⟩
  · rw [hext.recordedVersion] at hu
    obtain ⟨s, hs, -⟩ := recordedVersion_eq_some.mp hu
    have hgrows := hext.grows n s' hs'
    rw [known_of_find? hs] at hgrows
    exact hj.covered n s u hs hu v hv hVv (hmet.of_grows hgrows)
  · rw [hext.recordedVersion]
    exact addAll_held hadd hj.held fun d hd hdv v hA => hA.2 d (hds d hd hdv) rfl

theorem seed (hr : Single r R C)
    (h : Buildtool.addAll r.overrides true .empty deps = .ok (m, changed)) :
    Justified r R C deps V m := by
  rw [hr.overrides] at h
  have hempty : Justified r R C deps V .empty :=
    ⟨fun _ _ _ hs => (nomatch hs), fun _ _ _ hs => (nomatch hs)⟩
  exact hempty.addAll h fun d hd hdv => .inl ⟨hd, hdv⟩

theorem turn (hr : Single r R C) (hV : ∀ n v, Records r deps w n v → V n v)
    (hsup : AllSupported r R C deps V w) (hpass : PassesThrough r deps w c w₁)
    (hj : Justified r R C deps V c.solve) (h : Buildtool.turn r c w₁ = .ok (some c') w₂) :
    Justified r R C deps V c'.solve := by
  have hnext := hpass.next h
  obtain ⟨name, m', again, hk, hv, heq⟩ | ⟨-, -, heq, -⟩ | ⟨-, -, heq, -⟩ := turn_eq_ok h
  · cases heq
    have hs := find?_of_key hk r.overrides
    have hw := (passesThrough_single hr hpass).1.wired
    generalize known r.overrides c.solve name = s at hs hv
    obtain ⟨-, rfl, -, -⟩ | ⟨p, hd, hp, hcases⟩ := visit_eq_ok hv
    · exact hj
    · have hrecords : Records r deps w name p.version := by
        obtain ⟨hclean, -⟩ | ⟨q, -, hq, hrec, -⟩ := visit_recordedVersion hr hs hv
        · rw [hd] at hclean
          cases hclean
        · rw [hp] at hq
          cases hq
          exact ⟨_, w₂, hnext, (congrFun hrec name).trans (Function.update_self ..)⟩
      have hrecord := hj.record hr hw hs (hsup name s w₁ ⟨c, hpass, hk, hs, hd⟩) hp
        (hV name p.version hrecords)
      obtain ⟨-, rfl, -⟩ | ⟨-, hprop⟩ := hcases
      · exact hrecord s.childDeps
      · obtain ⟨kids, added, hkids, hadd, -⟩ := propagate_eq_ok hprop
        rw [hr.overrides] at hadd
        refine (hrecord kids).addAll hadd fun d hd hdv => .inr ⟨name, p.version, ?_, ?_⟩
        · exact (congrFun (recordedVersion_set _ rfl) name).trans (Function.update_self ..)
        · change d ∈ declaredDeps _ _ _ _
          rw [← (choose_single hr hw hs hp).2, declaredDeps, hkids]
          exact List.mem_filter.mpr ⟨hd, hdv⟩
  · cases heq
    exact hj
  · cases heq

end Justified

theorem staleHarmless_of_supported {r : Resolver ω} (hr : Single r R C)
    (hV : ∀ n v, Records r deps w n v → V n v) (hsup : AllSupported r R C deps V w) :
    StaleHarmless r R C deps w := fun _ _ hpass =>
  (hpass.preserves (P := fun c => Justified r R C deps V c.solve)
    (fun _ _ hseed => .seed hr hseed)
    fun _ _ _ _ hb hj hturn => hj.turn hr hV hsup hb hturn).held

/-! ## Outside the condition -/

theorem readable_of_records {r : Resolver ω} (hr : Single r R C) (h : Records r deps w n v) :
    ∃ kids, sidecarDeps r.host.toManifestReader n v (C.sidecar n v) = .ok kids := by
  obtain ⟨c, w₁, hpass, hv⟩ := h
  refine hpass.preserves (P := fun c => ∀ n v, recordedVersion c.solve n = some v →
    ∃ kids, sidecarDeps r.host.toManifestReader n v (C.sidecar n v) = .ok kids)
    (fun _ _ hseed n v hv => ?_) (fun b c' w₂ w₃ hb ih hturn n v hv => ?_) n v hv
  · rw [recordedVersion_seed hr hseed] at hv
    cases hv
  · obtain hsame | ⟨name, s, p, -, hs, hp, hrec, hread⟩ := turn_recordedVersion hr hb hturn
    · exact ih n v (hsame ▸ hv)
    · rw [hrec, Function.update_apply] at hv
      split at hv
      · next hn =>
        subst hn
        cases hv
        obtain hbefore | ⟨kids, hkids⟩ := hread
        · exact ih n p.version hbefore
        · have hw := (passesThrough_single hr hb).1.wired
          exact ⟨kids, (choose_single hr hw hs hp).2 ▸ hkids⟩
      · exact ih n v hv

/-- Turns that pick whatever is recorded are supported. -/
theorem supported_of_not_departs {r : Resolver ω} (hr : Single r R C)
    (hread : ∀ n v, V n v →
      ∃ kids, sidecarDeps r.host.toManifestReader n v (C.sidecar n v) = .ok kids)
    (hno : ¬Departs r V deps w) : AllSupported r R C deps V w := by
  intro name s w₁ hat
  have hpicks : ∀ v, V name v → ∃ p w', choose r name s w₁ = .ok p w' ∧ p.version = v := by
    intro v hv
    by_contra hne
    exact hno ⟨name, s, w₁, v, hat, hv, fun p w' hp heq => hne ⟨p, w', hp, heq⟩⟩
  refine ⟨fun ⟨v, _, hv, _⟩ => ?_, fun p w' hp v _ hv _ => ?_⟩
  · obtain ⟨p, w', hp, rfl⟩ := hpicks v hv
    obtain ⟨c, hpass, -, hs, -⟩ := hat
    obtain ⟨kids, hkids⟩ := hread name p.version hv
    have hjson := (choose_single hr (passesThrough_single hr hpass).1.wired hs hp).2
    exact ⟨p, w', hp, fun _ => ⟨kids, hjson ▸ hkids⟩⟩
  · obtain ⟨p', w'', hp', rfl⟩ := hpicks v hv
    rw [hp] at hp'
    cases hp'
    exact .of_subset subset_rfl

/-- The loop goes one way only, so every place it passes through leads to its end. -/
theorem reaches_end {r : Resolver ω} (hend : PassesThrough r deps w e w₁)
    (hstop : turn r e w₁ = .ok none w₂) (h : PassesThrough r deps w c w') :
    Relation.ReflTransGen (Turn r) (c, w') (e, w₁) := by
  obtain ⟨m₀, changed, hseed, hrun⟩ := hend
  obtain ⟨m₀', changed', hseed', hrun'⟩ := h
  rw [hseed] at hseed'
  cases hseed'
  have hunique : Relator.RightUnique (Turn r) := by
    intro x y z hy hz
    rw [Turn, hy] at hz
    injection hz with hconfig hworld
    exact Prod.ext (Option.some.inj hconfig) hworld
  obtain hon | hback := Relation.ReflTransGen.total_of_right_unique hunique hrun' hrun
  · exact hon
  · cases hback using Relation.ReflTransGen.head_induction_on with
    | refl => exact .refl
    | head hturn _ => rw [Turn, hstop] at hturn; cases hturn

theorem recorded_persists {r : Resolver ω} (hr : Single r R C) (hno : ¬Replaces r deps w)
    (hpass : PassesThrough r deps w c w₁)
    (hrun : Relation.ReflTransGen (Turn r) (c, w₁) (e, w₂))
    (h : recordedVersion c.solve n = some v) : recordedVersion e.solve n = some v := by
  suffices hall : ∀ y : Config × ω, Relation.ReflTransGen (Turn r) (c, w₁) y →
      PassesThrough r deps w y.1 y.2 ∧ recordedVersion y.1.solve n = some v from
    (hall (e, w₂) hrun).2
  intro y hy
  induction hy with
  | refl => exact ⟨hpass, h⟩
  | @tail b y _ hturn ih =>
    refine ⟨ih.1.next hturn, ?_⟩
    obtain hsame | ⟨name, s, p, hat, hs, hp, hrec, -⟩ := turn_recordedVersion hr ih.1 hturn
    · rw [hsame, ih.2]
    · rw [hrec, Function.update_apply]
      split
      · next hn =>
        subst hn
        obtain ⟨t, ht, hever, rfl⟩ := recordedVersion_eq_some.mp ih.2
        rw [hs] at ht
        cases ht
        by_contra hne
        exact hno ⟨n, s, b.2, p, y.2, hat, hever, hp, fun heq => hne (congrArg some heq)⟩
      · exact ih.2

theorem Records.chosen {r : Resolver ω} (hr : Single r R C) (hno : ¬Replaces r deps w)
    (hm : resolveState r fuel deps w = .ok (some m) w') (h : Records r deps w n v) :
    chosen m n = some v := by
  obtain ⟨c, w₁, hpass, hv⟩ := h
  obtain ⟨e, w₂, w₃, hend, hstop, rfl⟩ := resolveState_eq_ok hm
  rw [← recordedVersion_eq_chosen hr hend hstop]
  exact recorded_persists hr hno hpass (reaches_end hend hstop hpass) hv

/-- A resolution that replaces nothing picks, at every turn, what it ends with. -/
theorem not_departs_of_chosen {r : Resolver ω} (hr : Single r R C) (hno : ¬Replaces r deps w)
    (hm : resolveState r fuel deps w = .ok (some m) w')
    (hV : ∀ n v, V n v → chosen m n = some v) : ¬Departs r V deps w := by
  rintro ⟨name, s, w₁, v, ⟨c, hpass, hk, hs, hd⟩, hv, hne⟩
  obtain ⟨e, w₂, w₃, hend, hstop, -⟩ := resolveState_eq_ok hm
  have hrun := reaches_end hend hstop hpass
  cases hrun using Relation.ReflTransGen.head_induction_on with
  | refl =>
    obtain ⟨_, _, _, _, _, heq⟩ | ⟨_, _, heq, _⟩ | ⟨hnone, _, _, _⟩ := turn_eq_ok hstop
    · cases heq
    · cases heq
    · rw [hk] at hnone; cases hnone
  | @head _ b hturn hrest =>
    obtain ⟨name', m', again, hk', hvisit, heq⟩ | ⟨hnone, _, _, _⟩ | ⟨hnone, _, _, _⟩ :=
      turn_eq_ok hturn
    · rw [hk] at hk'
      cases hk'
      rw [known_of_find? hs] at hvisit
      obtain ⟨hclean, -⟩ | ⟨p, -, hp, hrec, -⟩ := visit_recordedVersion hr hs hvisit
      · rw [hd] at hclean; cases hclean
      · have hrecords : Records r deps w name p.version := by
          refine ⟨b.1, b.2, hpass.next hturn, ?_⟩
          rw [Option.some.inj heq]
          exact (congrFun hrec name).trans (Function.update_self ..)
        have hsame := (hrecords.chosen hr hno hm).symm.trans (hV name v hv)
        exact hne p _ hp (Option.some.inj hsame)
    · rw [hk] at hnone; cases hnone
    · rw [hk] at hnone; cases hnone

theorem departs_of_not_supported {r : Resolver ω} (hr : Single r R C)
    (h : ¬OrdersSupported r R C deps deps' w) :
    Departs r (EitherRecords r deps deps' w) deps w ∨
      Departs r (EitherRecords r deps deps' w) deps' w := by
  have hread : ∀ n v, EitherRecords r deps deps' w n v →
      ∃ kids, sidecarDeps r.host.toManifestReader n v (C.sidecar n v) = .ok kids := by
    rintro n v (hrec | hrec)
    · exact readable_of_records hr hrec
    · exact readable_of_records hr hrec
  by_contra hno
  obtain ⟨hd, hd'⟩ := not_or.mp hno
  exact h ⟨supported_of_not_departs hr hread hd, supported_of_not_departs hr hread hd'⟩

/-- Where nothing is replaced and the order does not show in the result, both orders record what
they choose and pick nothing else. -/
theorem replaces_of_not_supported {r : Resolver ω} (hr : Single r R C)
    (h : ¬OrdersSupported r R C deps deps' w) (hres : Resolves r deps w ∨ Resolves r deps' w) :
    Replaces r deps w ∨ Replaces r deps' w ∨ ¬OrderIndependent r deps deps' w := by
  by_contra hno
  obtain ⟨hkeep, hno⟩ := not_or.mp hno
  obtain ⟨hkeep', hsame⟩ := not_or.mp hno
  have hsame := not_not.mp hsame
  obtain ⟨fuel, g, w₁, hg⟩ : Resolves r deps w := hres.elim id hsame.resolves.mpr
  obtain ⟨fuel', g', w₂, hg'⟩ := hsame.resolves.mp ⟨fuel, g, w₁, hg⟩
  obtain ⟨m, hm, rfl⟩ := resolveMvsGraph_eq_ok hg
  obtain ⟨m', hm', rfl⟩ := resolveMvsGraph_eq_ok hg'
  have hchosen : ∀ n v, chosen m n = some v ↔ chosen m' n = some v := by
    intro n v
    have hpairs := hsame.pairs fuel fuel' _ _ w₁ w₂ hg hg' (n, v)
    rwa [mem_pairs, mem_pairs] at hpairs
  have hV : ∀ n v, EitherRecords r deps deps' w n v → chosen m n = some v := by
    rintro n v (hrec | hrec)
    · exact hrec.chosen hr hkeep hm
    · exact (hchosen n v).mpr (hrec.chosen hr hkeep' hm')
  obtain hd | hd := departs_of_not_supported hr h
  · exact not_departs_of_chosen hr hkeep hm hV hd
  · exact not_departs_of_chosen hr hkeep' hm' (fun n v hv => (hchosen n v).mp (hV n v hv)) hd

end Cajeta.Buildtool
