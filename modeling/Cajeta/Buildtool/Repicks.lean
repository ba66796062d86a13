import Cajeta.Buildtool.ResolverGuarantees
import Cajeta.Buildtool.ResolverResult
import Cajeta.Buildtool.VersionOrder

/-!
# Picking again

Over repositories of finitely many releases the loop runs out of turns whatever it finds, but not
because picks only rise. A package that is picked again keeps its constraints and its pin, so the
repository that answered before answers no lower. Once that repository has nothing left, or a pin
that came late rules it out, the next one in priority answers, with whatever it has.
-/

namespace Cajeta.Buildtool
variable {ω : Type}

/-- The repositories answer from finite lists of releases, and only versions are overridden. -/
structure Catalogued (r : Resolver ω) (C : Repository ω → Catalog) : Prop where
  carries : ∀ R ∈ r.repos, R.Carries (C R)
  overrides : ∀ o ∈ r.overrides, o.form = .version

/-- `std::sort` sorts what the comparison orders. -/
def Host.Sorts (host : Host ω) : Prop :=
  ∀ versions, StrictWeakOrder {v | v ∈ versions} →
    (host.sort versions).Pairwise fun a b => compareVersions b a ≠ .lt

/-- The comparison orders the versions in which each package is listed. -/
def Ordered (r : Resolver ω) (C : Repository ω → Catalog) : Prop :=
  ∀ name, StrictWeakOrder {v | ∃ R ∈ r.repos, v ∈ (C R).listed name}

def Sat (constraints : List String) (v : String) : Prop :=
  ∀ c ∈ constraints, versionSatisfies v c = true

/-- The `i`th repository answers for a package: it is the first one that the pin allows and that
lists a version satisfying the constraints. -/
structure Answers (r : Resolver ω) (C : Repository ω → Catalog) (name : String)
    (constraints : List String) (fromRepo : Option String) (i : Nat) (R : Repository ω) : Prop where
  place : r.repos[i]? = some R
  eligible : eligible fromRepo R = true
  first : ∀ j < i, ∀ R', r.repos[j]? = some R' → Buildtool.eligible fromRepo R' = true →
    ∀ v ∈ (C R').listed name, ¬Sat constraints v
  offers : ∃ v ∈ (C R).listed name, Sat constraints v

/-- The repository that answers for a package now comes after one of the name the recorded pick
came from, and lists a satisfying version that is lower than the recorded one. -/
def Undercut (r : Resolver ω) (C : Repository ω → Catalog) (name : String) (s : MvsState) : Prop :=
  ∃ i R, Answers r C name (effectiveConstraints s) s.fromRepo i R ∧
    (∃ j < i, ∃ R', r.repos[j]? = some R' ∧ R'.name = s.resolvedFromRepo) ∧
    ∃ v ∈ (C R).listed name, Sat (effectiveConstraints s) v ∧ compareVersions v s.version = .lt

theorem compareVersions_self (v : String) : compareVersions v v = .eq :=
  compareVersions_eq.mpr fun _ => comparePart_self _

namespace StrictWeakOrder

theorem mono (h : StrictWeakOrder S) (hsub : T ⊆ S) : StrictWeakOrder T where
  total a ha b hb := h.total a (hsub ha) b (hsub hb)
  swap a ha b hb := h.swap a (hsub ha) b (hsub hb)
  trans a ha b hb c hc := h.trans a (hsub ha) b (hsub hb) c (hsub hc)
  incomparable a ha b hb c hc := h.incomparable a (hsub ha) b (hsub hb) c (hsub hc)

theorem compare (h : StrictWeakOrder S) (ha : a ∈ S) (hb : b ∈ S) :
    compareVersions? a b = some (compareVersions a b) := by
  have hfits := ((strictWeakOrder_iff S).mp h).1
  exact compareVersions?_of_fits (hfits a ha) (hfits b hb)

theorem lt_of_lt_of_le (h : StrictWeakOrder S) (ha : a ∈ S) (hb : b ∈ S) (hc : c ∈ S)
    (hab : compareVersions a b = .lt) (hcb : compareVersions c b ≠ .lt) :
    compareVersions a c = .lt := by
  have htrans := h.trans a ha b hb c hc
  have hsame := h.incomparable a ha c hc b hb
  have hback := h.trans c hc a ha b hb
  rw [h.compare ha hb, h.compare hb hc, h.compare ha hc] at htrans
  rw [h.compare ha hc, h.compare hc hb, h.compare ha hb] at hsame
  rw [h.compare hc ha, h.compare ha hb, h.compare hc hb] at hback
  simp only [Option.some.injEq] at htrans hsame hback
  cases hbc : compareVersions b c with
  | lt => exact htrans hab hbc
  | gt =>
    rw [compareVersions_swap b c, hbc] at hcb
    exact absurd rfl hcb
  | eq =>
    have heq : compareVersions c b = .eq := by rw [compareVersions_swap b c, hbc]; rfl
    cases hac : compareVersions a c with
    | lt => rfl
    | eq => rw [hsame hac heq] at hab; cases hab
    | gt =>
      have hca : compareVersions c a = .lt := by rw [compareVersions_swap a c, hac]; rfl
      exact absurd (hback hca hab) hcb

end StrictWeakOrder

/-! ## A single pick -/

theorem lowest_nonempty {host : Host ω} {candidates : List String}
    (hne : ∀ v ∈ candidates, v.isEmpty = false) :
    (lowestSatisfyingAll host candidates constraints).isEmpty = false ↔
      ∃ v ∈ candidates, Sat constraints v := by
  constructor
  · intro h
    obtain ⟨hmem, hsat⟩ := lowestSatisfyingAll_spec rfl h
    exact ⟨_, hmem, hsat⟩
  · rintro ⟨v, hv, hsat⟩
    unfold lowestSatisfyingAll
    cases hf : (host.sort candidates).find? fun v => constraints.all (versionSatisfies v) with
    | none =>
      have hmem := (host.sort_perm candidates).mem_iff.mpr hv
      exact absurd (List.all_eq_true.mpr hsat) (List.find?_eq_none.mp hf v hmem)
    | some u => exact hne u ((host.sort_perm _).mem_iff.mp (List.mem_of_find?_eq_some hf))

theorem lowest_le {host : Host ω} {candidates : List String} (hsort : host.Sorts)
    (hord : StrictWeakOrder {v | v ∈ candidates}) (hv : v ∈ candidates) (hsat : Sat constraints v) :
    compareVersions v (lowestSatisfyingAll host candidates constraints) ≠ .lt := by
  have hpair := hsort candidates hord
  have hmem := (host.sort_perm candidates).mem_iff.mpr hv
  unfold lowestSatisfyingAll
  generalize host.sort candidates = l at hpair hmem
  induction l with
  | nil => cases hmem
  | cons u l ih =>
    obtain ⟨hu, hpair⟩ := List.pairwise_cons.mp hpair
    rw [List.find?_cons]
    split
    · rcases List.mem_cons.mp hmem with rfl | hmem
      · rw [Option.getD_some, compareVersions_self]
        decide
      · exact hu v hmem
    · next hno =>
      rcases List.mem_cons.mp hmem with rfl | hmem
      · rw [List.all_eq_true.mpr hsat] at hno
        cases hno
      · exact ih hpair hmem

theorem fetchPick_repo {host : Host ω} (h : fetchPick host repo root name v w = .ok p w') :
    p.resolvedFromRepo = repo.name := by
  simp only [fetchPick, EStateM.bind_eq_ok, EStateM.pure_eq_ok] at h
  obtain ⟨_, _, -, _, _, -, _, _, -, _, _, -, _, _, -, rfl, -⟩ := h
  rfl

def PickedBy (r : Resolver ω) (C : Repository ω → Catalog) (name : String)
    (constraints : List String) (fromRepo : Option String) (version repo : String) : Prop :=
  ∃ i R, Answers r C name constraints fromRepo i R ∧
    version = lowestSatisfyingAll r.host ((C R).listed name) constraints ∧ repo = R.name

theorem Answers.mem_lowest {r : Resolver ω} (h : Answers r C name constraints fromRepo i R) :
    lowestSatisfyingAll r.host ((C R).listed name) constraints ∈ (C R).listed name ∧
      Sat constraints (lowestSatisfyingAll r.host ((C R).listed name) constraints) :=
  lowestSatisfyingAll_spec rfl
    ((lowest_nonempty fun _ hv => Catalog.nonempty_of_mem_listed hv).mpr h.offers)

theorem firstPick_answers {host : Host ω} {C : Repository ω → Catalog}
    {repos : List (Repository ω)} (hC : ∀ R ∈ repos, R.Carries (C R))
    (h : firstPick host root name constraints (repos.filter (eligible fromRepo)) w =
      .ok (some p) w') :
    ∃ (i : Nat) (R : Repository ω), repos[i]? = some R ∧ eligible fromRepo R = true ∧
      (∀ j < i, ∀ R', repos[j]? = some R' → eligible fromRepo R' = true →
        ∀ v ∈ (C R').listed name, ¬Sat constraints v) ∧
      (∃ v ∈ (C R).listed name, Sat constraints v) ∧
      p.version = lowestSatisfyingAll host ((C R).listed name) constraints ∧
      p.resolvedFromRepo = R.name ∧ p.manifestJson = (C R).sidecar name p.version := by
  induction repos generalizing w with
  | nil => cases h
  | cons R repos ih =>
    have hC' := fun R' hR' => hC R' (List.mem_cons_of_mem R hR')
    -- the rest answers when `R` does not
    have hrest : (∀ v ∈ (C R).listed name, eligible fromRepo R = true → ¬Sat constraints v) →
        ∀ w, firstPick host root name constraints (repos.filter (eligible fromRepo)) w =
            .ok (some p) w' →
          ∃ (i : Nat) (R₁ : Repository ω), (R :: repos)[i]? = some R₁ ∧
            eligible fromRepo R₁ = true ∧
            (∀ j < i, ∀ R', (R :: repos)[j]? = some R' → eligible fromRepo R' = true →
              ∀ v ∈ (C R').listed name, ¬Sat constraints v) ∧
            (∃ v ∈ (C R₁).listed name, Sat constraints v) ∧
            p.version = lowestSatisfyingAll host ((C R₁).listed name) constraints ∧
            p.resolvedFromRepo = R₁.name ∧
            p.manifestJson = (C R₁).sidecar name p.version := by
      intro hno w h
      obtain ⟨i, R₁, hat, helig, hfirst, hrest⟩ := ih hC' h
      refine ⟨i + 1, R₁, hat, helig, fun j hj R' hR' helig' => ?_, hrest⟩
      cases j with
      | zero => cases hR'; exact fun v hv => hno v hv helig'
      | succ j => exact hfirst j (by omega) R' hR' helig'
    rw [List.filter_cons] at h
    split at h
    · next helig =>
      simp only [firstPick, EStateM.bind_eq_ok] at h
      obtain ⟨versions, w₁, hlist, h⟩ := h
      obtain rfl := (hC R List.mem_cons_self).listed _ _ _ _ hlist
      have hsome : (lowestSatisfyingAll host ((C R).listed name) constraints).isEmpty = false ↔
          ∃ v ∈ (C R).listed name, Sat constraints v :=
        lowest_nonempty fun v hv => Catalog.nonempty_of_mem_listed hv
      split at h
      · next hempty =>
        refine hrest (fun v hv _ hsat => ?_) w₁ h
        rw [hsome.mpr ⟨v, hv, hsat⟩] at hempty
        cases hempty
      · next hne =>
        simp only [map_eq_pure_bind, EStateM.bind_eq_ok, EStateM.pure_eq_ok] at h
        obtain ⟨p', w₂, hp, heq, -⟩ := h
        cases heq
        have hversion := fetchPick_version hp
        refine ⟨0, R, rfl, helig, fun j hj => absurd hj (Nat.not_lt_zero j),
          hsome.mp (by simpa using hne), hversion, fetchPick_repo hp, ?_⟩
        rw [hversion]
        exact fetchPick_manifestJson hp (hC R List.mem_cons_self)
    · next helig => exact hrest (fun v _ he => absurd he helig) w h

theorem Catalogued.plain {r : Resolver ω} (hr : Catalogued r C) {m : Solve}
    (hw : Wired r.overrides m) (hs : m.find? n = some s) :
    s.overridePath = none ∧ s.overrideGit = none := by
  have hnone : ∀ form, form ≠ .version → findOverride r.overrides form n = none := by
    intro form hform
    refine List.find?_eq_none.mpr fun o ho => ?_
    simp [hr.overrides o (List.mem_reverse.mp ho), hform.symm]
  obtain ⟨-, hpath, hgit⟩ := hw n s hs
  rw [hpath, hgit]
  simp only [MvsState.fresh, hnone .path (by decide), hnone .git (by decide)]
  exact ⟨rfl, rfl⟩

theorem choose_answers {r : Resolver ω} (hr : Catalogued r C) {m : Solve}
    (hw : Wired r.overrides m) (hs : m.find? n = some s) (h : choose r n s w = .ok p w') :
    PickedBy r C n (effectiveConstraints s) s.fromRepo p.version p.resolvedFromRepo ∧
      ∃ R ∈ r.repos, p.version ∈ (C R).listed n ∧ p.manifestJson = (C R).sidecar n p.version := by
  obtain ⟨hpath, hgit⟩ := hr.plain hw hs
  simp only [choose, hpath, hgit, ite_self, pickLowestForAll, EStateM.bind_eq_ok,
    EStateM.ofResult_eq_ok, Except.orThrow_eq_ok] at h
  obtain ⟨pick, w₁, hfirst, rfl, -⟩ := h
  obtain ⟨i, R, hat, helig, hbefore, hoffers, hversion, hrepo, hjson⟩ :=
    firstPick_answers hr.carries hfirst
  have hans : Answers r C n (effectiveConstraints s) s.fromRepo i R :=
    ⟨hat, helig, hbefore, hoffers⟩
  exact ⟨⟨i, R, hans, hversion, hrepo⟩, R, List.mem_of_getElem? hat,
    hversion ▸ hans.mem_lowest.1, hjson⟩

theorem Sat.of_subset (h : Sat constraints v) (hsub : constraints₀ ⊆ constraints) :
    Sat constraints₀ v := fun c hc => h c (hsub hc)

theorem eligible_of_pin {R : Repository ω} (hpin : ∀ p, f₀ = some p → f = some p)
    (h : eligible f R = true) : eligible f₀ R = true := by
  cases f₀ with
  | none => rfl
  | some p => rw [hpin p rfl] at h; exact h

theorem Answers.le {r : Resolver ω} (h₀ : Answers r C n cs₀ f₀ i₀ R₀) (h : Answers r C n cs f i R)
    (hcs : cs₀ ⊆ cs) (hpin : ∀ p, f₀ = some p → f = some p) : i₀ ≤ i := by
  by_contra hlt
  obtain ⟨v, hv, hsat⟩ := h.offers
  exact h₀.first i (by omega) R h.place (eligible_of_pin hpin h.eligible) v hv (hsat.of_subset hcs)

theorem Answers.unique {r : Resolver ω} (h : Answers r C n cs f i R)
    (h' : Answers r C n cs f j R') :
    i = j ∧ R = R' := by
  have hij : i = j := Nat.le_antisymm (h.le h' (List.Subset.refl _) fun _ hp => hp)
    (h'.le h (List.Subset.refl _) fun _ hp => hp)
  subst hij
  have hplace := h.place
  rw [h'.place] at hplace
  exact ⟨rfl, (Option.some.inj hplace).symm⟩

/-- The later of two picks of a package is the lower one exactly when the recorded one is
undercut. -/
theorem repick_lower_iff {r : Resolver ω} (hsort : r.host.Sorts) (hord : Ordered r C)
    (h₀ : PickedBy r C n cs₀ f₀ s.version s.resolvedFromRepo)
    (h : PickedBy r C n (effectiveConstraints s) s.fromRepo v repo)
    (hcs : cs₀ ⊆ effectiveConstraints s) (hpin : ∀ p, f₀ = some p → s.fromRepo = some p) :
    compareVersions v s.version = .lt ↔ Undercut r C n s := by
  obtain ⟨i₀, R₀, ha₀, hv₀, hrepo₀⟩ := h₀
  obtain ⟨i, R, ha, rfl, -⟩ := h
  have hin : ∀ {j R'}, r.repos[j]? = some R' →
      {u | u ∈ (C R').listed n} ⊆ {u | ∃ R ∈ r.repos, u ∈ (C R).listed n} :=
    fun hat u hu => ⟨_, List.mem_of_getElem? hat, hu⟩
  obtain ⟨hmem, hsat⟩ := ha.mem_lowest
  have hmem₀ := ha₀.mem_lowest.1
  rw [← hv₀] at hmem₀
  constructor
  · intro hlt
    refine ⟨i, R, ha, ⟨i₀, Nat.lt_of_le_of_ne (ha₀.le ha hcs hpin) fun heq => ?_, R₀, ha₀.place,
      hrepo₀.symm⟩, _, hmem, hsat, hlt⟩
    subst heq
    obtain rfl : R₀ = R := Option.some.inj (ha₀.place.symm.trans ha.place)
    rw [hv₀] at hlt
    exact lowest_le hsort ((hord n).mono (hin ha₀.place)) hmem (hsat.of_subset hcs) hlt
  · rintro ⟨j, R', ha', -, u, hu, hsatu, hlt⟩
    obtain ⟨rfl, rfl⟩ := ha.unique ha'
    by_contra hno
    have hlow := (hord n).lt_of_lt_of_le (hin ha.place hu) (hin ha₀.place hmem₀)
      (hin ha.place hmem) hlt hno
    exact lowest_le hsort ((hord n).mono (hin ha.place)) hu hsatu hlow

/-- The recorded pick of every package was made under constraints and a pin it still has. -/
def Recalls (r : Resolver ω) (C : Repository ω → Catalog) (m : Solve) : Prop :=
  ∀ n s, m.find? n = some s → s.everPicked = true →
    ∃ cs f, PickedBy r C n cs f s.version s.resolvedFromRepo ∧ cs ⊆ effectiveConstraints s ∧
      ∀ p, f = some p → s.fromRepo = some p

theorem Grows.effective (h : Grows s s') (hroot : s'.directRoot = s.directRoot) :
    effectiveConstraints s ⊆ effectiveConstraints s' := by
  unfold effectiveConstraints
  rw [h.overrideConstraint, hroot]
  cases s.overrideConstraint with
  | none => exact h.constraints
  | some c =>
    cases s.directRoot with
    | true => exact h.constraints
    | false => exact List.Subset.refl _

theorem recalls_addAll {r : Resolver ω} {m : Solve} (h : addAll o false m ds = .ok (m', changed))
    (hm : Recalls r C m) : Recalls r C m' := by
  intro n s' hs' hever
  have hg := (addAll_extends h).grows n s' hs'
  have hroot := addAll_directRoot h hs'
  rw [Bool.false_and, Bool.or_false] at hroot
  unfold known at hg
  cases hs : m.find? n with
  | none =>
    rw [hs] at hg
    rw [hg.pick] at hever
    cases hever
  | some s =>
    rw [hs] at hg hroot
    have hpick : s.everPicked = true := by rw [hg.pick] at hever; exact hever
    have hrepo : s'.resolvedFromRepo = s.resolvedFromRepo := by rw [hg.pick]; rfl
    obtain ⟨cs, f, hby, hcs, hpin⟩ := hm n s hs hpick
    rw [hg.version, hrepo]
    exact ⟨cs, f, hby, List.Subset.trans hcs (hg.effective hroot),
      fun p hp => hg.fromRepo p (hpin p hp)⟩

theorem recalls_visit {r : Resolver ω} (hr : Catalogued r C) {m : Solve}
    (hw : Wired r.overrides m) (hm : Recalls r C m) (hs : m.find? name = some s)
    (h : visit r m name s w = .ok (m', again) w') : Recalls r C m' := by
  have hset : ∀ p w', choose r name s w = .ok p w' → ∀ kids,
      Recalls r C (m.set name { s.record p with childDeps := kids }) := by
    intro p w' hp kids n t ht hever
    rw [OrderedMap.find?_set] at ht
    split at ht
    · next hn =>
      cases ht
      subst hn
      exact ⟨effectiveConstraints s, s.fromRepo, (choose_answers hr hw hs hp).1,
        List.Subset.refl _, fun _ hp => hp⟩
    · exact hm n t ht hever
  obtain ⟨-, rfl, -, -⟩ | ⟨p, -, hp, ⟨-, rfl, -⟩ | ⟨-, hprop⟩⟩ := visit_eq_ok h
  · exact hm
  · exact hset p w' hp s.childDeps
  · obtain ⟨kids, added, -, hadd, -⟩ := propagate_eq_ok hprop
    exact recalls_addAll hadd (hset p w' hp kids)

theorem recalls_turn {r : Resolver ω} (hr : Catalogued r C) (hw : Wired r.overrides c.solve)
    (hm : Recalls r C c.solve) (h : turn r c w = .ok (some c') w') :
    Wired r.overrides c'.solve ∧ Recalls r C c'.solve := by
  obtain ⟨name, m', again, hk, hv, heq⟩ | ⟨-, -, heq, -⟩ | ⟨-, -, heq, -⟩ := turn_eq_ok h
  · cases heq
    have hs := find?_of_key hk r.overrides
    exact ⟨visit_wired hw hs hv, recalls_visit hr hw hm hs hv⟩
  · cases heq
    exact ⟨hw, hm⟩
  · cases heq

theorem passesThrough_recalls {r : Resolver ω} (hr : Catalogued r C)
    (h : PassesThrough r deps w c w₁) : Wired r.overrides c.solve ∧ Recalls r C c.solve := by
  obtain ⟨m₀, changed, hseed, hrun⟩ := h
  suffices hall : ∀ y : Config × ω, Relation.ReflTransGen (Turn r) ({ solve := m₀ }, w) y →
      Wired r.overrides y.1.solve ∧ Recalls r C y.1.solve from hall (c, w₁) hrun
  intro y hy
  induction hy with
  | refl =>
    have hext := addAll_extends hseed
    refine ⟨hext.wired fun _ _ hs => (by cases hs), fun n s hs hever => ?_⟩
    rw [(hext.grows n s hs).pick] at hever
    cases hever
  | tail _ hturn ih => exact recalls_turn hr ih.1 ih.2 hturn

/-- Everything the roots and the listed releases declare. -/
def allDeclarations (r : Resolver ω) (C : Repository ω → Catalog) (deps : List DependencySpec) :
    List DependencySpec :=
  deps ++ r.repos.flatMap fun R => (C R).flatMap fun rel =>
    declaredDeps r.host.toManifestReader rel.name rel.version ((C R).sidecar rel.name rel.version)

theorem drawsFrom_allDeclarations {r : Resolver ω} (hr : Catalogued r C)
    (deps : List DependencySpec) :
    DrawsFrom r (allDeclarations r C deps) := by
  intro m name s w p w' hw hs hp d hd
  obtain ⟨-, R, hR, hlisted, hjson⟩ := choose_answers hr hw hs hp
  obtain ⟨rel, hrel, hversion⟩ := List.mem_map.mp hlisted
  obtain ⟨hrel, hname⟩ := List.mem_filter.mp hrel
  refine List.mem_append_right _ (List.mem_flatMap.mpr ⟨R, hR,
    List.mem_flatMap.mpr ⟨rel, hrel, ?_⟩⟩)
  rw [of_decide_eq_true hname, hversion, ← hjson]
  exact hd

theorem solveLoop_ne_none {r : Resolver ω} (hU : DrawsFrom r U) (hw : Wired r.overrides c.solve)
    (hm : NamedIn U c.solve)
      (hfuel : turnsLeft U c < fuel) : solveLoop r fuel c w ≠ .ok none w' := by
  induction fuel generalizing c w with
  | zero => exact absurd hfuel (Nat.not_lt_zero _)
  | succ fuel ih =>
    intro h
    obtain ⟨x, w₁, hx, h⟩ := EStateM.bind_eq_ok.mp h
    cases x with
    | none => cases h
    | some c₁ =>
      obtain ⟨hlt, hw₁, hm₁⟩ := turn_decreases hU hw hm hx
      exact ih hw₁ hm₁ (by omega) h

theorem turnsLeft_le (U : List DependencySpec) (m : Solve) :
    turnsLeft U { solve := m } ≤ 4 * U.length * (U.length + 2) + (U.length + 1) := by
  have hmissing := List.countP_le_length (p := missing m) (l := U)
  have hunpinned := List.countP_le_length (p := unpinned m) (l := U)
  have hle : 2 * remaining U m + 0 ≤ 4 * U.length := by unfold remaining; omega
  have hmul := Nat.mul_le_mul_right (U.length + 2) hle
  simp only [turnsLeft, Bool.toNat_false]
  omega

theorem resolveMvsGraph_ne_none {r : Resolver ω} (hU : DrawsFrom r U)
    (hdeps : ∀ d ∈ deps, d.versioned = true → d ∈ U)
    (hfuel : 4 * U.length * (U.length + 2) + (U.length + 1) < fuel) :
    resolveMvsGraph r fuel deps w ≠ .ok none w' := by
  intro h
  simp only [resolveMvsGraph, resolveState, EStateM.bind_eq_ok, EStateM.ofResult_eq_ok,
    EStateM.pure_eq_ok] at h
  obtain ⟨m, w₁, ⟨-, w₂, ⟨-, rfl⟩, ⟨m₀, changed⟩, w₃, ⟨hseed, rfl⟩, m', w₄, hloop, _, _, -, rfl, -⟩,
    hnone, -⟩ := h
  cases m' with
  | some m => cases hnone
  | none =>
    refine solveLoop_ne_none hU ((addAll_extends hseed).wired fun _ _ hs => (by cases hs))
      (addAll_namedIn hseed hdeps fun n hn => ?_)
        (Nat.lt_of_le_of_lt (turnsLeft_le U m₀) hfuel) hloop
    cases hn

/-- **The loop ends**, over repositories of finitely many releases, and a package that is picked
again keeps its version or gets a higher one unless the recorded version is undercut. -/
theorem resolveMvsGraph_repicks {r : Resolver ω} {C : Repository ω → Catalog}
    (hr : Catalogued r C) (deps : List DependencySpec) :
    (∃ n, ∀ fuel, n ≤ fuel → ∀ w w', resolveMvsGraph r fuel deps w ≠ .ok none w') ∧
      (r.host.Sorts → Ordered r C → ∀ w c w₁ name s p w₂, PassesThrough r deps w c w₁ →
        c.solve.keys[c.i]? = some name → c.solve.find? name = some s → s.everPicked = true →
        choose r name s w₁ = .ok p w₂ →
        (compareVersions p.version s.version ≠ .lt ↔ ¬Undercut r C name s)) := by
  refine ⟨⟨_, fun fuel hfuel w w' => resolveMvsGraph_ne_none (drawsFrom_allDeclarations hr deps)
    (fun d hd _ => List.mem_append_left _ hd) hfuel⟩, ?_⟩
  intro hsort hord w c w₁ name s p w₂ hpasses _ hs hever hp
  obtain ⟨hw, hm⟩ := passesThrough_recalls hr hpasses
  obtain ⟨cs, f, h₀, hcs, hpin⟩ := hm name s hs hever
  exact not_congr (repick_lower_iff hsort hord h₀ (choose_answers hr hw hs hp).1 hcs hpin)

/-! ## Two repositories -/

theorem textHost_sorts (texts : List (String × Json)) : (textHost texts).Sorts := by
  intro versions hord
  let le (a b : {v // v ∈ versions}) : Prop := compareVersions a.1 b.1 ≠ .gt
  have hback : ∀ {a b}, le a b ↔ compareVersions b.1 a.1 ≠ .lt := by
    intro a b
    change compareVersions a.1 b.1 ≠ .gt ↔ _
    rw [compareVersions_swap b.1 a.1, ne_eq, Ordering.swap_eq_gt]
  have : Std.Total le := ⟨fun a b => by
    change compareVersions a.1 b.1 ≠ .gt ∨ compareVersions b.1 a.1 ≠ .gt
    rw [compareVersions_swap a.1 b.1]
    cases compareVersions a.1 b.1 <;> simp⟩
  have : IsTrans _ le := ⟨fun a b c hab hbc hac => by
    have hca : compareVersions c.1 a.1 = .lt := by rw [compareVersions_swap a.1 c.1, hac]; rfl
    exact hback.mp hbc (hord.lt_of_lt_of_le c.2 a.2 b.2 hca (hback.mp hab))⟩
  have hsorted := (List.pairwise_insertionSort le versions.attach).map Subtype.val
    (S := fun a b => compareVersions b a ≠ .lt) fun a b h => hback.mp h
  rw [List.map_insertionSort (s := fun a b => compareVersions a b ≠ .gt) le Subtype.val
    versions.attach fun a _ b _ => Iff.rfl, List.attach_map_subtype_val] at hsorted
  exact hsorted

/-- The configuration some turns on, in a world that never changes. -/
def afterTurns (r : Resolver Unit) : Nat → Config → Option Config
  | 0, c => some c
  | k + 1, c =>
    match turn r c () with
    | .ok (some c') _ => afterTurns r k c'
    | _ => none

theorem run_of_afterTurns {r : Resolver Unit} (h : afterTurns r k c = some c') :
    Relation.ReflTransGen (Turn r) (c, ()) (c', ()) := by
  induction k generalizing c with
  | zero => cases h; exact .refl
  | succ k ih =>
    unfold afterTurns at h
    split at h
    · next c₁ _ hturn => exact .head (b := (c₁, ())) hturn (ih h)
    · cases h

/-- `P` is at 3.0 in the first repository and at 1.0 in the second; `X` needs it below 3. -/
def mirroredTexts : List (String × Json) := [sidecarOf "X" "1.0" [⟨"P", "<3", none⟩]]

theorem isEmpty_one : "1.0".isEmpty = false := by decide
theorem isEmpty_three : "3.0".isEmpty = false := by decide

def centralReleases : Catalog :=
  [{ name := "P", version := "3.0", version_ne := isEmpty_three },
   { name := "X", version := "1.0", version_ne := isEmpty_one,
     sidecar := some (sidecarOf "X" "1.0" [⟨"P", "<3", none⟩]).1 }]

def mirrorReleases : Catalog := [{ name := "P", version := "1.0", version_ne := isEmpty_one }]

def mirrored : Resolver Unit where
  host := textHost mirroredTexts
  repos := [catalogRepository "central" centralReleases, catalogRepository "mirror" mirrorReleases]

def mirroredRoots : List DependencySpec := [⟨"P", ">=1.0", none⟩, ⟨"X", "1.0", none⟩]

def releasesOf (R : Repository Unit) : Catalog :=
  if R.name = "central" then centralReleases else mirrorReleases

theorem mirrored_catalogued : Catalogued mirrored releasesOf where
  carries R hR := by
    rcases List.mem_pair.mp hR with rfl | rfl
    · exact catalogRepository_carries "central" centralReleases
    · exact catalogRepository_carries "mirror" mirrorReleases
  overrides o ho := by cases ho

theorem mirrored_ordered : Ordered mirrored releasesOf := by
  have hall : StrictWeakOrder {v | v ∈ ["3.0", "1.0"]} := by
    constructor <;> simp only [Set.mem_ofPred_eq] <;> decide +kernel
  intro name
  refine hall.mono ?_
  rintro v ⟨R, hR, hv⟩
  obtain ⟨rel, hrel, rfl⟩ := List.mem_map.mp hv
  have hlisted : ∀ R ∈ mirrored.repos, ∀ rel ∈ releasesOf R, rel.version ∈ ["3.0", "1.0"] := by
    decide +kernel
  exact hlisted R hR rel (List.mem_filter.mp hrel).1

/-- Whether `P`, at 3.0, is next to be picked again, as 1.0. -/
def lowersNext (c : Config) : Bool :=
  c.solve.keys[c.i]? = some "P" && (c.solve.find? "P").any fun s =>
    s.everPicked && s.version = "3.0" &&
      match choose mirrored "P" s () with
      | .ok p _ => p.version = "1.0"
      | .error _ _ => false

theorem mirrored_run : ∃ c s p, PassesThrough mirrored mirroredRoots () c () ∧
    c.solve.keys[c.i]? = some "P" ∧ c.solve.find? "P" = some s ∧ s.everPicked = true ∧
    choose mirrored "P" s () = .ok p () ∧ s.version = "3.0" ∧ p.version = "1.0" := by
  have hrun : ((addAll mirrored.overrides true .empty mirroredRoots).toOption.any fun r =>
      (afterTurns mirrored 3 { solve := r.1 }).any lowersNext) = true := by decide +kernel
  cases hseed : addAll mirrored.overrides true .empty mirroredRoots with
  | error e =>
    rw [hseed] at hrun
    cases hrun
  | ok r =>
    rw [hseed] at hrun
    obtain ⟨m, changed⟩ := r
    simp only [Except.toOption, Option.any_some] at hrun
    obtain ⟨c, hc, hnext⟩ := (Option.any_eq_true _ _).mp hrun
    simp only [lowersNext, Bool.and_eq_true, decide_eq_true_eq, Option.any_eq_true] at hnext
    obtain ⟨hkey, s, hs, ⟨hever, hold⟩, hpick⟩ := hnext
    split at hpick
    · next p _ hp =>
      exact ⟨c, s, p, ⟨m, changed, hseed, run_of_afterTurns hc⟩, hkey, hs, hever, hp, hold,
        of_decide_eq_true hpick⟩
    · cases hpick

/-- What `X` asks of `P` comes after `P` was picked at 3.0: the mirror answers next, with 1.0. -/
theorem mirror_lowers_pick : Catalogued mirrored releasesOf ∧ mirrored.host.Sorts ∧
    Ordered mirrored releasesOf ∧ ∃ c s p, PassesThrough mirrored mirroredRoots () c () ∧
      c.solve.keys[c.i]? = some "P" ∧ c.solve.find? "P" = some s ∧ s.everPicked = true ∧
      choose mirrored "P" s () = .ok p () ∧ compareVersions p.version s.version = .lt := by
  obtain ⟨c, s, p, hpasses, hkey, hs, hever, hp, hold, hnew⟩ := mirrored_run
  exact ⟨mirrored_catalogued, textHost_sorts _, mirrored_ordered, c, s, p, hpasses, hkey, hs, hever,
    hp, by rw [hold, hnew]; decide +kernel⟩

/-- The same pick as an undercut one. -/
theorem resolveMvsGraph_repicks_mirrored :
    (∃ n, ∀ fuel, n ≤ fuel → resolveMvsGraph mirrored fuel mirroredRoots () ≠ .ok none ()) ∧
      ∃ c s, PassesThrough mirrored mirroredRoots () c () ∧ c.solve.find? "P" = some s ∧
        Undercut mirrored releasesOf "P" s := by
  obtain ⟨⟨n, hends⟩, hpicks⟩ := resolveMvsGraph_repicks mirrored_catalogued mirroredRoots
  obtain ⟨c, s, p, hpasses, hkey, hs, hever, hp, hold, hnew⟩ := mirrored_run
  have hiff := hpicks (textHost_sorts _) mirrored_ordered () c () "P" s p
    () hpasses hkey hs hever hp
  refine ⟨⟨n, fun fuel hfuel => hends fuel hfuel () ()⟩, c, s, hpasses, hs, ?_⟩
  by_contra hno
  exact hiff.mpr hno (by rw [hold, hnew]; decide +kernel)

end Cajeta.Buildtool
