import Cajeta.Buildtool.ResolverRecords
import Mathlib.Data.List.Nodup
import Mathlib.Data.List.Perm.Subperm

/-!
# What a successful resolution guarantees

The result is read off the state the loop ends in: every package is clean there, so the invariant
of the turns is the consistency of the graph.
-/

namespace Cajeta.Buildtool
variable {ω : Type}

theorem map_name_packages (deps : List DependencySpec) (m : Solve) :
    (graph deps m).packages.map (·.name) = m.keys := by
  have hkeys : ∀ ks : List String, (∀ k ∈ ks, k ∈ m.keys) →
      ((ks.filterMap fun name => (m.find? name).map (name, ·)).map
        fun e => (resolved e.1 e.2).name) = ks := by
    intro ks
    induction ks with
    | nil => exact fun _ => rfl
    | cons k ks ih =>
      intro hmem
      obtain ⟨s, hs⟩ := OrderedMap.find?_of_mem_keys (hmem k List.mem_cons_self)
      rw [List.filterMap_cons, hs]
      exact congrArg (k :: ·) (ih fun j hj => hmem j (List.mem_cons_of_mem _ hj))
  rw [graph, entries, List.map_map]
  exact hkeys m.keys fun _ hk => hk

theorem mem_packages {m : Solve} (h : p ∈ (graph deps m).packages) :
    ∃ s, m.find? p.name = some s ∧ p = resolved p.name s := by
  simp only [graph, entries, List.mem_map, List.mem_filterMap, Option.map_eq_some_iff] at h
  obtain ⟨e, ⟨n, -, s, hs, rfl⟩, rfl⟩ := h
  exact ⟨s, hs, rfl⟩

theorem count_name_packages {m : Solve} (h : m.find? n = some s) :
    ((graph deps m).packages.map (·.name)).count n = 1 := by
  rw [map_name_packages]
  exact List.count_eq_one_of_mem m.nodup (OrderedMap.mem_keys_of_find? h)

theorem findOverride_of_name_ne {overrides : List OverrideSpec} (h : ∀ o ∈ overrides, o.name ≠ n)
    (form : OverrideForm) : findOverride overrides form n = none := by
  refine List.find?_eq_none.mpr fun o ho => ?_
  simp [h o (List.mem_reverse.mp ho)]

theorem Inv.unforced {r : Resolver ω} {m : Solve} (hinv : Inv r deps m)
    (hs : m.find? n = some s) (hu : Unforced r.overrides deps n) :
    s.fromRepositories ∧ effectiveConstraints s = s.constraints := by
  obtain hroot | hnone := hu
  · have hd := (hinv.directRoot n s hs).mpr hroot
    refine ⟨.inl hd, ?_⟩
    unfold effectiveConstraints
    split
    · rw [if_pos hd]
    · rfl
  · obtain ⟨hc, hpath, hgit⟩ := hinv.wired n s hs
    simp only [MvsState.fresh, findOverride_of_name_ne hnone, Option.map_none,
      Option.bind_none] at hc hpath hgit
    exact ⟨.inr ⟨hpath, hgit⟩, by rw [effectiveConstraints, hc]⟩

theorem Inv.versionForced {r : Resolver ω} {m : Solve} (hinv : Inv r deps m)
    (hs : m.find? n = some s) (hf : VersionForced r.overrides deps n o) :
    s.fromRepositories ∧ effectiveConstraints s = [exactIfBare o.versionConstraint] := by
  obtain ⟨hroot, hversion, hpathNone, hgitNone⟩ := hf
  obtain ⟨hc, hpath, hgit⟩ := hinv.wired n s hs
  simp only [MvsState.fresh, hversion, hpathNone, hgitNone, Option.map_some,
    Option.bind_none] at hc hpath hgit
  refine ⟨.inr ⟨hpath, hgit⟩, ?_⟩
  have hd : ¬s.directRoot = true := fun hd => hroot ((hinv.directRoot n s hs).mp hd)
  rw [effectiveConstraints, hc]
  exact if_neg hd

/-! ## Whole runs -/

/-- A resolution from `w` passes through `c`, in the world `w₁`. -/
def PassesThrough (r : Resolver ω) (deps : List DependencySpec) (w : ω) (c : Config) (w₁ : ω) :
    Prop :=
  ∃ m₀ changed, addAll r.overrides true .empty deps = .ok (m₀, changed) ∧
    Relation.ReflTransGen (Turn r) ({ solve := m₀ }, w) (c, w₁)

theorem PassesThrough.next {r : Resolver ω} (h : PassesThrough r deps w c w₁)
    (hturn : turn r c w₁ = .ok (some c') w₂) : PassesThrough r deps w c' w₂ := by
  obtain ⟨m₀, changed, hseed, hrun⟩ := h
  exact ⟨m₀, changed, hseed, hrun.tail hturn⟩

/-- What the roots set up and every turn keeps holds throughout the resolution. -/
theorem PassesThrough.preserves {r : Resolver ω} {P : Config → Prop}
    (h : PassesThrough r deps w c w₁)
    (hseed : ∀ m₀ changed, addAll r.overrides true .empty deps = .ok (m₀, changed) →
      P { solve := m₀ })
    (hnext : ∀ b c' w₂ w₃, PassesThrough r deps w b w₂ → P b → turn r b w₂ = .ok (some c') w₃ →
      P c') : P c := by
  obtain ⟨m₀, changed, hm₀, hrun⟩ := h
  suffices hall : ∀ y : Config × ω, Relation.ReflTransGen (Turn r) ({ solve := m₀ }, w) y → P y.1
    from hall (c, w₁) hrun
  intro y hy
  induction hy with
  | refl => exact hseed m₀ changed hm₀
  | @tail b y hb hturn ih => exact hnext b.1 y.1 b.2 y.2 ⟨m₀, changed, hm₀, hb⟩ ih hturn

/-- At every turn of the resolution, a pick that keeps the recorded version brings a sidecar whose
declarations are already gathered. -/
def RepicksAgree (r : Resolver ω) (deps : List DependencySpec) (w : ω) : Prop :=
  ∀ c w₁, PassesThrough r deps w c w₁ → ∀ name s, c.solve.keys[c.i]? = some name →
    c.solve.find? name = some s → RepickAgrees r c.solve name s w₁

theorem inv_turn {r : Resolver ω} (hinv : Inv r deps c.solve)
    (hre : ∀ name s, c.solve.keys[c.i]? = some name → c.solve.find? name = some s →
      RepickAgrees r c.solve name s w) (h : turn r c w = .ok (some c') w') :
    Inv r deps c'.solve := by
  obtain ⟨name, m', again, hk, hv, heq⟩ | ⟨-, -, heq, -⟩ | ⟨-, -, heq, -⟩ := turn_eq_ok h
  · cases heq
    have hs := find?_of_key hk r.overrides
    exact inv_visit hinv hs (hre name _ hk hs) hv
  · cases heq
    exact hinv
  · cases heq

theorem passesThrough_inv {r : Resolver ω} (hre : RepicksAgree r deps w)
    (h : PassesThrough r deps w c w₁) : Inv r deps c.solve ∧ PassInv c :=
  h.preserves (P := fun c => Inv r deps c.solve ∧ PassInv c)
    (fun _ _ hseed => ⟨inv_seed hseed, fun _ j hj => absurd hj (Nat.not_lt_zero j)⟩)
    fun b _ w₂ _ hb ih hturn => ⟨inv_turn ih.1 (hre b w₂ hb) hturn, passInv_turn ih.2 hturn⟩

theorem resolveState_loop {r : Resolver ω} (h : resolveState r fuel deps w = .ok (some m) w') :
    ∃ m₀ changed w₁, addAll r.overrides true .empty deps = .ok (m₀, changed) ∧
      solveLoop r fuel { solve := m₀ } w = .ok (some m) w₁ := by
  simp only [resolveState, EStateM.bind_eq_ok, EStateM.ofResult_eq_ok, EStateM.pure_eq_ok] at h
  obtain ⟨-, w₀, ⟨-, rfl⟩, ⟨m₀, changed⟩, w₁, ⟨hseed, rfl⟩, m', w₂, hloop, _, w₃, -, rfl, rfl⟩ := h
  exact ⟨m₀, changed, w₂, hseed, hloop⟩

theorem resolveState_eq_ok {r : Resolver ω} (h : resolveState r fuel deps w = .ok (some m) w') :
    ∃ c w₁ w₂, PassesThrough r deps w c w₁ ∧ turn r c w₁ = .ok none w₂ ∧ m = c.solve := by
  obtain ⟨m₀, changed, w₂, hseed, hloop⟩ := resolveState_loop h
  obtain ⟨c, w₁, hrun, hend, rfl⟩ := solveLoop_run hloop
  exact ⟨c, w₁, w₂, ⟨m₀, changed, hseed, hrun⟩, hend, rfl⟩

theorem clean_of_end {r : Resolver ω} (hpass : PassInv c) (h : turn r c w = .ok none w')
    (hs : c.solve.find? n = some s) : s.dirty = false := by
  obtain ⟨_, _, _, _, _, heq⟩ | ⟨-, -, heq, -⟩ | ⟨hk, hclean, -, -⟩ := turn_eq_ok h
  · cases heq
  · cases heq
  · obtain ⟨j, hj, hn⟩ := List.getElem_of_mem (OrderedMap.mem_keys_of_find? hs)
    rw [← isDirty_of_find? hs]
    refine hpass hclean j ?_ n (by rw [List.getElem?_eq_getElem hj, hn])
    exact Nat.lt_of_lt_of_le hj (List.getElem?_eq_none_iff.mp hk)

theorem Inv.placed_recorded {r : Resolver ω} {m : Solve} (hinv : Inv r deps m)
    (h : Placed r.host.toManifestReader deps m d) : Recorded m d := by
  obtain ⟨hd, hv⟩ | ⟨name, s, hs, hd⟩ := h
  · exact hinv.roots d hd hv
  · exact hinv.closed name s hs d hd

theorem Inv.consistent {r : Resolver ω} {m : Solve} (hinv : Inv r deps m)
    (hclean : ∀ n s, m.find? n = some s → s.dirty = false) :
    Consistent r deps m (graph deps m) where
  once d hd := by
    obtain ⟨s, hs, -⟩ := hinv.placed_recorded hd
    exact count_name_packages hs
  satisfied p hp hu d hd hdn := by
    obtain ⟨s, hs, heq⟩ := mem_packages hp
    obtain ⟨t, ht, hmem⟩ := hinv.placed_recorded hd
    rw [hdn, hs] at ht
    cases ht
    obtain ⟨hrepo, heff⟩ := hinv.unforced hs hu
    rw [heq]
    exact hinv.picked _ s hs (hclean _ s hs) hrepo _ (heff ▸ hmem)
  forced p hp o ho := by
    obtain ⟨s, hs, heq⟩ := mem_packages hp
    obtain ⟨hrepo, heff⟩ := hinv.versionForced hs ho
    rw [heq]
    exact hinv.picked _ s hs (hclean _ s hs) hrepo _ (heff ▸ List.mem_singleton_self _)

/-!
## The loop ends

Over finitely many declarations the loop runs out of things to add. A turn that leaves something
to pick has gathered a constraint or set a pin that was not there before, and a pass that leaves
nothing to pick is the last one.
-/

/-- The constraint of `d` is yet to be gathered. -/
def missing (m : Solve) (d : DependencySpec) : Bool :=
  !(m.find? d.name).any (·.constraints.contains d.versionConstraint)

/-- The pin of `d` is yet to be set. -/
def unpinned (m : Solve) (d : DependencySpec) : Bool :=
  d.fromRepo.isSome && !(m.find? d.name).any (·.fromRepo.isSome)

/-- How much of a set of declarations is still to come. -/
def remaining (U : List DependencySpec) (m : Solve) : Nat :=
  U.countP (missing m) + U.countP (unpinned m)

theorem missing_eq_false {m : Solve} : missing m d = false ↔ Recorded m d := by
  simp [missing, Recorded, Option.any_eq_true]

theorem Extends.missing {m m' : Solve} (h : Extends o m m') (hd : missing m' d = true) :
    missing m d = true := by
  by_contra hm
  have hrec := missing_eq_false.mp (Bool.eq_false_iff.mpr hm)
  rw [missing_eq_false.mpr (h.recorded hrec)] at hd
  cases hd

theorem Extends.unpinned {m m' : Solve} (h : Extends o m m') (hd : unpinned m' d = true) :
    unpinned m d = true := by
  simp only [Buildtool.unpinned, Bool.and_eq_true, Bool.not_eq_true'] at hd ⊢
  refine ⟨hd.1, ?_⟩
  cases hs : m.find? d.name with
  | none => rfl
  | some s =>
    obtain ⟨s', hs', hg⟩ := h.find? hs
    cases hp : s.fromRepo with
    | none => simp [hp]
    | some p => simp [hs', hg.fromRepo p hp] at hd

theorem countP_lt {p q : α → Bool} {l : List α} (hle : ∀ a, q a = true → p a = true) (ha : a ∈ l)
    (hp : p a = true) (hq : q a = false) : l.countP q < l.countP p := by
  induction l with
  | nil => cases ha
  | cons x xs ih =>
    have hmono : xs.countP q ≤ xs.countP p := List.countP_mono_left fun a _ => hle a
    obtain rfl | ha := List.mem_cons.mp ha
    · simp only [List.countP_cons, hp, hq]
      simp only [Bool.false_eq_true, if_false, if_true]
      omega
    · have := ih ha
      simp only [List.countP_cons]
      split
      · next hx => rw [if_pos (hle x hx)]; omega
      · split <;> omega

theorem Extends.remaining_le {m m' : Solve} (h : Extends o m m') (U : List DependencySpec) :
    remaining U m' ≤ remaining U m :=
  Nat.add_le_add (List.countP_mono_left fun _ _ => h.missing)
    (List.countP_mono_left fun _ _ => h.unpinned)

theorem addConstraint_remaining {m : Solve} (h : addConstraint o m d false = .ok (m', true))
    (hd : d ∈ U) : remaining U m' < remaining U m := by
  have hext := addConstraint_extends h
  obtain ⟨-, hm', hch⟩ := addConstraint_eq_ok h
  have hcases : missing m d = true ∨ (unpinned m d = true ∧ unpinned m' d = false) := by
    cases hs : m.find? d.name with
    | none => exact .inl (by simp [missing, hs])
    | some s =>
      have hpin : d.fromRepo.isSome = true → unpinned m' d = false := by
        intro hf
        subst hm'
        obtain ⟨p, hp⟩ := Option.isSome_iff_exists.mp hf
        cases hk : s.fromRepo <;> simp [unpinned, known, hs, MvsState.add, hp, hk]
      rw [known_of_find? hs, hs] at hch
      simp only [Option.isNone_some, Bool.false_or, MvsState.changedBy, Bool.false_and,
        Bool.or_false] at hch
      obtain hc | hf := Bool.or_eq_true_iff.mp hch.symm
      · exact .inl (by simpa [missing, hs] using hc)
      · obtain ⟨hsome, hnone⟩ := Bool.and_eq_true_iff.mp hf
        refine .inr ⟨?_, hpin hsome⟩
        simp only [unpinned, hsome, hs, Option.any_some, Bool.true_and]
        rw [Option.isNone_iff_eq_none.mp hnone]
        rfl
  obtain hmiss | ⟨hun, hpinned⟩ := hcases
  · exact Nat.add_lt_add_of_lt_of_le
      (countP_lt (fun _ => hext.missing) hd hmiss (missing_eq_false.mpr (addConstraint_recorded h)))
      (List.countP_mono_left fun _ _ => hext.unpinned)
  · exact Nat.add_lt_add_of_le_of_lt (List.countP_mono_left fun _ _ => hext.missing)
      (countP_lt (fun _ => hext.unpinned) hd hun hpinned)

theorem addAll_remaining {m : Solve} (h : addAll o false m ds = .ok (m', true))
    (hds : ∀ d ∈ ds, d.versioned = true → d ∈ U) : remaining U m' < remaining U m := by
  induction ds generalizing m with
  | nil => cases h
  | cons d ds ih =>
    have hds' := fun e he => hds e (List.mem_cons_of_mem d he)
    obtain ⟨-, h⟩ | ⟨hv, m₁, c₁, c₂, h₁, h₂, hc⟩ := addAll_cons_eq_ok h
    · exact ih h hds'
    · have hle := (addAll_extends h₂).remaining_le U
      cases c₁ with
      | true =>
        exact Nat.lt_of_le_of_lt hle (addConstraint_remaining h₁ (hds d List.mem_cons_self hv))
      | false =>
        obtain rfl : true = c₂ := by simpa using hc
        exact Nat.lt_of_lt_of_le (ih h₂ hds') ((addConstraint_extends h₁).remaining_le U)

/-! ## The measure of a turn -/

/-- Every declaration a pick can bring is one of `U`. -/
def DrawsFrom (r : Resolver ω) (U : List DependencySpec) : Prop :=
  ∀ m name s w p w', Wired r.overrides m → m.find? name = some s → choose r name s w = .ok p w' →
    ∀ d ∈ declaredDeps r.host.toManifestReader name p.version p.manifestJson, d ∈ U

/-- Every package is one that some declaration names. -/
def NamedIn (U : List DependencySpec) (m : Solve) : Prop := ∀ n ∈ m.keys, n ∈ U.map (·.name)

theorem remaining_set {m : Solve} (hs : m.find? name = some s) (U : List DependencySpec)
    (hc : s₁.constraints = s.constraints) (hp : s₁.fromRepo = s.fromRepo) :
    remaining U (m.set name s₁) = remaining U m := by
  have hmissing : missing (m.set name s₁) = missing m := by
    funext d
    simp only [missing, OrderedMap.find?_set]
    split
    · next hn => rw [hn, hs]; simp [hc]
    · rfl
  have hunpinned : unpinned (m.set name s₁) = unpinned m := by
    funext d
    simp only [unpinned, OrderedMap.find?_set]
    split
    · next hn => rw [hn, hs]; simp [hp]
    · rfl
  rw [remaining, hmissing, hunpinned, remaining]

/-- A turn leaves no more to come, and less when it leaves something to pick. -/
theorem visit_remaining {r : Resolver ω} {m : Solve} (hU : DrawsFrom r U)
    (hw : Wired r.overrides m) (hs : m.find? name = some s)
      (h : visit r m name s w = .ok (m', again) w') :
    remaining U m' ≤ remaining U m ∧ (again = true → remaining U m' < remaining U m) := by
  obtain ⟨-, rfl, rfl, -⟩ | ⟨p, -, hp, ⟨-, rfl, rfl⟩ | ⟨-, hprop⟩⟩ := visit_eq_ok h
  · exact ⟨Nat.le_refl _, fun hf => by cases hf⟩
  · exact ⟨Nat.le_of_eq (remaining_set hs U rfl rfl), fun hf => by cases hf⟩
  · obtain ⟨kids, added, hkids, hadd, rfl⟩ := propagate_eq_ok hprop
    have hset : remaining U (m.set name { s.record p with childDeps := kids }) = remaining U m :=
      remaining_set hs U rfl rfl
    have hmem : ∀ d ∈ kids, d.versioned = true → d ∈ U := by
      intro d hd hv
      refine hU m name s w p w' hw hs hp d ?_
      rw [declaredDeps, hkids]
      exact List.mem_filter.mpr ⟨hd, hv⟩
    refine ⟨hset ▸ (addAll_extends hadd).remaining_le U, fun hagain => ?_⟩
    cases added with
    | true => exact hset ▸ addAll_remaining hadd hmem
    | false =>
      -- with nothing added, the package is as the pick left it: clean
      rw [Bool.false_or, isDirty, addAll_unchanged hadd, OrderedMap.find?_set_self] at hagain
      cases hagain

theorem addAll_namedIn {m : Solve} (h : addAll o b m ds = .ok (m', changed))
    (hds : ∀ d ∈ ds, d.versioned = true → d ∈ U) (hm : NamedIn U m) : NamedIn U m' := by
  induction ds generalizing m changed with
  | nil => cases h; exact hm
  | cons d ds ih =>
    have hds' := fun e he => hds e (List.mem_cons_of_mem d he)
    obtain ⟨-, h⟩ | ⟨hv, m₁, c₁, c₂, h₁, h₂, -⟩ := addAll_cons_eq_ok h
    · exact ih h hds' hm
    · refine ih h₂ hds' ?_
      obtain ⟨-, rfl, -⟩ := addConstraint_eq_ok h₁
      intro n hn
      rw [OrderedMap.mem_keys, OrderedMap.find?_set] at hn
      split at hn
      · next hnd => exact List.mem_map.mpr ⟨d, hds d List.mem_cons_self hv, hnd.symm⟩
      · exact hm n ((m.mem_keys n).mpr hn)

theorem visit_namedIn {r : Resolver ω} {m : Solve} (hU : DrawsFrom r U)
    (hw : Wired r.overrides m) (hs : m.find? name = some s)
    (h : visit r m name s w = .ok (m', again) w') (hm : NamedIn U m) : NamedIn U m' := by
  have hset : ∀ s₁, NamedIn U (m.set name s₁) := by
    intro s₁ n hn
    rw [OrderedMap.keys_set_of_mem (OrderedMap.mem_keys_of_find? hs)] at hn
    exact hm n hn
  obtain ⟨-, rfl, -, -⟩ | ⟨p, -, hp, ⟨-, rfl, -⟩ | ⟨-, hprop⟩⟩ := visit_eq_ok h
  · exact hm
  · exact hset _
  · obtain ⟨kids, added, hkids, hadd, -⟩ := propagate_eq_ok hprop
    refine addAll_namedIn hadd (fun d hd hv => hU m name s w p w' hw hs hp d ?_) (hset _)
    rw [declaredDeps, hkids]
    exact List.mem_filter.mpr ⟨hd, hv⟩

theorem visit_wired {r : Resolver ω} {m : Solve} (hw : Wired r.overrides m)
    (hs : m.find? name = some s) (h : visit r m name s w = .ok (m', again) w') :
    Wired r.overrides m' := by
  obtain ⟨-, rfl, -, -⟩ | ⟨p, -, -, ⟨-, rfl, -⟩ | ⟨-, hprop⟩⟩ := visit_eq_ok h
  · exact hw
  · exact wired_record hw hs p s.childDeps
  · obtain ⟨kids, added, -, hadd, -⟩ := propagate_eq_ok hprop
    exact (addAll_extends hadd).wired (wired_record hw hs p kids)

theorem length_keys_le {m : Solve} (hm : NamedIn U m) : m.keys.length ≤ U.length := by
  have hsub := (List.subperm_of_subset m.nodup fun n hn => hm n hn).length_le
  rwa [List.length_map] at hsub

/-- The turns a configuration still has before it, at most. -/
def turnsLeft (U : List DependencySpec) (c : Config) : Nat :=
  (2 * remaining U c.solve + c.anyDirty.toNat) * (U.length + 2) + (U.length + 1 - c.i)

theorem turn_decreases {r : Resolver ω} (hU : DrawsFrom r U) (hw : Wired r.overrides c.solve)
    (hm : NamedIn U c.solve) (h : turn r c w = .ok (some c') w') :
    turnsLeft U c' < turnsLeft U c ∧ Wired r.overrides c'.solve ∧ NamedIn U c'.solve := by
  obtain ⟨name, m', again, hk, hv, heq⟩ | ⟨-, hd, heq, -⟩ | ⟨-, -, heq, -⟩ := turn_eq_ok h
  · cases heq
    have hs := find?_of_key hk r.overrides
    obtain ⟨hle, hlt⟩ := visit_remaining hU hw hs hv
    have hi : c.i < U.length :=
      Nat.lt_of_lt_of_le (List.getElem?_eq_some_iff.mp hk).1 (length_keys_le hm)
    refine ⟨?_, visit_wired hw hs hv, visit_namedIn hU hw hs hv hm⟩
    have hcount : 2 * remaining U m' + (c.anyDirty || again).toNat ≤
        2 * remaining U c.solve + c.anyDirty.toNat := by
      cases again with
      | false => rw [Bool.or_false]; omega
      | true =>
        have := hlt rfl
        rw [Bool.or_true, Bool.toNat_true]
        omega
    have hmul := Nat.mul_le_mul_right (U.length + 2) hcount
    simp only [turnsLeft]
    omega
  · cases heq
    refine ⟨?_, hw, hm⟩
    simp only [turnsLeft, hd, Bool.toNat_true, Bool.toNat_false, Nat.add_mul]
    omega
  · cases heq

theorem solveLoop_ends {r : Resolver ω} (hU : DrawsFrom r U) (hw : Wired r.overrides c.solve)
    (hm : NamedIn U c.solve)
    (hgo : ∀ c' w', Relation.ReflTransGen (Turn r) (c, w) (c', w') →
      ∃ x w'', turn r c' w' = .ok x w'')
    (hfuel : turnsLeft U c < fuel) : ∃ m w', solveLoop r fuel c w = .ok (some m) w' := by
  induction fuel generalizing c w with
  | zero => exact absurd hfuel (Nat.not_lt_zero _)
  | succ fuel ih =>
    obtain ⟨x, w₁, hx⟩ := hgo c w .refl
    simp only [solveLoop]
    cases x with
    | none => exact ⟨c.solve, w₁, EStateM.bind_eq_ok.mpr ⟨none, w₁, hx, rfl⟩⟩
    | some c₁ =>
      obtain ⟨hlt, hw₁, hm₁⟩ := turn_decreases hU hw hm hx
      obtain ⟨m, w₂, hloop⟩ := ih hw₁ hm₁
        (fun c' w' hrun => hgo c' w' (.head (b := (c₁, w₁)) hx hrun)) (by omega)
      exact ⟨m, w₂, EStateM.bind_eq_ok.mpr ⟨some c₁, w₁, hx, hloop⟩⟩

end Cajeta.Buildtool
