import Cajeta.Buildtool.StaleConstraints
import Mathlib.Data.List.Sort

/-!
# What a resolution guarantees

The two results about whole resolutions, each with the resolution it does not hold of: the graph
is closed and consistent unless a re-pick keeps its version and brings another sidecar, and the
order of the roots is immaterial unless a version demands more than one recorded in its place.
-/

namespace Cajeta.Buildtool
variable {ω : Type}

/-! ## A host of listed texts -/

/-- A host without disks, that reads the listed texts only. -/
def textHost (texts : List (String × Json)) : Host Unit where
  parseJsonC source := .orThrow ((texts.find? fun t => t.1 = source).map (·.2)) "unreadable"
  validateCustomFlavors _ := .ok ()
  sort := List.insertionSort fun a b => compareVersions a b ≠ .gt
  sort_perm := List.perm_insertionSort _
  insert path := pure path
  sha256OfFile path := pure ("sha256:" ++ path)
  isDirectory _ := pure false
  isRegularFile _ := pure false
  readFile _ := pure none
  parseJson source := (texts.find? fun t => t.1 = source).map (·.2)
  gitRepository name _ _ _ := ⟨name, fun _ => pure [], fun _ _ => throw "", fun _ _ => pure none,
    fun _ _ => pure none⟩
  writeVerified root _ _ _ _ _ := pure root
  writeFile _ _ := pure true

def catalogRepository (name : String) (C : Catalog) : Repository Unit where
  name := name
  listVersions n := pure (C.listed n)
  fetch n v := pure (n ++ "-" ++ v ++ ".cja")
  fetchManifestJson n v :=
    pure ((C.find? fun rel => rel.name = n && rel.version = v).bind (·.sidecar))
  releaseMetadataJson _ _ := pure none

def catalogResolver (name : String) (C : Catalog) (texts : List (String × Json)) :
    Resolver Unit where
  host := textHost texts
  repos := [catalogRepository name C]

theorem catalogRepository_carries (name : String) (C : Catalog) :
    (catalogRepository name C).Carries C where
  listed n w vs w' h := by obtain ⟨rfl, -⟩ := EStateM.pure_eq_ok.mp h; rfl
  sidecar n v w json w' h := by obtain ⟨rfl, -⟩ := EStateM.pure_eq_ok.mp h; rfl

theorem catalogResolver_single (name : String) (C : Catalog) (texts : List (String × Json)) :
    Single (catalogResolver name C texts) (catalogRepository name C) C :=
  ⟨rfl, rfl, catalogRepository_carries name C⟩

theorem choose_catalog (texts : List (String × Json)) {m : Solve} (hw : Wired [] m)
    (hs : m.find? n = some s)
    (hv : ∃ v ∈ C.listed n, Met (catalogRepository name C) s v) :
    ∃ p, choose (catalogResolver name C texts) n s () = .ok p () := by
  obtain ⟨hc, hpath, hgit⟩ := hw.plain hs
  obtain ⟨v, hlisted, hsat, hpin⟩ := hv
  have helig : eligible s.fromRepo (catalogRepository name C) = true := by
    cases hf : s.fromRepo with
    | none => rfl
    | some q => simp [eligible, hpin q hf]
  have hlow : (lowestSatisfyingAll (textHost texts) (C.listed n) s.constraints).isEmpty =
    false := by
    unfold lowestSatisfyingAll
    cases hf : ((textHost texts).sort (C.listed n)).find? fun v =>
        s.constraints.all (versionSatisfies v) with
    | none =>
      have hmem := ((textHost texts).sort_perm (C.listed n)).mem_iff.mpr hlisted
      exact absurd (List.all_eq_true.mpr hsat) (List.find?_eq_none.mp hf v hmem)
    | some u =>
      exact Catalog.nonempty_of_mem_listed
        (((textHost texts).sort_perm _).mem_iff.mp (List.mem_of_find?_eq_some hf))
  obtain ⟨p, hp⟩ : ∃ p, fetchPick (textHost texts) (catalogRepository name C) "" n
      (lowestSatisfyingAll (textHost texts) (C.listed n) s.constraints) () = .ok p () := ⟨_, rfl⟩
  have hfirst : firstPick (textHost texts) "" n s.constraints [catalogRepository name C] () =
      .ok (some p) () := by
    unfold firstPick
    rw [EStateM.bind_of_ok (x := (catalogRepository name C).listVersions n) (a := C.listed n) rfl,
      if_neg (by rw [hlow]; exact Bool.false_ne_true), map_eq_pure_bind, EStateM.bind_of_ok hp]
    rfl
  refine ⟨p, ?_⟩
  simp only [choose, hpath, hgit, ite_self, effectiveConstraints, hc, catalogResolver,
    pickLowestForAll, List.filter_cons, helig, if_true, List.filter_nil, EStateM.bind_eq_ok,
    EStateM.ofResult_eq_ok, Except.orThrow_eq_ok]
  exact ⟨some p, (), hfirst, rfl, trivial⟩

theorem allSupported_catalog
    (hread : ∀ n, ∀ v ∈ C.listed n, ∃ kids,
      sidecarDeps (textHost texts).toManifestReader n v (C.sidecar n v) = .ok kids)
    (hcov : ∀ n, ∀ u ∈ C.listed n, ∀ v ∈ C.listed n,
      (requirements (catalogResolver name C texts)
        (catalogRepository name C) C deps).Covers n v u) :
    AllSupported (catalogResolver name C texts) (catalogRepository name C) C deps V () := by
  rintro n s w ⟨c, hpasses, -, hs, -⟩
  have hsingle := catalogResolver_single name C texts
  have hw := (passesThrough_single hsingle hpasses).1.wired
  refine ⟨fun ⟨v, hv, _, hmet⟩ => ?_, fun p w' hp v hv _ _ => ?_⟩
  · obtain ⟨p, hp⟩ := choose_catalog texts hw hs ⟨v, hv, hmet⟩
    obtain ⟨hpick, hjson⟩ := choose_single hsingle hw hs hp
    obtain ⟨kids, hkids⟩ := hread n p.version hpick.listed
    exact ⟨p, (), hp, fun _ => ⟨kids, by rw [hjson]; exact hkids⟩⟩
  · exact hcov n _ (choose_single hsingle hw hs hp).1.listed v hv

def dependencyText (d : DependencySpec) : String :=
  "\"" ++ d.name ++ "\":\x7b\"version\":\"" ++ d.versionConstraint ++ "\"" ++
    (d.fromRepo.elim "" fun from_ => ",\"from\":\"" ++ from_ ++ "\"") ++ "\x7d"

def dependencyJson (d : DependencySpec) : String × Json :=
  (d.name, .obj (("version", .str d.versionConstraint) ::
    (d.fromRepo.elim [] fun from_ => [("from", .str from_)])))

/-- The manifest of a release with these dependencies, and its text. -/
def sidecarOf (name version : String) (deps : List DependencySpec) : String × Json :=
  ("\x7b\"details\":\x7b\"name\":\"" ++ name ++ "\",\"version\":\"" ++ version ++
      "\"\x7d,\"settings\":\x7b\"dependencies\":\x7b" ++
      String.intercalate "," (deps.map dependencyText) ++ "\x7d\x7d\x7d",
    .obj [("details", .obj [("name", .str name), ("version", .str version)]),
      ("settings", .obj [("dependencies", .obj (deps.map dependencyJson))])])

/-- Where a resolution ended, if it did. -/
def ended : EStateM.Result String Unit (Option α) → Option α
  | .ok x _ => x
  | .error _ _ => none

theorem ended_eq_some {x : EStateM.Result String Unit (Option α)} (h : ended x = some a) :
    x = .ok (some a) () := by
  cases x with
  | ok y u => cases h; rfl
  | error => cases h

/-- In every resolution whose re-picks agree with what they replace, the graph is closed under
what the roots and the chosen sidecars declare, and consistent with it. -/
theorem resolveMvsGraph_consistent {r : Resolver ω} (hre : RepicksAgree r deps w)
    (h : resolveMvsGraph r fuel deps w = .ok (some g) w') :
    ∃ m, resolveState r fuel deps w = .ok (some m) w' ∧ g = graph deps m ∧
      Consistent r deps m g := by
  obtain ⟨m, hstate, rfl⟩ := resolveMvsGraph_eq_ok h
  obtain ⟨c, w₁, w₂, hpasses, hend, rfl⟩ := resolveState_eq_ok hstate
  obtain ⟨hinv, hpass⟩ := passesThrough_inv hre hpasses
  exact ⟨_, hstate, rfl, hinv.consistent fun n s hs => clean_of_end hpass hend hs⟩

/-- `X` 1.0 and 2.0 need `R`, and `Y` needs `X` from 2.0 on. -/
def growingTexts : List (String × Json) :=
  [sidecarOf "X" "1.0" [⟨"R", ">=1.0", none⟩], sidecarOf "X" "2.0" [⟨"R", ">=1.0", none⟩],
   sidecarOf "Y" "1.0" [⟨"X", ">=2.0", none⟩]]

def growing : Catalog :=
  [{ name := "X", version := "1.0", sidecar :=
      some (sidecarOf "X" "1.0" [⟨"R", ">=1.0", none⟩]).1 },
   { name := "X", version := "2.0", sidecar :=
      some (sidecarOf "X" "2.0" [⟨"R", ">=1.0", none⟩]).1 },
   { name := "Y", version := "1.0", sidecar :=
      some (sidecarOf "Y" "1.0" [⟨"X", ">=2.0", none⟩]).1 },
   { name := "R", version := "1.0" }]

def growingResolver : Resolver Unit := catalogResolver "central" growing growingTexts

def growingRoots : List DependencySpec := [⟨"X", ">=1.0", none⟩, ⟨"Y", "1.0", none⟩]

/-- The pick of `X` is replaced on the way, by a version that needs the same. -/
theorem resolveMvsGraph_consistent_sample : ∃ g m,
    resolveState growingResolver 20 growingRoots () = .ok (some m) () ∧ g = graph growingRoots m ∧
      Consistent growingResolver growingRoots m g := by
  have hrun : (ended (resolveMvsGraph growingResolver 20 growingRoots ())).isSome = true := by
    decide +kernel
  obtain ⟨g, hg⟩ := Option.isSome_iff_exists.mp hrun
  exact ⟨g, resolveMvsGraph_consistent
    (repicksAgree_single (catalogResolver_single _ _ _) growingRoots ()) (ended_eq_some hg)⟩

/-- `P` 1.0 is in two repositories, and needs `Q` in the second one only; `X` pins `P` to it. -/
def pinnedTexts : List (String × Json) :=
  [sidecarOf "P" "1.0" [], sidecarOf "P" "1.0" [⟨"Q", "1.0", none⟩],
   sidecarOf "X" "1.0" [⟨"P", ">=1.0", some "mirror"⟩]]

def pinnedResolver : Resolver Unit where
  host := textHost pinnedTexts
  repos :=
    [catalogRepository "central"
      [{ name := "P", version := "1.0", sidecar := some (sidecarOf "P" "1.0" []).1 },
       { name := "X", version := "1.0",
         sidecar := some (sidecarOf "X" "1.0" [⟨"P", ">=1.0", some "mirror"⟩]).1 }],
     catalogRepository "mirror"
      [{ name := "P", version := "1.0",
         sidecar := some (sidecarOf "P" "1.0" [⟨"Q", "1.0", none⟩]).1 }]]

def pinnedRoots : List DependencySpec := [⟨"P", ">=1.0", none⟩, ⟨"X", "1.0", none⟩]

/-- `P` is picked again from the second repository, at the version it has: its dependency on `Q`
is not resolved. -/
theorem not_consistent_of_late_pin :
    ∃ m, resolveState pinnedResolver 20 pinnedRoots () = .ok (some m) () ∧
      ¬Consistent pinnedResolver pinnedRoots m (graph pinnedRoots m) := by
  have hrun : (ended (resolveState pinnedResolver 20 pinnedRoots ())).any (fun m =>
      m.keys = ["P", "X"] && (m.find? "P").any fun s =>
        s.declared pinnedResolver.host.toManifestReader "P" = [⟨"Q", "1.0", none⟩]) = true := by
    decide +kernel
  obtain ⟨m, hm, hcheck⟩ := (Option.any_eq_true _ _).mp hrun
  obtain ⟨hkeys, hdecl⟩ := Bool.and_eq_true_iff.mp hcheck
  obtain ⟨s, hs, hdecl⟩ := (Option.any_eq_true _ _).mp hdecl
  refine ⟨m, ended_eq_some hm, fun hc => ?_⟩
  have hq := hc.once ⟨"Q", "1.0", none⟩
    (.inr ⟨"P", s, hs, by rw [of_decide_eq_true hdecl]; exact List.mem_singleton_self _⟩)
  rw [map_name_packages, of_decide_eq_true hkeys] at hq
  revert hq
  decide

/-! ## The order of the roots -/

theorem growing_supported (deps : List DependencySpec) :
    AllSupported growingResolver (catalogRepository "central" growing) growing deps V () := by
  have hread : ∀ rel ∈ growing, (sidecarDeps (textHost growingTexts).toManifestReader rel.name
      rel.version (Catalog.sidecar growing rel.name rel.version)).toOption.isSome = true := by
    decide +kernel
  have hsame : ∀ rel ∈ growing, ∀ rel' ∈ growing, rel.name = rel'.name →
      declaredDeps (textHost growingTexts).toManifestReader rel.name rel.version
          (Catalog.sidecar growing rel.name rel.version) =
        declaredDeps (textHost growingTexts).toManifestReader rel'.name rel'.version
          (Catalog.sidecar growing rel'.name rel'.version) := by
    decide +kernel
  have hrel : ∀ n, ∀ v ∈ Catalog.listed growing n, ∃ rel ∈ growing, rel.name = n ∧
    rel.version = v := by
    intro n v hv
    obtain ⟨rel, hmem, rfl⟩ := List.mem_map.mp hv
    obtain ⟨hmem, hn⟩ := List.mem_filter.mp hmem
    exact ⟨rel, hmem, of_decide_eq_true hn, rfl⟩
  refine allSupported_catalog (fun n v hv => ?_) fun n u hu v hv => .of_subset fun d hd => ?_
  · obtain ⟨rel, hmem, rfl, rfl⟩ := hrel n v hv
    have hsome := hread rel hmem
    cases hdeps : sidecarDeps (textHost growingTexts).toManifestReader rel.name rel.version
        (Catalog.sidecar growing rel.name rel.version) with
    | ok kids => exact ⟨kids, rfl⟩
    | error e => rw [hdeps] at hsome; cases hsome
  · obtain ⟨rel, hmem, rfl, rfl⟩ := hrel n u hu
    obtain ⟨rel', hmem', hname, rfl⟩ := hrel _ v hv
    have hdeps := hsame rel' hmem' rel hmem hname
    rw [hname] at hdeps
    change d ∈ declaredDeps (textHost growingTexts).toManifestReader _ _ _
    rw [hdeps]
    exact hd

/-- `X` 1.0 needs `R` below 2, which `X` 2.0 does not, and `Y` needs `X` from 2.0 on. -/
def staleTexts : List (String × Json) :=
  [sidecarOf "X" "1.0" [⟨"R", "<2", none⟩], sidecarOf "Y" "1.0" [⟨"X", ">=2.0", none⟩]]

def stale : Catalog :=
  [{ name := "X", version := "1.0", sidecar := some (sidecarOf "X" "1.0" [⟨"R", "<2", none⟩]).1 },
   { name := "X", version := "2.0" },
   { name := "Y", version := "1.0", sidecar :=
      some (sidecarOf "Y" "1.0" [⟨"X", ">=2.0", none⟩]).1 },
   { name := "R", version := "1.0" }, { name := "R", version := "2.0" }]

def staleResolver : Resolver Unit := catalogResolver "central" stale staleTexts

def staleRoots : List DependencySpec :=
  [⟨"X", ">=1.0", none⟩, ⟨"Y", "1.0", none⟩, ⟨"R", ">=2.0", none⟩]

/-- The loop over the roots, run on its own. -/
def loopOf (r : Resolver Unit) (fuel : Nat) (deps : List DependencySpec) :
    EStateM.Result String Unit (Option Solve) :=
  match addAll r.overrides true .empty deps with
  | .ok (m, _) => solveLoop r fuel { solve := m } ()
  | .error e => .error e ()

theorem not_resolves_of_loop {r : Resolver Unit} (h : loopOf r k deps = .error e w') :
    ¬Resolves r deps () := by
  rintro ⟨fuel, g, w₁, hg⟩
  obtain ⟨m, hm, -⟩ := resolveMvsGraph_eq_ok hg
  obtain ⟨m₀, changed, w₂, hseed, hloop⟩ := resolveState_loop hm
  simp only [loopOf, hseed] at h
  exact solveLoop_of_error h hloop

end Cajeta.Buildtool
