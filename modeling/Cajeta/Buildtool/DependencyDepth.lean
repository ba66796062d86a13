import Cajeta.Buildtool.DependencyCycles

/-!
# The depth limit

A package that the walk meets again is not expanded, even when its first expansion lay deeper and
was cut off by the limit. As long as that hides nothing, the tree lists every package within the
limit.
-/

namespace Cajeta.Buildtool

open DepthFirst

theorem DepNode.mem_names {c : DepNode} : y ∈ c.names ↔ y = c.name ∨ y ∈ childNames c.children := by
  cases c
  rw [DepNode.names, List.mem_cons]

namespace Walker

/-! ## What a walk lists -/

section Depth

variable {g : ResolvedGraph} {rootName : String} {d : Nat}

/-- The package was expanded at this level or above, or was met again at it. -/
def Met (w : Walker) (y : String) (level : Nat) : Prop :=
  ∃ m, (y, m) ∈ w.levels ∧ (m ≤ level ∨ (y, level) ∈ w.repeats)

/-- What a package leads to is among the names, and has been met where the limit lets it expand. -/
def Covers (g : ResolvedGraph) (rootName : String) (d : Nat) (w : Walker) (names : List String)
    (level : Nat) (y : String) : Prop :=
  y ∈ names ∧ (level + 1 ≤ d → (∃ z, (dependencyGraph g rootName).Edge y z) → w.Met y level)

/-- The levels and the packages met again only grow. -/
structure Grows (w w' : Walker) : Prop where
  path : w'.path = w.path
  levels : w.levels ⊆ w'.levels
  repeats : w.repeats ⊆ w'.repeats

/-- The walker is at `level`: each package on its way was expanded at this level or above, and each
package that has been expanded has a level. -/
structure Placed (rootName : String) (level : Nat) (w : Walker) : Prop where
  root : rootName ∈ w.path
  way : ∀ y ∈ w.path, ∃ m ≤ level, (y, m) ∈ w.levels
  expanded : ∀ y ∈ w.expanded, ∃ m, (y, m) ∈ w.levels

/-- What a walk leaves of the packages it expands. -/
structure Swept (g : ResolvedGraph) (rootName : String) (d : Nat) (w w' : Walker)
    (names : List String) : Prop where
  grows : Grows w w'
  expanded : ∀ y ∈ w'.expanded, ∃ m, (y, m) ∈ w'.levels
  inner : ∀ x m, (x, m) ∈ w'.levels → (x, m) ∈ w.levels ∨
    ∀ y, (dependencyGraph g rootName).Edge x y → Covers g rootName d w' names (m + 1) y

theorem Grows.refl (w : Walker) : Grows w w := ⟨rfl, List.Subset.refl _, List.Subset.refl _⟩

theorem Grows.trans (h : Grows w₁ w₂) (h' : Grows w₂ w₃) : Grows w₁ w₃ :=
  ⟨h'.path.trans h.path, List.Subset.trans h.levels h'.levels,
    List.Subset.trans h.repeats h'.repeats⟩

theorem Met.grows (h : Met w y level) (hgrows : Grows w w') : Met w' y level := by
  obtain ⟨m, hm, hle⟩ := h
  exact ⟨m, hgrows.levels hm, hle.imp_right (hgrows.repeats ·)⟩

theorem Covers.grows (h : Covers g rootName d w names level y) (hgrows : Grows w w')
    (hnames : names ⊆ names') : Covers g rootName d w' names' level y :=
  ⟨hnames h.1, fun hlevel hedge => (h.2 hlevel hedge).grows hgrows⟩

theorem Placed.swept (h : Placed rootName level w) (hswept : Swept g rootName d w w' names) :
    Placed rootName level w' where
  root := by
    rw [hswept.grows.path]
    exact h.root
  way y hy := by
    rw [hswept.grows.path] at hy
    obtain ⟨m, hm, hmem⟩ := h.way y hy
    exact ⟨m, hm, hswept.grows.levels hmem⟩
  expanded := hswept.expanded

theorem Swept.of_grows (hgrows : Grows w w') (hlevels : w'.levels = w.levels)
    (hexpanded : w'.expanded = w.expanded) (hplaced : Placed rootName level w)
    (names : List String) : Swept g rootName d w w' names where
  grows := hgrows
  expanded := by
    rw [hexpanded, hlevels]
    exact hplaced.expanded
  inner x m hmem := .inl (hlevels ▸ hmem)

theorem Swept.trans (h : Swept g rootName d w₁ w₂ names) (h' : Swept g rootName d w₂ w₃ names')
    (hnames : names ⊆ names'') (hnames' : names' ⊆ names'') :
    Swept g rootName d w₁ w₃ names'' where
  grows := h.grows.trans h'.grows
  expanded := h'.expanded
  inner x m hmem := by
    rcases h'.inner x m hmem with hmem | hcovers
    · rcases h.inner x m hmem with hmem | hcovers
      · exact .inl hmem
      · exact .inr fun y hedge => (hcovers y hedge).grows h'.grows hnames
    · exact .inr fun y hedge => (hcovers y hedge).grows (.refl _) hnames'

theorem grows_recordCycle (w : Walker) (name : String) : Grows w (w.recordCycle name) := by
  unfold recordCycle
  dsimp only
  split
  · exact .refl w
  · exact ⟨rfl, List.Subset.refl _, List.Subset.refl _⟩

theorem grows_meetAgain (w : Walker) (name : String) (level : Nat) :
    Grows w (w.meetAgain name level) :=
  ⟨rfl, List.Subset.refl _, List.subset_append_left _ _⟩

theorem Placed.enter (h : Placed rootName level w) (y : String) :
    Placed rootName (level + 1) (w.enter y (level + 1)) where
  root := List.mem_append_left _ h.root
  way z hz := by
    rcases List.mem_append.mp hz with hz | hz
    · obtain ⟨m, hm, hmem⟩ := h.way z hz
      exact ⟨m, by omega, List.mem_append_left _ hmem⟩
    · rw [List.mem_singleton.mp hz]
      exact ⟨level + 1, le_rfl, List.mem_append_right _ List.mem_cons_self⟩
  expanded z hz := by
    rcases Finset.mem_insert.mp hz with rfl | hz
    · exact ⟨level + 1, List.mem_append_right _ List.mem_cons_self⟩
    · obtain ⟨m, hmem⟩ := h.expanded z hz
      exact ⟨m, List.mem_append_left _ hmem⟩

theorem Swept.leave (h : Swept g rootName d (w.enter x level) w' names)
    (hcovers : ∀ y, (dependencyGraph g rootName).Edge x y →
      Covers g rootName d w' names (level + 1) y) :
    Swept g rootName d w w'.leave (x :: names) where
  grows := by
    refine ⟨?_, fun p hp => h.grows.levels (List.mem_append_left _ hp), h.grows.repeats⟩
    change w'.path.dropLast = _
    rw [h.grows.path]
    exact List.dropLast_concat
  expanded := h.expanded
  inner z m hmem := by
    have hleave : ∀ y n, Covers g rootName d w' names n y →
        Covers g rootName d w'.leave (x :: names) n y := fun y n hc =>
      ⟨List.mem_cons_of_mem _ hc.1, hc.2⟩
    rcases h.inner z m hmem with hmem | hinner
    · rcases List.mem_append.mp hmem with hmem | hmem
      · exact .inl hmem
      · cases List.mem_singleton.mp hmem
        exact .inr fun y hedge => hleave y _ (hcovers y hedge)
    · exact .inr fun y hedge => hleave y _ (hinner y hedge)

/-! ## One child -/

section Child

variable {visit : List DependencySpec → WalkM (List DepNode)} {spec : DependencySpec}
  {opt : DepTreeOptions}

theorem visitChild_repeated (hpath : spec.name ∉ w.path)
    (hexpanded : opt.dedupe = true ∧ spec.name ∈ w.expanded) :
    visitChild g opt visit childLevel spec w =
      .ok { make g spec with status := .repeated } (w.meetAgain spec.name childLevel) := by
  have hget : (get : WalkM Walker) w = .ok w w := rfl
  rw [← make_name (g := g) spec] at hpath hexpanded ⊢
  unfold visitChild
  rw [EStateM.bind_of_ok hget, if_neg hpath, if_pos hexpanded]
  rfl

theorem visitChild_expand_inv (hpath : spec.name ∉ w.path)
    (hexpanded : ¬(opt.dedupe = true ∧ spec.name ∈ w.expanded))
    (hknown : spec.name ∉ g.opaquePackages) (hcut : ¬cutOff opt childLevel)
    (hc : visitChild g opt visit childLevel spec w = .ok c w') :
    ∃ children w'', visit (g.childrenOf spec.name) (w.enter spec.name childLevel) =
      .ok children w'' ∧ c = { make g spec with children } ∧ w' = w''.leave := by
  cases hvisit : visit (g.childrenOf spec.name) (w.enter spec.name childLevel) with
  | ok children w'' =>
    rw [visitChild_expand hpath hexpanded hknown hcut hvisit] at hc
    cases hc
    exact ⟨children, w'', rfl, rfl, rfl⟩
  | error e w'' =>
    have hget : (get : WalkM Walker) w = .ok w w := rfl
    rw [← make_name (g := g) spec] at hpath hexpanded hknown hvisit
    have henter : (modify (·.enter (make g spec).name childLevel) : WalkM PUnit) w =
        .ok ⟨⟩ (w.enter (make g spec).name childLevel) := rfl
    unfold visitChild at hc
    rw [EStateM.bind_of_ok hget, if_neg hpath, if_neg hexpanded, if_neg hknown, if_neg hcut,
      EStateM.bind_of_ok henter] at hc
    obtain ⟨children, w₁, hok, -⟩ := EStateM.bind_eq_ok.mp hc
    rw [hvisit] at hok
    cases hok

theorem swept_passed (h : Passed w name childLevel w') (hplaced : Placed rootName level w)
    (names : List String) : Swept g rootName d w w' names := by
  rcases h with rfl | rfl
  · exact .of_grows (.refl w') rfl rfl hplaced names
  · exact .of_grows (grows_meetAgain w name childLevel) rfl rfl hplaced names

theorem swept_recordCycle (hplaced : Placed rootName level w) (name : String)
    (names : List String) : Swept g rootName d w (w.recordCycle name) names := by
  refine .of_grows (grows_recordCycle w name) ?_ ?_ hplaced names
  · unfold recordCycle
    dsimp only
    split <;> rfl
  · unfold recordCycle
    dsimp only
    split <;> rfl

theorem visitChild_swept (hplaced : Placed rootName level w)
    (hvisit : ∀ kids w children w', Placed rootName (level + 1) w →
      visit kids w = .ok children w' → Swept g rootName d w w' (childNames children) ∧
        ∀ child ∈ sorted kids, Covers g rootName d w' (childNames children) (level + 2) child.name)
    (hc : visitChild g { depth := d } visit (level + 1) spec w = .ok c w') :
    Swept g rootName d w w' c.names ∧ Covers g rootName d w' c.names (level + 1) spec.name := by
  have hself : ∀ c : DepNode, c.name = spec.name → spec.name ∈ c.names := fun c hc =>
    DepNode.mem_names.mpr (.inl hc.symm)
  by_cases hpath : spec.name ∈ w.path
  · rw [visitChild_again hpath] at hc
    cases hc
    have hswept := swept_recordCycle (g := g) (d := d) hplaced spec.name
    refine ⟨hswept _, hself _ (make_name spec), fun _ _ => ?_⟩
    obtain ⟨m, hm, hmem⟩ := hplaced.way _ hpath
    exact ⟨m, (hswept []).grows.levels hmem, .inl (by omega)⟩
  by_cases hexpanded : spec.name ∈ w.expanded
  · rw [visitChild_repeated hpath ⟨rfl, hexpanded⟩] at hc
    cases hc
    refine ⟨swept_passed (.inr rfl) hplaced _, hself _ (make_name spec), fun _ _ => ?_⟩
    obtain ⟨m, hmem⟩ := hplaced.expanded _ hexpanded
    exact ⟨m, hmem, .inr (List.mem_append_right _ List.mem_cons_self)⟩
  have hroot : spec.name ≠ rootName := fun h => hpath (h ▸ hplaced.root)
  by_cases hleaf : spec.name ∈ g.opaquePackages ∨ cutOff { depth := d } (level + 1)
  · obtain ⟨c', w'', hname, hc', hpassed⟩ :=
      visitChild_leaf { depth := d } (level + 1) visit hpath (.inr hleaf)
    rw [hc] at hc'
    cases hc'
    refine ⟨swept_passed hpassed hplaced _, hself _ hname, ?_⟩
    rintro hlevel ⟨z, hedge⟩
    rcases hleaf with hunknown | hcut
    · rw [WalkGraph.Edge, next_opaquePackage hroot hunknown] at hedge
      cases hedge
    · have := hcut.2
      push_cast at this
      omega
  rw [not_or] at hleaf
  obtain ⟨children, w'', hrun, rfl, rfl⟩ :=
    visitChild_expand_inv hpath (fun h => hexpanded h.2) hleaf.1 hleaf.2 hc
  obtain ⟨hswept, hcovers⟩ := hvisit _ _ _ _ (hplaced.enter spec.name) hrun
  have hnames : spec.name :: childNames children ⊆
    ({ make g spec with children } : DepNode).names := by
    intro y hy
    refine DepNode.mem_names.mpr ((List.mem_cons.mp hy).imp_left fun h => ?_)
    exact h.trans (make_name spec).symm
  have hleave := hswept.leave fun y hedge => by
    rw [WalkGraph.Edge, next_package hroot hleaf.1] at hedge
    obtain ⟨child, hchild, rfl⟩ := List.mem_map.mp hedge
    exact hcovers child hchild
  refine ⟨?_, hself _ (make_name spec), fun _ _ => ⟨level + 1, ?_, .inl le_rfl⟩⟩
  · exact (Swept.of_grows (.refl w) rfl rfl hplaced []).trans hleave (List.nil_subset _) hnames
  · exact hswept.grows.levels (List.mem_append_right _ List.mem_cons_self)

theorem mapM_visitChild_swept (hvisit : ∀ kids w children w', Placed rootName (level + 1) w →
      visit kids w = .ok children w' → Swept g rootName d w w' (childNames children) ∧
        ∀ child ∈ sorted kids, Covers g rootName d w' (childNames children) (level + 2) child.name)
    {specs : List DependencySpec} {w : Walker} {cs : List DepNode}
      (hplaced : Placed rootName level w)
    (hrun : specs.mapM (visitChild g { depth := d } visit (level + 1)) w = .ok cs w') :
    Swept g rootName d w w' (childNames cs) ∧
      ∀ spec ∈ specs, Covers g rootName d w' (childNames cs) (level + 1) spec.name := by
  induction specs generalizing w cs with
  | nil =>
    obtain ⟨rfl, rfl⟩ := EStateM.pure_eq_ok.mp hrun
    exact ⟨.of_grows (.refl w) rfl rfl hplaced _, fun _ h => absurd h List.not_mem_nil⟩
  | cons spec specs ih =>
    rw [List.mapM_cons] at hrun
    obtain ⟨c, w₁, hc, hrun⟩ := EStateM.bind_eq_ok.mp hrun
    obtain ⟨cs', w₂, hcs, hrun⟩ := EStateM.bind_eq_ok.mp hrun
    obtain ⟨rfl, rfl⟩ := EStateM.pure_eq_ok.mp hrun
    obtain ⟨hswept, hcovers⟩ := visitChild_swept hplaced hvisit hc
    obtain ⟨hswept', hcovers'⟩ := ih (hplaced.swept hswept) hcs
    have hhead : c.names ⊆ childNames (c :: cs') := List.subset_append_left _ _
    have htail : childNames cs' ⊆ childNames (c :: cs') := List.subset_append_right _ _
    refine ⟨hswept.trans hswept' hhead htail, ?_⟩
    rintro child (_ | ⟨_, hchild⟩)
    · exact hcovers.grows hswept'.grows hhead
    · exact (hcovers' child hchild).grows (.refl _) htail

end Child

theorem visit_swept (fuel level : Nat) (kids : List DependencySpec) (w : Walker)
    (cs : List DepNode) (w' : Walker) (hplaced : Placed rootName level w)
    (hrun : visit g { depth := d } fuel level kids w = .ok cs w') :
    Swept g rootName d w w' (childNames cs) ∧
      ∀ spec ∈ sorted kids, Covers g rootName d w' (childNames cs) (level + 1) spec.name := by
  induction fuel generalizing level kids w cs w' with
  | zero => cases hrun
  | succ fuel ih => exact mapM_visitChild_swept (ih (level + 1)) hplaced hrun

end Depth

end Walker

/-! ## What the tree lists -/

section Guarantees

variable {g : ResolvedGraph} {rootName : String} {d : Nat}

theorem placed_start : Walker.Placed rootName 0 (.start rootName) where
  root := List.mem_cons_self
  way y hy := ⟨0, le_rfl, by rw [List.mem_singleton.mp hy]; exact List.mem_cons_self⟩
  expanded _ h := absurd h (Finset.notMem_empty _)

/-- Whenever the walk meets a package at `level` that it has expanded at `m`, it lay no deeper then,
or no way from it leads beyond the limit from there. -/
def NothingHidden (g : ResolvedGraph) (rootName : String) (d : Nat) : Prop :=
  ∀ children w, Walker.visit g { depth := d } (walkFuel g) 0 g.roots (.start rootName) =
    .ok children w → ∀ x level m, (x, level) ∈ w.repeats → (x, m) ∈ w.levels →
      m ≤ level ∨ ¬∃ y, (dependencyGraph g rootName).Way x (d + 1 - m) y

/-- A package that lies above the limit and leads on is expanded early enough. -/
theorem expanded_of_way {w : Walker} (hstart : (rootName, 0) ∈ w.levels)
    (hcovers : ∀ x m, (x, m) ∈ w.levels → ∀ y, (dependencyGraph g rootName).Edge x y →
      Walker.Covers g rootName d w names (m + 1) y)
    (hnothing : ∀ x level m, (x, level) ∈ w.repeats → (x, m) ∈ w.levels →
      m ≤ level ∨ ¬∃ y, (dependencyGraph g rootName).Way x (d + 1 - m) y)
    (hway : (dependencyGraph g rootName).Way rootName k x) (hk : k + 1 ≤ d)
    (hleads : ∃ y, (dependencyGraph g rootName).Edge x y) :
    ∃ m, (x, m) ∈ w.levels ∧
      (m ≤ k ∨ ¬∃ y, (dependencyGraph g rootName).Way x (d + 1 - m) y) := by
  induction hway with
  | nil => exact ⟨0, hstart, .inl le_rfl⟩
  | @concat k x z _ hedge ih =>
    obtain ⟨m, hm, hle⟩ := ih (by omega) ⟨z, hedge⟩
    obtain ⟨y, hlast⟩ := hleads
    have hlimit : m + 2 ≤ d := by
      rcases hle with hle | hnone
      · omega
      · by_contra hlimit
        exact hnone (WalkGraph.Way.shorten (.cons hedge (.cons hlast .nil)) (by omega))
    obtain ⟨j, hj, hmet⟩ := (hcovers x m hm z hedge).2 hlimit ⟨y, hlast⟩
    refine ⟨j, hj, ?_⟩
    have hearly : j ≤ m + 1 ∨ ¬∃ y, (dependencyGraph g rootName).Way z (d + 1 - j) y :=
      hmet.elim .inl fun hagain => hnothing z (m + 1) j hagain hj
    rcases hearly with hearly | hnone
    · rcases hle with hle | hnone
      · exact .inl (by omega)
      -- a way from `z` to beyond the limit would lead on from `x`
      · refine .inr fun ⟨y', hway⟩ => hnone ?_
        obtain ⟨y'', hshort⟩ := hway.shorten (show d - m ≤ d + 1 - j by omega)
        have hlong := hshort.cons hedge
        rw [show d - m + 1 = d + 1 - m by omega] at hlong
        exact ⟨y'', hlong⟩
    · exact .inr hnone

end Guarantees

def anyVersion (name : String) : DependencySpec := { name, versionConstraint := "*" }

/-- `b` leads to `a`, which the walk has expanded above it. -/
def levelledGraph : ResolvedGraph where
  packages := []
  roots := [anyVersion "b", anyVersion "a"]
  children := [("a", [anyVersion "e"]), ("b", [anyVersion "a"]), ("e", [anyVersion "f"])]
  opaquePackages := []

/-- `c` is a root, but the walk has expanded it below `a` before. -/
def shortcutGraph : ResolvedGraph where
  packages := []
  roots := [anyVersion "c", anyVersion "a"]
  children := [("a", [anyVersion "c"]), ("c", [anyVersion "e"]), ("e", [anyVersion "f"])]
  opaquePackages := []

end Cajeta.Buildtool
