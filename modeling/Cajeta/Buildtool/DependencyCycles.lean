import Cajeta.Buildtool.DependencyTree
import Cajeta.Lib.DepthFirst
import Mathlib.Data.List.Chain

/-!
# Dependency cycles

The walk over the dependencies ends for every graph, as no way goes through a package twice. Every
cycle it reports is one, and it reports one whenever one can be reached.
-/

namespace Cajeta.Buildtool

open DepthFirst

/-- The project leads to the roots and a package to what it has declared. The children of a package
without a manifest are unknown. -/
def dependencyGraph (g : ResolvedGraph) (rootName : String) : WalkGraph String String where
  next name :=
    if name = rootName then (Walker.sorted g.roots).map (·.name)
    else if name ∈ g.opaquePackages then []
    else (Walker.sorted (g.childrenOf name)).map (·.name)
  label := id
  Bad _ := False

theorem mem_sorted {specs : List DependencySpec} : spec ∈ Walker.sorted specs ↔ spec ∈ specs :=
  List.mem_insertionSort _

section Edges

variable {g : ResolvedGraph} {rootName : String}

theorem next_root : (dependencyGraph g rootName).next rootName =
    (Walker.sorted g.roots).map (·.name) := if_pos rfl

theorem next_package (hroot : name ≠ rootName) (hknown : name ∉ g.opaquePackages) :
    (dependencyGraph g rootName).next name =
      (Walker.sorted (g.childrenOf name)).map (·.name) := by
  change ite _ _ _ = _
  rw [if_neg hroot, if_neg hknown]

theorem next_opaquePackage (hroot : name ≠ rootName) (hunknown : name ∈ g.opaquePackages) :
    (dependencyGraph g rootName).next name = [] := by
  change ite _ _ _ = _
  rw [if_neg hroot, if_pos hunknown]

theorem childrenOf_names (h : spec ∈ g.childrenOf name) : spec.name ∈ g.names := by
  unfold ResolvedGraph.childrenOf at h
  cases hfind : g.children.find? (·.1 = name) with
  | none =>
    rw [hfind] at h
    cases h
  | some kv =>
    rw [hfind] at h
    refine List.mem_append_right _ (List.mem_flatMap.mpr ⟨kv, List.mem_of_find?_eq_some hfind, ?_⟩)
    exact List.mem_map.mpr ⟨spec, h, rfl⟩

theorem dependencyGraph_closed : ∀ x ∈ rootName :: g.names,
    ∀ y ∈ (dependencyGraph g rootName).next x, y ∈ rootName :: g.names := by
  intro x _ y hy
  refine List.mem_cons_of_mem _ ?_
  change y ∈ ite _ _ _ at hy
  split at hy
  · obtain ⟨spec, hspec, rfl⟩ := List.mem_map.mp hy
    exact List.mem_append_left _ (List.mem_map.mpr ⟨spec, mem_sorted.mp hspec, rfl⟩)
  split at hy
  · cases hy
  · obtain ⟨spec, hspec, rfl⟩ := List.mem_map.mp hy
    exact childrenOf_names (mem_sorted.mp hspec)

end Edges

namespace Walker

section Child

variable {g : ResolvedGraph} {opt : DepTreeOptions} {childLevel : Nat} {spec : DependencySpec}
  {w : Walker} {visit : List DependencySpec → WalkM (List DepNode)}

theorem make_name (spec : DependencySpec) : (make g spec).name = spec.name := by
  unfold make
  split <;> rfl

theorem visitChild_again (hpath : spec.name ∈ w.path) :
    visitChild g opt visit childLevel spec w =
      .ok { make g spec with status := .cycle } (w.recordCycle spec.name) := by
  have hget : (get : WalkM Walker) w = .ok w w := rfl
  rw [← make_name (g := g) spec] at hpath ⊢
  unfold visitChild
  rw [EStateM.bind_of_ok hget, if_pos hpath]
  rfl

/-- A child that is not expanded leaves no more than that it has been met again. -/
def Passed (w : Walker) (name : String) (childLevel : Nat) (w' : Walker) : Prop :=
  w' = w ∨ w' = w.meetAgain name childLevel

variable (opt childLevel visit) in
theorem visitChild_leaf (hpath : spec.name ∉ w.path)
    (hleaf : (opt.dedupe = true ∧ spec.name ∈ w.expanded) ∨ spec.name ∈ g.opaquePackages ∨
      cutOff opt childLevel) :
    ∃ c w', c.name = spec.name ∧ visitChild g opt visit childLevel spec w = .ok c w' ∧
      Passed w spec.name childLevel w' := by
  have hget : (get : WalkM Walker) w = .ok w w := rfl
  have hname := make_name (g := g) spec
  rw [← hname] at hpath hleaf
  unfold visitChild
  rw [EStateM.bind_of_ok hget, if_neg hpath]
  split
  · exact ⟨{ make g spec with status := .repeated }, _, hname, rfl, .inr (hname ▸ rfl)⟩
  split
  · exact ⟨{ make g spec with status := .opaquePackage }, w, hname, rfl, .inl rfl⟩
  split
  · split
    · exact ⟨make g spec, w, hname, rfl, .inl rfl⟩
    · exact ⟨{ make g spec with status := .truncated }, w, hname, rfl, .inl rfl⟩
  · next hexpanded hknown hcut =>
    exact absurd hleaf (by simp [hexpanded, hknown, hcut])

theorem visitChild_expand (hpath : spec.name ∉ w.path)
    (hexpanded : ¬(opt.dedupe = true ∧ spec.name ∈ w.expanded))
    (hknown : spec.name ∉ g.opaquePackages) (hcut : ¬cutOff opt childLevel)
    (hvisit : visit (g.childrenOf spec.name) (w.enter spec.name childLevel) = .ok children w') :
    visitChild g opt visit childLevel spec w =
      .ok { make g spec with children } w'.leave := by
  have hget : (get : WalkM Walker) w = .ok w w := rfl
  rw [← make_name (g := g) spec] at hpath hexpanded hknown hvisit
  have henter : (modify (·.enter (make g spec).name childLevel) : WalkM PUnit) w =
      .ok ⟨⟩ (w.enter (make g spec).name childLevel) := rfl
  unfold visitChild
  rw [EStateM.bind_of_ok hget, if_neg hpath, if_neg hexpanded, if_neg hknown, if_neg hcut,
    EStateM.bind_of_ok henter, EStateM.bind_of_ok hvisit]
  rfl

end Child

/-! ## Every walk ends -/

section Visits

variable {g : ResolvedGraph} {rootName : String} {opt : DepTreeOptions}

/-- A way that leads over edges back to where it starts. -/
def ClosedWay (g : ResolvedGraph) (rootName : String) (cyc : List String) : Prop :=
  (∃ x mid, cyc = x :: mid ++ [x]) ∧ cyc.IsChain (dependencyGraph g rootName).Edge

structure OnWay (g : ResolvedGraph) (rootName : String) (w : Walker) (x : String) : Prop where
  last : ∃ before, w.path = before ++ [x]
  chain : w.path.IsChain (dependencyGraph g rootName).Edge
  root : rootName ∈ w.path

/-- Every key is that of a cycle that has been found. -/
def Keyed (w : Walker) : Prop := ∀ key ∈ w.cycleKeys, ∃ cyc ∈ w.cycles, formatCycle cyc = key

/-- What a walk leaves: it is back where it was, and has found closed ways only. -/
structure Visited (g : ResolvedGraph) (rootName : String) (w w' : Walker) : Prop where
  path : w'.path = w.path
  cycles : w.cycles <+: w'.cycles
  closed : (∀ cyc ∈ w.cycles, ClosedWay g rootName cyc) →
    ∀ cyc ∈ w'.cycles, ClosedWay g rootName cyc
  keyed : Keyed w → Keyed w'

theorem Visited.refl (w : Walker) : Visited g rootName w w :=
  ⟨rfl, List.prefix_rfl, id, id⟩

theorem Visited.trans (h : Visited g rootName w₁ w₂) (h' : Visited g rootName w₂ w₃) :
    Visited g rootName w₁ w₃ :=
  ⟨h'.path.trans h.path, h.cycles.trans h'.cycles, fun hw => h'.closed (h.closed hw),
    fun hw => h'.keyed (h.keyed hw)⟩

theorem closedWay_cycleFrom (h : OnWay g rootName w x)
    (hedge : (dependencyGraph g rootName).Edge x y) (hy : y ∈ w.path) :
    ClosedWay g rootName (cycleFrom w.path y) := by
  obtain ⟨before, mid, hsplit, hbefore⟩ := List.eq_append_cons_of_mem hy
  have hdrop : w.path.dropWhile (· ≠ y) = y :: mid := by
    rw [hsplit, List.dropWhile_append_of_pos fun z hz => by
      rw [decide_eq_true_iff]
      rintro rfl
      exact hbefore hz]
    simp
  obtain ⟨init, hlast⟩ := h.last
  have hchain := h.chain
  rw [hsplit, List.isChain_split] at hchain
  unfold cycleFrom
  rw [hdrop]
  refine ⟨⟨y, mid, rfl⟩, ?_⟩
  -- the way from `y` ends in `x`, from which an edge leads to `y` again
  obtain ⟨init', hx⟩ : ∃ init', y :: mid = init' ++ [x] := by
    rcases List.eq_nil_or_concat mid with rfl | ⟨mid, z, rfl⟩
    · have := hsplit.symm.trans hlast
      exact ⟨[], by rw [(List.append_inj' this rfl).2]; rfl⟩
    · have := hsplit.symm.trans hlast
      rw [List.concat_eq_append, ← List.cons_append, ← List.append_assoc] at this
      rw [List.concat_eq_append, List.cons.inj (List.append_inj' this rfl).2 |>.1]
      exact ⟨y :: mid, rfl⟩
  rw [hx, List.append_assoc, List.singleton_append, List.isChain_append_cons_cons]
  rw [hx] at hchain
  exact ⟨hchain.2, hedge, List.isChain_singleton _⟩

theorem visited_recordCycle (h : OnWay g rootName w x)
    (hedge : (dependencyGraph g rootName).Edge x y) (hy : y ∈ w.path) :
    Visited g rootName w (w.recordCycle y) := by
  unfold recordCycle
  dsimp only
  split
  · exact .refl w
  · refine ⟨rfl, List.prefix_append _ _, fun hw cyc hcyc => ?_, fun hw key hkey => ?_⟩
    · rcases List.mem_append.mp hcyc with hcyc | hcyc
      · exact hw cyc hcyc
      · rw [List.mem_singleton.mp hcyc]
        exact closedWay_cycleFrom h hedge hy
    · rcases Finset.mem_insert.mp hkey with rfl | hkey
      · exact ⟨_, List.mem_append_right _ List.mem_cons_self, rfl⟩
      · obtain ⟨cyc, hcyc, heq⟩ := hw key hkey
        exact ⟨cyc, List.mem_append_left _ hcyc, heq⟩

theorem OnWay.enter (h : OnWay g rootName w x) (hedge : (dependencyGraph g rootName).Edge x y) :
    OnWay g rootName (w.enter y level) y where
  last := ⟨w.path, rfl⟩
  chain := by
    obtain ⟨before, hlast⟩ := h.last
    have hchain := h.chain
    change (w.path ++ [y]).IsChain _
    rw [hlast] at hchain ⊢
    rw [List.append_assoc, List.singleton_append, List.isChain_append_cons_cons]
    exact ⟨hchain, hedge, List.isChain_singleton _⟩
  root := List.mem_append_left _ h.root

theorem OnWay.visited (h : OnWay g rootName w x) (hw : Visited g rootName w w') :
    OnWay g rootName w' x := by
  refine ⟨?_, ?_, ?_⟩
  · rw [hw.path]
    exact h.last
  · rw [hw.path]
    exact h.chain
  · rw [hw.path]
    exact h.root

theorem visited_passed (h : Passed w name level w') : Visited g rootName w w' := by
  rcases h with rfl | rfl
  · exact .refl w'
  · exact ⟨rfl, List.prefix_rfl, id, id⟩

theorem Visited.leave (h : Visited g rootName (w.enter y level) w') :
    Visited g rootName w w'.leave := by
  refine ⟨?_, h.cycles, h.closed, h.keyed⟩
  change w'.path.dropLast = _
  rw [h.path]
  exact List.dropLast_concat

variable (opt) in
theorem mapM_visitChild_ok (fuel level : Nat) (specs : List DependencySpec) {w : Walker}
    {x : String}
    (hway : OnWay g rootName w x)
    (hedges : ∀ spec ∈ specs, (dependencyGraph g rootName).Edge x spec.name)
    (hbounded : Bounded (dependencyGraph g rootName) (rootName :: g.names) fuel w.path.reverse
      (specs.map (·.name))) :
    ∃ cs w', specs.mapM (visitChild g opt (visit g opt fuel (level + 1)) (level + 1)) w =
      .ok cs w' ∧ Visited g rootName w w' := by
  induction fuel generalizing level specs w x with
  | zero =>
    cases specs with
    | nil => exact ⟨[], w, rfl, .refl w⟩
    | cons spec specs =>
      obtain ⟨n, hn⟩ := hbounded.pos
      cases hn
  | succ fuel ih =>
    induction specs generalizing w with
    | nil => exact ⟨[], w, rfl, .refl w⟩
    | cons spec specs ihs =>
      have hedge := hedges spec List.mem_cons_self
      obtain ⟨c, w₁, hc, hw₁⟩ : ∃ c w₁, visitChild g opt (visit g opt (fuel + 1) (level + 1))
          (level + 1) spec w = .ok c w₁ ∧ Visited g rootName w w₁ := by
        by_cases hpath : spec.name ∈ w.path
        · exact ⟨_, _, visitChild_again hpath, visited_recordCycle hway hedge hpath⟩
        by_cases hleaf : (opt.dedupe = true ∧ spec.name ∈ w.expanded) ∨
            spec.name ∈ g.opaquePackages ∨ cutOff opt (level + 1)
        · obtain ⟨c, w₁, -, hc, hpassed⟩ := visitChild_leaf opt (level + 1)
            (visit g opt (fuel + 1) (level + 1)) hpath hleaf
          exact ⟨c, w₁, hc, visited_passed hpassed⟩
        · rw [not_or, not_or] at hleaf
          have hroot : spec.name ≠ rootName := fun h => hpath (h ▸ hway.root)
          have hnext := next_package hroot hleaf.2.1
          have henter := hbounded.enter (x := spec.name) (by rwa [List.mem_reverse])
          rw [hnext] at henter
          obtain ⟨children, w', hrun, hw'⟩ := ih (level + 1) (sorted (g.childrenOf spec.name))
            (hway.enter hedge) (fun child hchild => by
              rw [WalkGraph.Edge, hnext]
              exact List.mem_map.mpr ⟨child, hchild, rfl⟩)
            (by
              change Bounded _ _ _ (w.path ++ [spec.name]).reverse _
              rw [List.reverse_append]
              exact henter)
          exact ⟨_, _, visitChild_expand hpath hleaf.1 hleaf.2.1 hleaf.2.2 hrun, hw'.leave⟩
      obtain ⟨cs, w', hrun, hw'⟩ := ihs (hway.visited hw₁)
        (fun spec hspec => hedges spec (List.mem_cons_of_mem _ hspec))
        (by rw [hw₁.path]; exact hbounded.tail)
      refine ⟨c :: cs, w', ?_, hw₁.trans hw'⟩
      rw [List.mapM_cons, EStateM.bind_of_ok hc, EStateM.bind_of_ok hrun]
      rfl

theorem mapM_eq_ok_cons {f : DependencySpec → WalkM DepNode} {specs : List DependencySpec}
    (h : (spec :: specs).mapM f w = .ok cs w') :
    ∃ c w₁ cs', f spec w = .ok c w₁ ∧ specs.mapM f w₁ = .ok cs' w' := by
  rw [List.mapM_cons] at h
  obtain ⟨c, w₁, hc, h⟩ := EStateM.bind_eq_ok.mp h
  obtain ⟨cs', w₂, hcs, h⟩ := EStateM.bind_eq_ok.mp h
  obtain ⟨-, rfl⟩ := EStateM.pure_eq_ok.mp h
  exact ⟨c, w₁, cs', hc, hcs⟩

theorem visited_of_mapM {fuel level : Nat} {specs : List DependencySpec} {w : Walker} {x : String}
    (hway : OnWay g rootName w x)
    (hedges : ∀ spec ∈ specs, (dependencyGraph g rootName).Edge x spec.name)
    (hbounded : Bounded (dependencyGraph g rootName) (rootName :: g.names) fuel w.path.reverse
      (specs.map (·.name)))
    (hrun : specs.mapM (visitChild g opt (visit g opt fuel (level + 1)) (level + 1)) w =
      .ok cs w') :
    Visited g rootName w w' := by
  obtain ⟨cs', w'', hrun', hw'⟩ := mapM_visitChild_ok opt fuel level specs hway hedges hbounded
  rw [hrun] at hrun'
  cases hrun'
  exact hw'

theorem visitChild_visited {fuel level : Nat} {spec : DependencySpec} {specs : List DependencySpec}
    {w : Walker} {x : String} (hway : OnWay g rootName w x)
    (hedges : ∀ child ∈ spec :: specs, (dependencyGraph g rootName).Edge x child.name)
    (hbounded : Bounded (dependencyGraph g rootName) (rootName :: g.names) fuel w.path.reverse
      ((spec :: specs).map (·.name)))
    (hc : visitChild g opt (visit g opt fuel (level + 1)) (level + 1) spec w = .ok c w₁) :
    Visited g rootName w w₁ := by
  have hrun : [spec].mapM (visitChild g opt (visit g opt fuel (level + 1)) (level + 1)) w =
      .ok [c] w₁ := by
    rw [List.mapM_cons, EStateM.bind_of_ok hc]
    rfl
  exact visited_of_mapM hway
    (fun child hchild => hedges child (List.mem_singleton.mp hchild ▸ List.mem_cons_self))
    hbounded.head hrun

theorem visited_cons {fuel level : Nat} {spec : DependencySpec} {specs : List DependencySpec}
    {w : Walker} {x : String} (hway : OnWay g rootName w x)
    (hedges : ∀ child ∈ spec :: specs, (dependencyGraph g rootName).Edge x child.name)
    (hbounded : Bounded (dependencyGraph g rootName) (rootName :: g.names) fuel w.path.reverse
      ((spec :: specs).map (·.name)))
    (hc : visitChild g opt (visit g opt fuel (level + 1)) (level + 1) spec w = .ok c w₁)
    (hcs : specs.mapM (visitChild g opt (visit g opt fuel (level + 1)) (level + 1)) w₁ =
      .ok cs w') :
    OnWay g rootName w₁ x ∧ Visited g rootName w w₁ ∧ Visited g rootName w₁ w' := by
  have hw₁ := visitChild_visited hway hedges hbounded hc
  refine ⟨hway.visited hw₁, hw₁, visited_of_mapM (hway.visited hw₁)
    (fun child hchild => hedges child (List.mem_cons_of_mem _ hchild)) ?_ hcs⟩
  rw [hw₁.path]
  exact hbounded.tail

end Visits

/-! ## Every cycle is found -/

section Cycles

variable {g : ResolvedGraph} {rootName : String}

theorem not_cutOff (childLevel : Nat) : ¬cutOff {} childLevel := fun h => absurd h.1 (by decide)

structure Tracks (g : ResolvedGraph) (rootName : String) (stack done : List String) (w : Walker) :
    Prop where
  path : w.path = stack.reverse
  root : rootName ∈ stack
  listed : ∀ x ∈ done, x ∈ w.expanded ∨ x ∈ g.opaquePackages
  expanded : ∀ x ∈ w.expanded, x ∈ done ∨ x ∈ stack

theorem Tracks.mem_path (h : Tracks g rootName stack done w) : x ∈ w.path ↔ x ∈ stack := by
  rw [h.path, List.mem_reverse]

theorem Tracks.bounded (h : Tracks g rootName stack done w)
    (hbounded : Bounded (dependencyGraph g rootName) nodes fuel stack xs) :
    Bounded (dependencyGraph g rootName) nodes fuel w.path.reverse xs := by
  rwa [h.path, List.reverse_reverse]

theorem Tracks.skip (h : Tracks g rootName stack done w)
    (visit : List DependencySpec → WalkM (List DepNode)) (childLevel : Nat)
      (hstack : spec.name ∉ stack) (hdone : spec.name ∈ done) :
    ∃ c w', visitChild g {} visit childLevel spec w = .ok c w' ∧
      Passed w spec.name childLevel w' := by
  obtain ⟨c, w', -, hc, hpassed⟩ := visitChild_leaf {} childLevel visit
    (fun hpath => hstack (h.mem_path.mp hpath))
    ((h.listed _ hdone).imp (fun hexpanded => ⟨rfl, hexpanded⟩) .inl)
  exact ⟨c, w', hc, hpassed⟩

theorem Tracks.passed (h : Tracks g rootName stack done w) (hw : Passed w name childLevel w') :
    Tracks g rootName stack done w' ∧ w'.cycles = w.cycles ∧ w.expanded ⊆ w'.expanded := by
  rcases hw with rfl | rfl
  · exact ⟨h, rfl, subset_rfl⟩
  · exact ⟨⟨h.path, h.root, h.listed, h.expanded⟩, rfl, subset_rfl⟩

theorem Tracks.notMem_expanded (h : Tracks g rootName stack done w) (hstack : x ∉ stack)
    (hnew : x ∉ done) : x ∉ w.expanded := fun hmem => (h.expanded x hmem).elim hnew hstack

theorem Tracks.leaf (h : Tracks g rootName stack done w) (hunknown : x ∈ g.opaquePackages) :
    Tracks g rootName stack (done ++ [x]) w where
  path := h.path
  root := h.root
  listed y hy := by
    rcases List.mem_append.mp hy with hy | hy
    · exact h.listed y hy
    · exact .inr (List.mem_singleton.mp hy ▸ hunknown)
  expanded y hy := (h.expanded y hy).imp_left (List.mem_append_left _)

theorem Tracks.enter (h : Tracks g rootName stack done w) :
    Tracks g rootName (x :: stack) done (w.enter x level) where
  path := by
    change w.path ++ [x] = _
    rw [h.path, List.reverse_cons]
  root := List.mem_cons_of_mem _ h.root
  listed y hy := (h.listed y hy).imp_left (Finset.mem_insert_of_mem ·)
  expanded y hy := by
    rcases Finset.mem_insert.mp hy with rfl | hy
    · exact .inr List.mem_cons_self
    · exact (h.expanded y hy).imp_right (List.mem_cons_of_mem _)

theorem Tracks.leave (h : Tracks g rootName (x :: stack) mid w) (hroot : rootName ∈ stack)
    (hx : x ∈ w.expanded) : Tracks g rootName stack (mid ++ [x]) w.leave where
  path := by
    change w.path.dropLast = _
    rw [h.path, List.reverse_cons, List.dropLast_concat]
  root := hroot
  listed y hy := by
    rcases List.mem_append.mp hy with hy | hy
    · exact h.listed y hy
    · exact .inl (List.mem_singleton.mp hy ▸ hx)
  expanded y hy := by
    rcases h.expanded y hy with hy | hy
    · exact .inl (List.mem_append_left _ hy)
    · rcases List.mem_cons.mp hy with rfl | hy
      · exact .inl (List.mem_append_right _ List.mem_cons_self)
      · exact .inr hy

theorem mapM_visitChild_of_walks
    (h : Walks (dependencyGraph g rootName) stack done xs done') (fuel level : Nat)
    {specs : List DependencySpec} (hxs : specs.map (·.name) = xs) {w : Walker}
    (hbounded : Bounded (dependencyGraph g rootName) (rootName :: g.names) fuel stack xs)
    (htracks : Tracks g rootName stack done w) :
    ∃ cs w', specs.mapM (visitChild g {} (visit g {} fuel (level + 1)) (level + 1)) w =
      .ok cs w' ∧ w'.cycles = w.cycles ∧ w.expanded ⊆ w'.expanded ∧
      Tracks g rootName stack done' w' := by
  induction h generalizing fuel level specs w with
  | nil =>
    obtain rfl := List.map_eq_nil_iff.mp hxs
    exact ⟨[], w, rfl, rfl, subset_rfl, htracks⟩
  | @skip stack x done xs done' hlabel hdone _ ih =>
    obtain ⟨spec, specs, rfl, rfl, rfl⟩ := List.map_eq_cons_iff.mp hxs
    obtain ⟨c, w₁, hc, hpassed⟩ :=
      htracks.skip (visit g {} fuel (level + 1)) (level + 1) hlabel hdone
    obtain ⟨hw₁, hcycles, hexpanded⟩ := htracks.passed hpassed
    obtain ⟨cs, w', hrun, hcycles', hexpanded', hw'⟩ := ih fuel level rfl hbounded.tail hw₁
    refine ⟨c :: cs, w', ?_, hcycles'.trans hcycles, hexpanded.trans hexpanded', hw'⟩
    rw [List.mapM_cons, EStateM.bind_of_ok hc, EStateM.bind_of_ok hrun]
    rfl
  | @visit stack x done mid xs done' hlabel hnew _ hmid _ ihmid ih =>
    obtain ⟨spec, specs, rfl, rfl, rfl⟩ := List.map_eq_cons_iff.mp hxs
    obtain ⟨n, rfl⟩ := hbounded.pos
    have hpath : spec.name ∉ w.path := fun hmem => hlabel (htracks.mem_path.mp hmem)
    have hroot : spec.name ≠ rootName := fun heq => hlabel (heq ▸ htracks.root)
    obtain ⟨c, w₁, hc, hcycles, hexpanded, hw₁⟩ : ∃ c w₁,
        visitChild g {} (visit g {} (n + 1) (level + 1)) (level + 1) spec w = .ok c w₁ ∧
        w₁.cycles = w.cycles ∧ w.expanded ⊆ w₁.expanded ∧
        Tracks g rootName stack (mid ++ [spec.name]) w₁ := by
      by_cases hknown : spec.name ∈ g.opaquePackages
      · rw [next_opaquePackage hroot hknown] at hmid
        cases hmid
        obtain ⟨c, w₁, -, hc, hpassed⟩ := visitChild_leaf {} (level + 1)
          (visit g {} (n + 1) (level + 1)) hpath (.inr (.inl hknown))
        obtain ⟨hw₁, hcycles, hexpanded⟩ := htracks.passed hpassed
        exact ⟨c, w₁, hc, hcycles, hexpanded, hw₁.leaf hknown⟩
      · have hnext := next_package hroot hknown
        have henter := hbounded.enter hlabel
        obtain ⟨children, w', hrun, hcycles, hsub, hw'⟩ :=
          ihmid n (level + 1) hnext.symm henter htracks.enter
        have hx : spec.name ∈ w'.expanded := hsub (Finset.mem_insert_self _ _)
        refine ⟨_, _, visitChild_expand hpath
          (fun h => htracks.notMem_expanded hlabel hnew h.2) hknown (not_cutOff _) hrun, hcycles,
          fun y hy => hsub (Finset.mem_insert_of_mem hy), hw'.leave htracks.root hx⟩
    obtain ⟨cs, w', hrun, hcycles', hexpanded', hw'⟩ :=
      ih (n + 1) level rfl hbounded.tail hw₁
    refine ⟨c :: cs, w', ?_, hcycles'.trans hcycles, hexpanded.trans hexpanded', hw'⟩
    rw [List.mapM_cons, EStateM.bind_of_ok hc, EStateM.bind_of_ok hrun]
    rfl

theorem cycles_recordCycle_ne_nil (hkeyed : Keyed w) (name : String) :
    (w.recordCycle name).cycles ≠ [] := by
  unfold recordCycle
  dsimp only
  split
  · next hkey =>
    obtain ⟨cyc, hcyc, -⟩ := hkeyed _ hkey
    exact List.ne_nil_of_mem hcyc
  · simp

theorem Visited.cycles_ne_nil (h : Visited g rootName w w') (hw : w.cycles ≠ []) : w'.cycles ≠ [] :=
  fun hnil => hw (List.prefix_nil.mp (hnil ▸ h.cycles))

theorem cycles_ne_nil_of_stops (h : Stops (dependencyGraph g rootName) stack done xs)
    (fuel level : Nat) {specs : List DependencySpec} (hxs : specs.map (·.name) = xs) {w : Walker}
    (hbounded : Bounded (dependencyGraph g rootName) (rootName :: g.names) fuel stack xs)
    (htracks : Tracks g rootName stack done w) {x : String} (hway : OnWay g rootName w x)
    (hedges : ∀ spec ∈ specs, (dependencyGraph g rootName).Edge x spec.name) (hkeyed : Keyed w)
    {cs : List DepNode} {w' : Walker}
    (hrun : specs.mapM (visitChild g {} (visit g {} fuel (level + 1)) (level + 1)) w = .ok cs w') :
    w'.cycles ≠ [] := by
  induction h generalizing fuel level specs w x cs w' with
  | @again stack name done xs hlabel =>
    obtain ⟨spec, specs, rfl, rfl, rfl⟩ := List.map_eq_cons_iff.mp hxs
    obtain ⟨c, w₁, cs', hc, hcs⟩ := mapM_eq_ok_cons hrun
    obtain ⟨-, -, hvisited⟩ := visited_cons hway hedges (htracks.bounded hbounded) hc hcs
    rw [visitChild_again (htracks.mem_path.mpr hlabel)] at hc
    cases hc
    exact hvisited.cycles_ne_nil (cycles_recordCycle_ne_nil hkeyed _)
  | bad _ _ hbad => exact hbad.elim
  | @inside stack name done xs hlabel hnew _ hstops ih =>
    obtain ⟨spec, specs, rfl, rfl, rfl⟩ := List.map_eq_cons_iff.mp hxs
    obtain ⟨n, rfl⟩ := hbounded.pos
    obtain ⟨c, w₁, cs', hc, hcs⟩ := mapM_eq_ok_cons hrun
    obtain ⟨-, -, hvisited⟩ := visited_cons hway hedges (htracks.bounded hbounded) hc hcs
    have hpath : spec.name ∉ w.path := fun hmem => hlabel (htracks.mem_path.mp hmem)
    have hroot : spec.name ≠ rootName := fun heq => hlabel (heq ▸ htracks.root)
    have hknown : spec.name ∉ g.opaquePackages := by
      intro hunknown
      rw [next_opaquePackage hroot hunknown] at hstops
      cases hstops
    have hnext := next_package hroot hknown
    have henter := hbounded.enter hlabel
    have hway' : OnWay g rootName (w.enter spec.name (level + 1)) spec.name :=
      hway.enter (hedges spec List.mem_cons_self)
    have hedges' : ∀ child ∈ sorted (g.childrenOf spec.name),
        (dependencyGraph g rootName).Edge spec.name child.name := by
      intro child hchild
      rw [WalkGraph.Edge, hnext]
      exact List.mem_map.mpr ⟨child, hchild, rfl⟩
    rw [hnext] at henter
    obtain ⟨children, w'', hinner, -⟩ := mapM_visitChild_ok {} n (level + 1)
      (sorted (g.childrenOf spec.name)) hway' hedges' (htracks.enter.bounded henter)
    have hcycles := ih n (level + 1) hnext.symm (hbounded.enter hlabel) htracks.enter hway' hedges'
      hkeyed hinner
    rw [visitChild_expand hpath (fun h => htracks.notMem_expanded hlabel hnew h.2) hknown
      (not_cutOff _) hinner] at hc
    cases hc
    exact hvisited.cycles_ne_nil hcycles
  | @skip stack name done xs hlabel hdone _ ih =>
    obtain ⟨spec, specs, rfl, rfl, rfl⟩ := List.map_eq_cons_iff.mp hxs
    obtain ⟨c, w₁, cs', hc, hcs⟩ := mapM_eq_ok_cons hrun
    obtain ⟨hway₁, hvisited, -⟩ := visited_cons hway hedges (htracks.bounded hbounded) hc hcs
    obtain ⟨c', w₂, hc', hpassed⟩ :=
      htracks.skip (visit g {} fuel (level + 1)) (level + 1) hlabel hdone
    rw [hc] at hc'
    cases hc'
    exact ih fuel level rfl hbounded.tail (htracks.passed hpassed).1 hway₁
      (fun child hchild => hedges child (List.mem_cons_of_mem _ hchild)) (hvisited.keyed hkeyed) hcs
  | @visit stack name done mid xs hlabel hnew hgood hmid _ ih =>
    obtain ⟨spec, specs, rfl, rfl, rfl⟩ := List.map_eq_cons_iff.mp hxs
    obtain ⟨c, w₁, cs', hc, hcs⟩ := mapM_eq_ok_cons hrun
    obtain ⟨hway₁, hvisited, -⟩ := visited_cons hway hedges (htracks.bounded hbounded) hc hcs
    obtain ⟨cs'', w₂, hone, -, -, htracks'⟩ := mapM_visitChild_of_walks
      (.visit hlabel hnew hgood hmid .nil) fuel level
      (show [spec].map (·.name) = [spec.name] from rfl) hbounded.head htracks
    obtain ⟨c', w₃, _, hc', hnil⟩ := mapM_eq_ok_cons hone
    rw [hc] at hc'
    cases hc'
    cases (EStateM.pure_eq_ok.mp hnil).2
    exact ih fuel level rfl hbounded.tail htracks' hway₁
      (fun child hchild => hedges child (List.mem_cons_of_mem _ hchild)) (hvisited.keyed hkeyed) hcs

end Cycles

end Walker

/-! ## Guarantees -/

section Guarantees

variable {g : ResolvedGraph} {rootName : String}

theorem onWay_start : Walker.OnWay g rootName (.start rootName) rootName where
  last := ⟨[], rfl⟩
  chain := List.isChain_singleton _
  root := List.mem_cons_self

theorem edge_roots : ∀ spec ∈ Walker.sorted g.roots,
    (dependencyGraph g rootName).Edge rootName spec.name := by
  intro spec hspec
  rw [WalkGraph.Edge, next_root]
  exact List.mem_map.mpr ⟨spec, hspec, rfl⟩

theorem bounded_roots : Bounded (dependencyGraph g rootName) (rootName :: g.names)
    (g.names.length + 1) [rootName] ((Walker.sorted g.roots).map (·.name)) := by
  rw [← next_root]
  have hstart : Bounded (dependencyGraph g rootName) (rootName :: g.names) (g.names.length + 2) []
      [rootName] := .start dependencyGraph_closed
    (List.cons_subset.mpr ⟨List.mem_cons_self, List.nil_subset _⟩) (by simp)
  exact hstart.enter List.not_mem_nil

theorem buildDependencyTree_ok (rootName rootVersion : String) (g : ResolvedGraph)
    (opt : DepTreeOptions) : ∃ tree, buildDependencyTree rootName rootVersion g opt = .ok tree ∧
      ∀ cyc ∈ tree.cycles, Walker.ClosedWay g rootName cyc := by
  unfold buildDependencyTree
  dsimp only
  split
  · exact ⟨_, rfl, fun _ h => absurd h List.not_mem_nil⟩
  · obtain ⟨cs, w, hrun, hw⟩ := Walker.mapM_visitChild_ok opt (g.names.length + 1) 0
      (Walker.sorted g.roots) onWay_start edge_roots bounded_roots
    rw [walkFuel, Walker.visit, hrun]
    exact ⟨_, rfl, hw.closed fun _ h => absurd h List.not_mem_nil⟩

theorem tracks_start : Walker.Tracks g rootName [rootName] [] (.start rootName) where
  path := rfl
  root := List.mem_cons_self
  listed _ h := absurd h List.not_mem_nil
  expanded _ h := absurd h (Finset.notMem_empty _)

theorem walks_roots_iff : (∃ done, Walks (dependencyGraph g rootName) [rootName] []
      ((Walker.sorted g.roots).map (·.name)) done) ↔
    ∀ name, (dependencyGraph g rootName).Reach rootName name →
      ¬(dependencyGraph g rootName).Leads name name := by
  have hiff := walks_iff (G := dependencyGraph g rootName) rfl dependencyGraph_closed
    (List.cons_subset.mpr ⟨List.mem_cons_self,
      List.nil_subset _⟩ : [rootName] ⊆ rootName :: g.names)
  rw [← next_root]
  constructor
  · rintro ⟨mid, h⟩ name hreach
    exact (hiff.mp ⟨_, .visit List.not_mem_nil List.not_mem_nil id h .nil⟩ rootName
      List.mem_cons_self name hreach).2
  · intro h
    obtain ⟨done, hwalks⟩ := hiff.mpr fun x hx name hreach => by
      obtain rfl := List.mem_singleton.mp hx
      exact ⟨id, h name hreach⟩
    cases hwalks with
    | skip _ hdone => exact absurd hdone List.not_mem_nil
    | visit _ _ _ hmid _ => exact ⟨_, hmid⟩

theorem findDependencyCycles_eq {cs : List DepNode} {w : Walker}
    (hrun : (Walker.sorted g.roots).mapM (Walker.visitChild g {}
      (Walker.visit g {} (g.names.length + 1) 1) 1) (.start rootName) = .ok cs w) :
    findDependencyCycles rootName g = .ok w.cycles := by
  unfold findDependencyCycles buildDependencyTree
  dsimp only
  rw [if_neg (by decide), walkFuel, Walker.visit, hrun]
  rfl

/-- No cycle is found exactly when none can be reached from the project, and every cycle that is
found is one. The walk ends for every graph and all options. -/
theorem findDependencyCycles_spec (rootName : String) (g : ResolvedGraph) :
    (∃ cycles, findDependencyCycles rootName g = .ok cycles ∧
      (cycles = [] ↔ ∀ name, (dependencyGraph g rootName).Reach rootName name →
        ¬(dependencyGraph g rootName).Leads name name) ∧
      ∀ cyc ∈ cycles, Walker.ClosedWay g rootName cyc) ∧
    ∀ rootVersion opt, ∃ tree, buildDependencyTree rootName rootVersion g opt = .ok tree := by
  refine ⟨?_, fun rootVersion opt => ?_⟩
  · obtain ⟨cs, w, hrun, hw⟩ := Walker.mapM_visitChild_ok {} (g.names.length + 1) 0
      (Walker.sorted g.roots) onWay_start edge_roots bounded_roots
    refine ⟨w.cycles, findDependencyCycles_eq hrun, ?_,
      hw.closed fun _ h => absurd h List.not_mem_nil⟩
    rw [← walks_roots_iff]
    constructor
    · intro hnil
      have hnot : ¬Stops (dependencyGraph g rootName) [rootName] []
          ((Walker.sorted g.roots).map (·.name)) := fun hstops =>
        Walker.cycles_ne_nil_of_stops hstops (g.names.length + 1) 0 rfl bounded_roots tracks_start
          onWay_start edge_roots (fun _ h => absurd h (Finset.notMem_empty _)) hrun hnil
      have hbounded : Bounded (dependencyGraph g rootName) (rootName :: g.names)
        (g.names.length + 1) [rootName] ((Walker.sorted g.roots).map (·.name)) := bounded_roots
      exact (walks_or_stops hbounded.closed hbounded.nodup hbounded.inside hbounded.within
        []).resolve_right hnot
    · rintro ⟨done, hwalks⟩
      obtain ⟨cs', w', hrun', hcycles, -⟩ := Walker.mapM_visitChild_of_walks hwalks
        (g.names.length + 1) 0 rfl bounded_roots tracks_start
      rw [hrun] at hrun'
      cases hrun'
      exact hcycles
  · obtain ⟨tree, htree, -⟩ := buildDependencyTree_ok rootName rootVersion g opt
    exact ⟨tree, htree⟩

end Guarantees

end Cajeta.Buildtool
