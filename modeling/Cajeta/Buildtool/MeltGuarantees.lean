import Cajeta.Buildtool.Melt
import Cajeta.Buildtool.ResolverGuarantees
import Cajeta.Lib.DepthFirst

/-!
# An importer wins

Expanding the melts of `settings.melts` is a depth-first walk over their imports. When it is
through, every reachable melt has been recorded once and behind all it imports, so that what is
recorded under a name comes from a melt that no other one defining the name imports.
-/

namespace Cajeta.Buildtool

open DepthFirst

/-- Imports lead to further imports. A melt that cannot be loaded cannot be entered. -/
def importGraph (melts : MeltImport → Option Melt) : WalkGraph MeltImport String where
  next imp := (melts imp).elim [] Melt.melts
  label := MeltImport.name
  Bad imp := melts imp = none

theorem next_importGraph {melts : MeltImport → Option Melt} (h : melts imp = some melt) :
    (importGraph melts).next imp = melt.melts := by
  change (melts imp).elim [] Melt.melts = _
  rw [h]
  rfl

section Edges

variable {ω : Type}

/-- The repositories answer alike whenever they are asked. -/
structure Serves (host : Host ω) (repos : List (Repository ω)) (melts : MeltImport → Option Melt) :
    Prop where
  loads : ∀ imp melt w, melts imp = some melt → ∃ entry w',
    loadMelt host repos imp w = .ok (entry, melt) w'
  refuses : ∀ imp w, melts imp = none → ∃ e w', loadMelt host repos imp w = .error e w'

theorem findMelt_names {host : Host ω} {imp : MeltImport} {repos : List (Repository ω)}
    {entry : Resolved} (h : findMelt host imp repos w = .ok (some (entry, json)) w') :
    entry.name = imp.name ∧ entry.version = imp.version := by
  induction repos generalizing w with
  | nil => cases h
  | cons repo repos ih =>
    unfold findMelt at h
    obtain ⟨versions, w₁, -, h⟩ := EStateM.bind_eq_ok.mp h
    split at h
    · obtain ⟨path, w₂, -, h⟩ := EStateM.bind_eq_ok.mp h
      obtain ⟨cached, w₃, -, h⟩ := EStateM.bind_eq_ok.mp h
      obtain ⟨sidecar, w₄, -, h⟩ := EStateM.bind_eq_ok.mp h
      cases sidecar with
      | none => cases h
      | some manifestJson =>
        obtain ⟨sha256, w₅, -, h⟩ := EStateM.bind_eq_ok.mp h
        cases (EStateM.pure_eq_ok.mp h).1
        exact ⟨rfl, rfl⟩
    · exact ih h

theorem loadMelt_names {host : Host ω} {repos : List (Repository ω)} {imp : MeltImport}
    {entry : Resolved} (h : loadMelt host repos imp w = .ok (entry, typed) w') :
    entry.name = imp.name ∧ entry.version = imp.version := by
  unfold loadMelt at h
  obtain ⟨found, w₁, hfind, h⟩ := EStateM.bind_eq_ok.mp h
  cases found with
  | none => cases h
  | some found =>
    obtain ⟨_, json⟩ := found
    obtain ⟨meltManifest, w₂, -, h⟩ := EStateM.bind_eq_ok.mp h
    split at h
    · cases h
    · obtain ⟨_, w₃, -, h⟩ := EStateM.bind_eq_ok.mp h
      cases (EStateM.pure_eq_ok.mp h).1
      have hnames := findMelt_names hfind
      exact hnames

end Edges

theorem append_at_cancel {a a' b b' : List Char} (hb : '@' ∉ b) (hb' : '@' ∉ b')
    (h : a ++ '@' :: b = a' ++ '@' :: b') : a = a' ∧ b = b' := by
  rcases List.append_eq_append_iff.mp h with ⟨c, rfl, hc⟩ | ⟨c, rfl, hc⟩
  · rcases List.cons_eq_append_iff.mp hc with ⟨rfl, hc⟩ | ⟨c, rfl, rfl⟩
    · exact ⟨(List.append_nil a).symm, (List.cons.inj hc).2⟩
    · exact absurd (List.mem_append_right c List.mem_cons_self) hb
  · rcases List.cons_eq_append_iff.mp hc with ⟨rfl, hc⟩ | ⟨c, rfl, rfl⟩
    · exact ⟨List.append_nil a', (List.cons.inj hc).2.symm⟩
    · exact absurd (List.mem_append_right c List.mem_cons_self) hb'

theorem MeltImport.key_inj {x y : MeltImport} (h : x.key = y.key) : x = y := by
  have hlist := congrArg String.toList h
  simp only [key, String.toList_append] at hlist
  rw [show "@".toList = ['@'] from rfl, List.append_assoc, List.append_assoc] at hlist
  obtain ⟨hname, hversion⟩ := append_at_cancel x.version_plain y.version_plain hlist
  cases x
  cases y
  obtain rfl := String.toList_inj.mp hname
  obtain rfl := String.toList_inj.mp hversion
  rfl

/-! ## What has been recorded -/

def exported (melts : MeltImport → Option Melt) (surface : Melt → SortedMap String String)
    (imp : MeltImport) : SortedMap String String := (melts imp).elim .empty surface

def Defines (melts : MeltImport → Option Melt) (surface : Melt → SortedMap String String)
    (name : String) (imp : MeltImport) : Prop :=
  ((exported melts surface imp).find? name).isSome = true

instance : Decidable (Defines melts surface name imp) := by
  unfold Defines
  infer_instance

def lastDefiner (melts : MeltImport → Option Melt) (surface : Melt → SortedMap String String)
    (done : List MeltImport) (name : String) : Option MeltImport :=
  (done.filter fun imp => Defines melts surface name imp).getLast?

structure Written (melts : MeltImport → Option Melt) (surface : Melt → SortedMap String String)
    (done : List MeltImport) (values providers : SortedMap String String) : Prop where
  provider : ∀ name, providers.find? name =
    (lastDefiner melts surface done name).map MeltImport.key
  value : ∀ name, values.find? name =
    (lastDefiner melts surface done name).bind fun imp =>
      (exported melts surface imp).find? name

theorem lastDefiner_concat (done : List MeltImport) (imp : MeltImport) :
    lastDefiner melts surface (done ++ [imp]) name =
      if Defines melts surface name imp then some imp else lastDefiner melts surface done name := by
  unfold lastDefiner
  rw [List.filter_append]
  by_cases h : Defines melts surface name imp
  · rw [if_pos h, List.filter_cons_of_pos (by simpa using h), List.filter_nil,
      List.getLast?_concat]
  · rw [if_neg h, List.filter_cons_of_neg (by simpa using h), List.filter_nil, List.append_nil]

theorem find?_writeEach (other m : SortedMap String String) (value k : String) :
    (writeEach other.entries value m).find? k =
      if (other.find? k).isSome = true then some value else m.find? k := by
  have hentries : ∀ entries : List (String × String), ∀ m : SortedMap String String,
      (writeEach entries value m).find? k =
        if k ∈ entries.map Prod.fst then some value else m.find? k := by
    intro entries
    induction entries with
    | nil => exact fun m => rfl
    | cons e entries ih =>
      intro m
      change (writeEach entries value (m.insert e.1 value)).find? k = _
      rw [ih, SortedMap.find?_insert, List.map_cons]
      by_cases hk : k ∈ entries.map Prod.fst
      · rw [if_pos hk, if_pos (List.mem_cons_of_mem _ hk)]
      · by_cases he : e.1 = k
        · rw [if_neg hk, if_pos he, if_pos (he ▸ List.mem_cons_self)]
        · rw [if_neg hk, if_neg he, if_neg]
          rw [List.mem_cons, not_or]
          exact ⟨Ne.symm he, hk⟩
  rw [hentries]
  exact if_congr SortedMap.isSome_find?.symm rfl rfl

theorem Written.record (h : Written melts surface done values providers)
    (himp : melts imp = some melt) :
    Written melts surface (done ++ [imp]) (writeAll (surface melt).entries values)
      (writeEach (surface melt).entries imp.key providers) := by
  have hexported : exported melts surface imp = surface melt := by
    rw [exported, himp]
    rfl
  have hdefines : ∀ name, Defines melts surface name imp ↔
      ((surface melt).find? name).isSome = true := fun name => by rw [Defines, hexported]
  refine ⟨fun name => ?_, fun name => ?_⟩
  · rw [find?_writeEach, lastDefiner_concat]
    by_cases hname : ((surface melt).find? name).isSome = true
    · rw [if_pos hname, if_pos ((hdefines name).mpr hname)]
      rfl
    · rw [if_neg hname, if_neg fun hd => hname ((hdefines name).mp hd), h.provider]
  · rw [writeAll, SortedMap.find?_foldl_insert_entries, lastDefiner_concat]
    by_cases hname : ((surface melt).find? name).isSome = true
    · rw [if_pos ((hdefines name).mpr hname), Option.bind_some, hexported]
      obtain ⟨v, hv⟩ := Option.isSome_iff_exists.mp hname
      rw [hv]
      rfl
    · rw [if_neg fun hd => hname ((hdefines name).mp hd), ← h.value]
      rw [Option.not_isSome_iff_eq_none.mp hname]
      rfl

structure MeltsRecorded (melts : MeltImport → Option Melt) (done : List MeltImport)
    (alreadyResolved : Finset String) (out : MeltResolution) : Prop where
  mem : ∀ imp : MeltImport, imp.key ∈ alreadyResolved ↔ imp ∈ done
  resolved : out.resolvedMelts.map (fun r => (r.name, r.version)) =
    done.map fun imp => (imp.name, imp.version)
  constraints : Written melts Melt.dependencies done out.depConstraints out.depProvidedBy
  properties : Written melts Melt.properties done out.properties out.propertyProvidedBy

theorem MeltsRecorded.start : MeltsRecorded melts [] ∅ {} where
  mem imp := by simp
  resolved := rfl
  constraints := ⟨fun _ => rfl, fun _ => rfl⟩
  properties := ⟨fun _ => rfl, fun _ => rfl⟩

theorem MeltsRecorded.record (h : MeltsRecorded melts done alreadyResolved out)
    (himp : melts imp = some melt) {entry : Resolved}
    (hnames : entry.name = imp.name ∧ entry.version = imp.version) :
    MeltsRecorded melts (done ++ [imp]) (insert imp.key alreadyResolved)
      (out.record imp.key entry melt) where
  mem y := by
    rw [Finset.mem_insert, h.mem, List.mem_append, List.mem_singleton, or_comm]
    refine or_congr Iff.rfl ⟨MeltImport.key_inj, fun heq => heq ▸ rfl⟩
  resolved := by
    change (out.resolvedMelts ++ [entry]).map _ = _
    rw [List.map_append, h.resolved, List.map_append, List.map_singleton, List.map_singleton,
      hnames.1, hnames.2]
  constraints := h.constraints.record himp
  properties := h.properties.record himp

/-! ## The walk -/

section Walk

variable {ω : Type} {host : Host ω} {repos : List (Repository ω)}
  {melts : MeltImport → Option Melt}

def MeltsRecorded.In (melts : MeltImport → Option Melt) (done : List MeltImport) (s : Melting ω) :
    Prop :=
  MeltsRecorded melts done s.alreadyResolved s.out

theorem act_of_ok {x : Effect ω α} {s : Melting ω} (h : x s.world = .ok a w) :
    (MeltM.act x : MeltM ω α) s = .ok a { s with world := w } := by
  unfold MeltM.act
  rw [h]

theorem act_of_error {x : Effect ω α} {s : Melting ω} (h : x s.world = .error e w) :
    (MeltM.act x : MeltM ω α) s = .error (.failed e) { s with world := w } := by
  unfold MeltM.act
  rw [h]

section Step

variable (fuel : Nat) {cyclePath : List String} {imp : MeltImport} {s : Melting ω}

theorem expandMelt_again (hname : imp.name ∈ cyclePath) :
    expandMelt host repos (fuel + 1) cyclePath imp s =
      .error (.failed ("melt cycle detected: " ++ " -> ".intercalate
        (cyclePath ++ [imp.name]))) s := by
  rw [expandMelt, if_pos hname]
  rfl

theorem expandMelt_fresh (hname : imp.name ∉ cyclePath) :
    expandMelt host repos (fuel + 1) cyclePath imp s =
      (if imp.key ∈ s.alreadyResolved then return ()
      else do
        let (resolved, typed) ← MeltM.act (loadMelt host repos imp)
        typed.melts.forM (expandMelt host repos fuel (cyclePath ++ [imp.name]))
        modify fun s => { s with
          alreadyResolved := insert imp.key s.alreadyResolved
          out := s.out.record imp.key resolved typed } : MeltM ω Unit) s := by
  rw [expandMelt, if_neg hname]
  rfl

theorem expandMelt_skip (hname : imp.name ∉ cyclePath) (hkey : imp.key ∈ s.alreadyResolved) :
    expandMelt host repos (fuel + 1) cyclePath imp s = .ok () s := by
  rw [expandMelt_fresh fuel hname, if_pos hkey]
  rfl

theorem expandMelt_refused (hserves : Serves host repos melts) (hname : imp.name ∉ cyclePath)
    (hkey : imp.key ∉ s.alreadyResolved) (hbad : melts imp = none) :
    ∃ text s', expandMelt host repos (fuel + 1) cyclePath imp s = .error (.failed text) s' := by
  obtain ⟨e, w, hload⟩ := hserves.refuses imp s.world hbad
  rw [expandMelt_fresh fuel hname, if_neg hkey, EStateM.bind_of_error (act_of_error hload)]
  exact ⟨_, _, rfl⟩

theorem expandMelt_inside (hserves : Serves host repos melts) (hname : imp.name ∉ cyclePath)
    (hkey : imp.key ∉ s.alreadyResolved) (hmelt : melts imp = some melt) :
    ∃ entry w, (entry.name = imp.name ∧ entry.version = imp.version) ∧
      expandMelt host repos (fuel + 1) cyclePath imp s =
        (do
          melt.melts.forM (expandMelt host repos fuel (cyclePath ++ [imp.name]))
          modify fun s => { s with alreadyResolved := insert imp.key s.alreadyResolved,
                                   out := s.out.record imp.key entry melt } : MeltM ω Unit)
          { s with world := w } := by
  obtain ⟨entry, w, hload⟩ := hserves.loads imp melt s.world hmelt
  refine ⟨entry, w, loadMelt_names hload, ?_⟩
  rw [expandMelt_fresh fuel hname, if_neg hkey, EStateM.bind_of_ok (act_of_ok hload)]

end Step

theorem forM_expandMelt_of_walks (hserves : Serves host repos melts)
    (h : Walks (importGraph melts) stack done xs done') (fuel : Nat) (cyclePath : List String)
    (hstack : stack = cyclePath.reverse)
      (hbounded : Bounded (importGraph melts) nodes fuel stack xs)
    {s : Melting ω} (hs : MeltsRecorded.In melts done s) :
    ∃ s', xs.forM (expandMelt host repos fuel cyclePath) s = .ok () s' ∧
      MeltsRecorded.In melts done' s' := by
  induction h generalizing fuel cyclePath s with
  | nil => exact ⟨s, rfl, hs⟩
  | @skip stack x done xs done' hlabel hdone _ ih =>
    obtain ⟨n, rfl⟩ := hbounded.pos
    obtain ⟨s', hrun, hs'⟩ := ih (n + 1) cyclePath hstack hbounded.tail hs
    have hname : x.name ∉ cyclePath := by rwa [hstack, List.mem_reverse] at hlabel
    refine ⟨s', ?_, hs'⟩
    exact (EStateM.bind_of_ok (expandMelt_skip n hname ((hs.mem x).mpr hdone))).trans hrun
  | @visit stack x done mid xs done' hlabel hnew hgood _ _ ihmid ih =>
    obtain ⟨n, rfl⟩ := hbounded.pos
    have hname : x.name ∉ cyclePath := by rwa [hstack, List.mem_reverse] at hlabel
    have hkey : x.key ∉ s.alreadyResolved := fun hmem => hnew ((hs.mem x).mp hmem)
    obtain ⟨melt, hmelt⟩ := Option.ne_none_iff_exists'.mp hgood
    obtain ⟨entry, w, hnames, hx⟩ :=
      expandMelt_inside n hserves hname hkey hmelt
    have henter := hbounded.enter hlabel
    rw [next_importGraph hmelt] at henter ihmid
    obtain ⟨s₁, hrun₁, hs₁⟩ := ihmid n (cyclePath ++ [x.name])
      (by rw [hstack, List.reverse_append]; rfl) henter (s := { s with world := w }) hs
    obtain ⟨s', hrun, hs'⟩ := ih (n + 1) cyclePath hstack hbounded.tail
      (s := { s₁ with alreadyResolved := insert x.key s₁.alreadyResolved,
                      out := s₁.out.record x.key entry melt }) (hs₁.record hmelt hnames)
    refine ⟨s', ?_, hs'⟩
    have hvisit := hx.trans ((EStateM.bind_of_ok hrun₁).trans EStateM.modify_eq)
    exact (EStateM.bind_of_ok hvisit).trans hrun

theorem forM_expandMelt_of_stops (hserves : Serves host repos melts)
    (h : Stops (importGraph melts) stack done xs) (fuel : Nat) (cyclePath : List String)
    (hstack : stack = cyclePath.reverse)
      (hbounded : Bounded (importGraph melts) nodes fuel stack xs)
    {s : Melting ω} (hs : MeltsRecorded.In melts done s) :
    ∃ text s', xs.forM (expandMelt host repos fuel cyclePath) s = .error (.failed text) s' := by
  induction h generalizing fuel cyclePath s with
  | @again stack x done xs hlabel =>
    obtain ⟨n, rfl⟩ := hbounded.pos
    have hname : x.name ∈ cyclePath := by rwa [hstack, List.mem_reverse] at hlabel
    exact ⟨_, _, EStateM.bind_of_error (expandMelt_again n hname)⟩
  | @bad stack x done xs hlabel hnew hbad =>
    obtain ⟨n, rfl⟩ := hbounded.pos
    have hname : x.name ∉ cyclePath := by rwa [hstack, List.mem_reverse] at hlabel
    have hkey : x.key ∉ s.alreadyResolved := fun hmem => hnew ((hs.mem x).mp hmem)
    obtain ⟨text, s', hx⟩ := expandMelt_refused n hserves hname hkey hbad
    exact ⟨text, s', EStateM.bind_of_error hx⟩
  | @inside stack x done xs hlabel hnew hgood _ ih =>
    obtain ⟨n, rfl⟩ := hbounded.pos
    have hname : x.name ∉ cyclePath := by rwa [hstack, List.mem_reverse] at hlabel
    have hkey : x.key ∉ s.alreadyResolved := fun hmem => hnew ((hs.mem x).mp hmem)
    obtain ⟨melt, hmelt⟩ := Option.ne_none_iff_exists'.mp hgood
    obtain ⟨_, w, -, hx⟩ := expandMelt_inside n hserves hname hkey hmelt
    have henter := hbounded.enter hlabel
    rw [next_importGraph hmelt] at henter ih
    obtain ⟨text, s', hrun⟩ := ih n (cyclePath ++ [x.name])
      (by rw [hstack, List.reverse_append]; rfl) henter (s := { s with world := w }) hs
    exact ⟨text, s', EStateM.bind_of_error (hx.trans (EStateM.bind_of_error hrun))⟩
  | @skip stack x done xs hlabel hdone _ ih =>
    obtain ⟨n, rfl⟩ := hbounded.pos
    have hname : x.name ∉ cyclePath := by rwa [hstack, List.mem_reverse] at hlabel
    obtain ⟨text, s', hrun⟩ := ih (n + 1) cyclePath hstack hbounded.tail hs
    exact ⟨text, s', (EStateM.bind_of_ok
      (expandMelt_skip n hname ((hs.mem x).mpr hdone))).trans hrun⟩
  | @visit stack x done mid xs hlabel hnew hgood hmid _ ih =>
    obtain ⟨n, rfl⟩ := hbounded.pos
    obtain ⟨s₁, hvisit, hs₁⟩ := forM_expandMelt_of_walks hserves
      (.visit hlabel hnew hgood hmid .nil) (n + 1) cyclePath hstack hbounded.head hs
    obtain ⟨text, s', hrun⟩ := ih (n + 1) cyclePath hstack hbounded.tail hs₁
    refine ⟨text, s', ?_⟩
    have hx : expandMelt host repos (n + 1) cyclePath x s = .ok () s₁ := by
      obtain ⟨_, s₂, hx, hrest⟩ := EStateM.bind_eq_ok.mp hvisit
      rw [hx, (EStateM.pure_eq_ok.mp hrest).2]
    exact (EStateM.bind_of_ok hx).trans hrun

end Walk

/-! ## Guarantees -/

/-- Some chain of imports from the settings leads to the melt. -/
def Imported (melts : MeltImport → Option Melt) (imports : List MeltImport) (imp : MeltImport) :
    Prop := ∃ x ∈ imports, (importGraph melts).Reach x imp

structure ImporterWins (melts : MeltImport → Option Melt) (imports : List MeltImport)
    (surface : Melt → SortedMap String String) (values providers : SortedMap String String) :
    Prop where
  absent : ∀ name, providers.find? name = none ↔
    ∀ imp, Imported melts imports imp → ¬Defines melts surface name imp
  provided : ∀ name provider, providers.find? name = some provider → ∃ imp, imp.key = provider ∧
    Imported melts imports imp ∧ Defines melts surface name imp ∧
    values.find? name = (exported melts surface imp).find? name ∧
    ∀ importer, Imported melts imports importer → (importGraph melts).Leads importer imp →
      ¬Defines melts surface name importer

structure Expanded (melts : MeltImport → Option Melt) (imports : List MeltImport)
    (out : MeltResolution) : Prop where
  once : (out.resolvedMelts.map fun r => (r.name, r.version)).Nodup
  mem : ∀ imp : MeltImport, (imp.name, imp.version) ∈
    out.resolvedMelts.map (fun r => (r.name, r.version)) ↔ Imported melts imports imp
  constraints :
    ImporterWins melts imports Melt.dependencies out.depConstraints out.depProvidedBy
  properties : ImporterWins melts imports Melt.properties out.properties out.propertyProvidedBy

/-- Some import is of a melt that cannot be loaded, or some chain of imports comes back to the name
of a melt. -/
def Revisits (melts : MeltImport → Option Melt) (imports : List MeltImport) : Prop :=
  ∃ imp, Imported melts imports imp ∧
    (melts imp = none ∨ ∃ again, (importGraph melts).Leads imp again ∧ again.name = imp.name)

def ImportsItself (melts : MeltImport → Option Melt) (imports : List MeltImport) : Prop :=
  ∃ imp, Imported melts imports imp ∧ (melts imp = none ∨ (importGraph melts).Leads imp imp)

theorem Written.importerWins (h : Written melts surface done values providers)
    (hlisted : Listed (importGraph melts) done) (hmem : ∀ imp, imp ∈ done ↔
      Imported melts imports imp) :
    ImporterWins melts imports surface values providers := by
  refine ⟨fun name => ?_, fun name provider hprovider => ?_⟩
  · rw [h.provider, Option.map_eq_none_iff, lastDefiner, List.getLast?_eq_none_iff,
      List.filter_eq_nil_iff]
    exact forall_congr' fun imp => by rw [hmem, decide_eq_true_iff]
  · rw [h.provider] at hprovider
    obtain ⟨imp, himp, rfl⟩ := Option.map_eq_some_iff.mp hprovider
    obtain ⟨before, hbefore⟩ := List.getLast?_eq_some_iff.mp himp
    have hin : imp ∈ done.filter fun imp => Defines melts surface name imp := by
      rw [hbefore]
      exact List.mem_append_right _ List.mem_cons_self
    rw [List.mem_filter, decide_eq_true_iff] at hin
    refine ⟨imp, rfl, (hmem imp).mp hin.1, hin.2, by rw [h.value, himp]; rfl, ?_⟩
    -- the importer is listed behind `imp`, which is the last to define the name
    intro importer himporter hleads hdefines
    obtain ⟨a, b, hsplit⟩ := List.append_of_mem ((hmem importer).mpr himporter)
    rw [hsplit] at hlisted
    obtain ⟨a₁, a₂, ha⟩ := List.append_of_mem (hlisted.leads hleads)
    have hnodup := hlisted.nodup
    have hlast : (done.filter fun imp => Defines melts surface name imp).getLast? =
        ((importer :: b).filter fun imp => Defines melts surface name imp).getLast? := by
      rw [hsplit, List.filter_append,
        List.getLast?_append_of_ne_nil _ (by simp [hdefines])]
    have himp' : imp ∈ importer :: b := by
      rw [lastDefiner, hlast] at himp
      exact List.mem_of_mem_filter (List.mem_of_getLast? himp)
    rw [List.nodup_append] at hnodup
    exact hnodup.2.2 imp (hlisted.leads hleads) imp himp' rfl

theorem MeltsRecorded.expanded (h : MeltsRecorded melts done alreadyResolved out)
    (hlisted : Listed (importGraph melts) done)
    (hmem : ∀ imp, imp ∈ done ↔ Imported melts imports imp) : Expanded melts imports out := by
  have hinj : ∀ x y : MeltImport, (x.name, x.version) = (y.name, y.version) → x = y := by
    intro x y heq
    cases x
    cases y
    cases heq
    rfl
  refine ⟨?_, fun imp => ?_, h.constraints.importerWins hlisted hmem,
    h.properties.importerWins hlisted hmem⟩
  · rw [h.resolved]
    exact hlisted.nodup.map fun x y => hinj x y
  · rw [h.resolved, ← hmem, List.mem_map]
    constructor
    · rintro ⟨y, hy, heq⟩
      rwa [← hinj y imp heq]
    · exact fun himp => ⟨imp, himp, rfl⟩

/-- The resolution of a finite import graph ends. It succeeds only when every import can be loaded
and no melt imports itself, and fails only when some import cannot be loaded or some chain of
imports comes back to a name. When it succeeds, importers win. -/
theorem resolveMelts_spec {ω : Type} {host : Host ω} {repos : List (Repository ω)}
    {melts : MeltImport → Option Melt} (hserves : Serves host repos melts) {m : Manifest}
    (himports : parseSettingsMelts m = .ok imports) {nodes : List MeltImport}
    (hclosed : ∀ imp ∈ nodes, ∀ child ∈ (importGraph melts).next imp, child ∈ nodes)
    (hnodes : imports ⊆ nodes) {fuel : Nat} (hfuel : nodes.length < fuel) (w : ω) :
    ((∃ out w', resolveMelts host repos fuel m w = .ok out w' ∧ ¬ImportsItself melts imports ∧
        Expanded melts imports out) ∨
      (∃ text w', resolveMelts host repos fuel m w = .error (.failed text) w') ∧
        Revisits melts imports) := by
  have hbounded : Bounded (importGraph melts) nodes fuel [] imports :=
    .start hclosed hnodes hfuel
  have hstart : MeltsRecorded.In melts [] ({ world := w } : Melting ω) := .start
  rcases walks_or_stops hclosed List.nodup_nil (List.nil_subset _) hnodes [] with ⟨done, h⟩ | h
  · obtain ⟨s, hrun, hs⟩ := forM_expandMelt_of_walks hserves h fuel [] rfl hbounded hstart
    obtain ⟨hlisted, hmem⟩ := h.start
    refine .inl ⟨s.out, s.world, ?_, ?_, hs.expanded hlisted hmem⟩
    · unfold resolveMelts
      rw [himports]
      dsimp only
      rw [hrun]
    · rintro ⟨imp, himp, hbad⟩
      have hin := (hmem imp).mpr himp
      exact hbad.elim (hlisted.good imp hin) (hlisted.acyclic hin)
  · obtain ⟨text, s, hrun⟩ := forM_expandMelt_of_stops hserves h fuel [] rfl hbounded hstart
    refine .inr ⟨⟨text, s.world, ?_⟩, ?_⟩
    · unfold resolveMelts
      rw [himports]
      dsimp only
      rw [hrun]
    · obtain ⟨x, hx, y, hreach, hbad | hin | hagain⟩ := h.cause
      · exact ⟨y, ⟨x, hx, hreach⟩, .inl hbad⟩
      · exact absurd hin List.not_mem_nil
      · exact ⟨y, ⟨x, hx, hreach⟩, .inr hagain⟩

/-! ## A chain that comes back to a name -/

/-- The melts that repositories without a world load. -/
def served (host : Host Unit) (repos : List (Repository Unit)) (imp : MeltImport) : Option Melt :=
  match loadMelt host repos imp () with
  | .ok r _ => some r.2
  | .error _ _ => none

theorem serves_served (host : Host Unit) (repos : List (Repository Unit)) :
    Serves host repos (served host repos) where
  loads imp melt w h := by
    unfold served at h
    split at h
    · next r w' hload =>
      cases h
      exact ⟨r.1, w', hload⟩
    · cases h
  refuses imp w h := by
    unfold served at h
    split at h
    · cases h
    · next e w' hload => exact ⟨e, w', hload⟩

/-- The manifest of a melt that imports others, and its text. -/
def meltSidecar (name version : String) (imports : List String) : String × Json :=
  ("\x7b\"details\":\x7b\"name\":\"" ++ name ++ "\",\"version\":\"" ++ version ++
      "\"\x7d,\"melt\":\x7b\"melts\":[" ++
      String.intercalate "," (imports.map fun imp => "\"" ++ imp ++ "\"") ++ "]\x7d\x7d",
    .obj [("details", .obj [("name", .str name), ("version", .str version)]),
      ("melt", .obj [("melts", .arr (imports.map .str))])])

/-- `m@1` imports `x@1`, and that imports `m@2`. -/
def chainTexts : List (String × Json) :=
  [meltSidecar "m" "1" ["x@1"], meltSidecar "x" "1" ["m@2"], meltSidecar "m" "2" []]

def chainRepository : Repository Unit := catalogRepository "central"
  [{ name := "m", version := "1", sidecar := some (meltSidecar "m" "1" ["x@1"]).1 },
   { name := "x", version := "1", sidecar := some (meltSidecar "x" "1" ["m@2"]).1 },
   { name := "m", version := "2", sidecar := some (meltSidecar "m" "2" []).1 }]

def chainMelts : MeltImport → Option Melt := served (textHost chainTexts) [chainRepository]

/-- The settings import `x@1` before `m@1`. -/
def chainManifest : Manifest where
  details := { name := "app", version := "1" }
  settingsRaw := [("melts", .arr [.str "x@1", .str "m@1"])]
  sourcePath := "cajeta.json"

def m1 : MeltImport := ⟨"m", "1", by decide⟩

def m2 : MeltImport := ⟨"m", "2", by decide⟩

def x1 : MeltImport := ⟨"x", "1", by decide⟩

theorem chain_settings : parseSettingsMelts chainManifest = .ok [x1, m1] := by
  decide +kernel

theorem chain_next : (importGraph chainMelts).next m1 = [x1] ∧
    (importGraph chainMelts).next x1 = [m2] ∧ (importGraph chainMelts).next m2 = [] := by
  decide +kernel

theorem chain_closed : ∀ imp ∈ [x1, m1, m2], ∀ child ∈ (importGraph chainMelts).next imp,
    child ∈ [x1, m1, m2] := by
  obtain ⟨hm1, hx1, hm2⟩ := chain_next
  simp [hm1, hx1, hm2]

theorem chain_resolves :
    (∃ out w', resolveMelts (textHost chainTexts) [chainRepository] 4 chainManifest () =
        .ok out w' ∧ ¬ImportsItself chainMelts [x1, m1] ∧ Expanded chainMelts [x1, m1] out) ∨
      (∃ text w', resolveMelts (textHost chainTexts) [chainRepository] 4 chainManifest () =
        .error (.failed text) w') ∧ Revisits chainMelts [x1, m1] :=
  resolveMelts_spec (serves_served _ _) chain_settings chain_closed (by simp) (by decide) ()

/-- `m@1` leads to `m@2`, and no melt is missing: yet the resolution succeeds, as `x@1` has been
expanded before `m@1`. -/
theorem revisited_name_resolves :
    parseSettingsMelts chainManifest = .ok [x1, m1] ∧ Revisits chainMelts [x1, m1] ∧
      ∃ out w', resolveMelts (textHost chainTexts) [chainRepository] 4 chainManifest () =
        .ok out w' := by
  obtain ⟨hm1, hx1, -⟩ := chain_next
  refine ⟨chain_settings, ⟨m1, ⟨m1, by simp, .refl⟩, .inr ⟨m2, ?_, rfl⟩⟩, ?_⟩
  · refine .head (b := x1) ?_ (.single ?_)
    · rw [WalkGraph.Edge, hm1]
      exact List.mem_cons_self
    · rw [WalkGraph.Edge, hx1]
      exact List.mem_cons_self
  · have hrun : EStateM.failureOf (resolveMelts (textHost chainTexts)
      [chainRepository] 4 chainManifest ()) =
        none := by decide +kernel
    cases h : resolveMelts (textHost chainTexts) [chainRepository] 4 chainManifest () with
    | ok out w' => exact ⟨out, w', rfl⟩
    | error e w' =>
      rw [h] at hrun
      cases hrun

end Cajeta.Buildtool
