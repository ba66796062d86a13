import Cajeta.Net.DotSegments
import Cajeta.Net.UriGuarantees

/-!
# Resolving a reference

The target of a reference has the parts that RFC 3986, section 5.2.2, puts together. Printing the
target and parsing the text gives it back when no port is lost or missing and, where the target has
no authority, its path does not start with two slashes.
-/

namespace Cajeta.Net.Uri

inductive Merges (base : Parts) (ref : List UInt8) : List UInt8 → Prop where
  | empty : base.authority.isSome = true → base.path = [] → Merges base ref (slash :: ref)
  | whole : ¬(base.authority.isSome = true ∧ base.path = []) → slash ∉ base.path →
      Merges base ref ref
  | last : base.path = x ++ slash :: y → slash ∉ y → Merges base ref (x ++ slash :: ref)

/-- The target of a reference. -/
inductive Transforms (base ref : Parts) : Parts → Prop where
  | scheme : ref.scheme.isSome = true → Removes ref.path [] r →
      Transforms base ref { ref with path := r }
  | authority : ref.scheme = none → ref.authority.isSome = true → Removes ref.path [] r →
      Transforms base ref { ref with scheme := base.scheme, path := r }
  | same : ref.scheme = none → ref.authority = none → ref.path = [] →
      Transforms base ref { base with query := ref.query.or base.query, fragment := ref.fragment }
  | rooted : ref.scheme = none → ref.authority = none → ref.path.head? = some slash →
      Removes ref.path [] r →
      Transforms base ref { ref with scheme := base.scheme, authority := base.authority, path := r }
  | merged : ref.scheme = none → ref.authority = none → ref.path ≠ [] →
      ref.path.head? ≠ some slash → Merges base ref.path m → Removes m [] r →
      Transforms base ref { ref with scheme := base.scheme, authority := base.authority, path := r }

theorem exists_merges (base : Parts) (ref : List UInt8) : ∃ m, Merges base ref m := by
  by_cases h : base.authority.isSome = true ∧ base.path = []
  · exact ⟨_, .empty h.1 h.2⟩
  · rcases exists_last_split slash base.path with hno | ⟨x, y, hy, heq⟩
    · exact ⟨_, .whole h hno⟩
    · exact ⟨_, .last heq hy⟩

theorem exists_transforms (base ref : Parts) : ∃ t, Transforms base ref t := by
  obtain ⟨r, hr⟩ := exists_removes ref.path []
  by_cases hscheme : ref.scheme = none
  · by_cases hauth : ref.authority = none
    · by_cases hpath : ref.path = []
      · exact ⟨_, .same hscheme hauth hpath⟩
      · by_cases hroot : ref.path.head? = some slash
        · exact ⟨_, .rooted hscheme hauth hroot hr⟩
        · obtain ⟨m, hm⟩ := exists_merges base ref.path
          obtain ⟨r, hr⟩ := exists_removes m []
          exact ⟨_, .merged hscheme hauth hpath hroot hm hr⟩
    · exact ⟨_, .authority hscheme (Option.isSome_iff_ne_none.mpr hauth) hr⟩
  · exact ⟨_, .scheme (Option.isSome_iff_ne_none.mpr hscheme) hr⟩

theorem Merges.canonical (h : Merges base ref m) : Merges base.canonical ref m := by
  have hsome : base.canonical.authority.isSome = base.authority.isSome := Option.isSome_map
  cases h with
  | empty hauth hpath => exact .empty (hsome.trans hauth) hpath
  | whole hno hpath => exact .whole (by rw [hsome]; exact hno) hpath
  | last hpath hy => exact .last hpath hy

theorem Transforms.canonical (h : Transforms base ref t) :
    Transforms base.canonical ref.canonical t.canonical := by
  cases h with
  | scheme hs hr => exact .scheme (Option.isSome_map.trans hs) hr
  | authority hs ha hr =>
    exact .authority (Option.map_eq_none_iff.mpr hs) (Option.isSome_map.trans ha) hr
  | same hs ha hp => exact .same (Option.map_eq_none_iff.mpr hs) (Option.map_eq_none_iff.mpr ha) hp
  | rooted hs ha hp hr =>
    exact .rooted (Option.map_eq_none_iff.mpr hs) (Option.map_eq_none_iff.mpr ha) hp hr
  | merged hs ha hp hroot hm hr =>
    exact .merged (Option.map_eq_none_iff.mpr hs) (Option.map_eq_none_iff.mpr ha) hp hroot
      hm.canonical hr

/-! ## The code -/

theorem merge_of_merges {p : Parts} (h : Merges p ref m) : merge p.uri ref = .ok m := by
  unfold merge
  cases h with
  | empty hauth hpath =>
    obtain ⟨o, hrun, hout, -⟩ := ((writes_putByte slash).bind (writes_copyInto ref)).run
    rw [if_pos ⟨hauth, List.length_eq_zero_iff.mpr hpath⟩]
    rw [List.length_append, List.length_singleton, Nat.add_comm] at hrun
    rw [← bind_assoc, hrun, Except.ok_bind, hout]
    rfl
  | whole hno hpath =>
    obtain ⟨o, hrun, hout, -⟩ := ((writes_copyInto []).bind (writes_copyInto ref)).run
    rw [List.nil_append] at hrun hout
    have hsearch := lastIn_none (Spans.whole p.path) hpath
    rw [if_neg fun hall => hno ⟨hall.1, List.length_eq_zero_iff.mp hall.2⟩]
    change (lastIn p.path slash 0 p.path.length none >>= _) = _
    rw [Nat.sub_zero] at hsearch
    rw [hsearch, Except.ok_bind]
    change (slice p.uri.path 0 0 >>= _) = _
    rw [show slice p.uri.path 0 0 = .ok [] from rfl, Except.ok_bind]
    change (copyInto ⟨List.replicate (0 + ref.length) 0, 0⟩ [] >>= _) = _
    rw [← bind_assoc, Nat.zero_add, hrun, Except.ok_bind, hout]
    rfl
  | @last x y hpath hy =>
    obtain ⟨o, hrun, hout, -⟩ := ((writes_copyInto (x ++ [slash])).bind (writes_copyInto ref)).run
    have hspan := Spans.whole p.path
    rw [hpath] at hspan
    have hsearch := lastIn_some hspan hy
    have hkept : Spans (x ++ slash :: y) 0 (x ++ [slash]) (x.length + 1) :=
      ⟨⟨[], y, by simp, rfl⟩, by simp⟩
    rw [if_neg fun hall => by
      have hnil : p.path = [] := List.length_eq_zero_iff.mp hall.2
      rw [hpath] at hnil
      simp at hnil]
    change (lastIn p.path slash 0 p.path.length none >>= _) = _
    rw [Nat.sub_zero, Nat.zero_add] at hsearch
    rw [hpath, hsearch, Except.ok_bind]
    change (slice p.path 0 (x.length + 1) >>= _) = _
    rw [hpath, slice_span hkept, Except.ok_bind]
    rw [List.length_append, List.length_append, List.length_singleton] at hrun
    change (copyInto ⟨List.replicate (x.length + 1 + ref.length) 0, 0⟩ (x ++ [slash]) >>= _) = _
    rw [← bind_assoc, hrun, Except.ok_bind, hout]
    simp
    rfl

def target (base ref t : Parts) : Uri :=
  { t.uri with port := if ref.scheme.isSome ∨ ref.authority.isSome then ref.port else base.port }

/-! One equation for each branch. -/

section Branches

variable {base ref : Uri}

theorem transform_scheme (hs : ref.hasScheme = true) (hr : removeDotSegments ref.path = .ok r) :
    transform base ref = .ok
      { copyAuthority { scheme := ref.scheme, hasScheme := true } ref with
        path := r, query := ref.query, hasQuery := ref.hasQuery } := by
  unfold transform
  rw [if_pos hs, hr]
  rfl

theorem transform_authority (hs : ¬ref.hasScheme = true) (ha : ref.hasAuthority = true)
    (hr : removeDotSegments ref.path = .ok r) :
    transform base ref = .ok
      { copyAuthority { scheme := base.scheme, hasScheme := base.hasScheme } ref with
        path := r, query := ref.query, hasQuery := ref.hasQuery } := by
  unfold transform
  rw [if_neg hs, if_pos ha, hr]
  rfl

/-- The target of a reference with neither scheme nor authority has those of the base. -/
def inherited (base : Uri) : Uri :=
  copyAuthority { scheme := base.scheme, hasScheme := base.hasScheme } base

theorem transform_same (hs : ¬ref.hasScheme = true) (ha : ¬ref.hasAuthority = true)
    (hp : ref.path = []) :
    transform base ref = .ok
      (if ref.hasQuery then
        { base.inherited with path := base.path, query := ref.query, hasQuery := true }
      else { base.inherited with path := base.path, query := base.query, hasQuery :=
        base.hasQuery }) := by
  unfold transform resolvePath
  rw [if_neg hs, if_neg ha, if_pos (List.length_eq_zero_iff.mpr hp)]
  cases ref.hasQuery <;> rfl

theorem transform_path (hs : ¬ref.hasScheme = true) (ha : ¬ref.hasAuthority = true)
    (hp : ref.path = c :: t)
    (hm : (if c = slash then pure ref.path else merge base ref.path) = .ok m)
    (hr : removeDotSegments m = .ok r) :
    transform base ref = .ok
      { base.inherited with path := r, query := ref.query, hasQuery := ref.hasQuery } := by
  have hbyte : byteIs ref.path 0 slash = .ok (decide (c = slash)) := by
    rw [hp]
    rfl
  unfold transform resolvePath
  rw [if_neg hs, if_neg ha, if_neg (by simp [hp]), hbyte, Except.ok_bind]
  simp only [decide_eq_true_eq]
  rw [hm, Except.ok_bind, hr]
  rfl

end Branches

theorem resolve_of_transforms {pb pr pt : Parts} (hr : parseReference reference = .ok pr.uri)
    (h : Transforms pb pr pt) : resolve pb.uri reference = .ok (target pb pr pt) := by
  rw [resolve, hr, Except.ok_bind]
  obtain ⟨scheme, authority, path, query, fragment⟩ := pr
  cases h with
  | scheme hs hremoves =>
    cases scheme with
    | none => cases hs
    | some s =>
      rw [transform_scheme rfl (removeDotSegments_of_removes hremoves)]
      rfl
  | authority hs ha hremoves =>
    cases authority with
    | none => cases ha
    | some a =>
      obtain rfl : scheme = none := hs
      rw [transform_authority (by simp [Parts.uri]) rfl (removeDotSegments_of_removes hremoves)]
      rfl
  | same hs ha hp =>
    obtain rfl : scheme = none := hs
    obtain rfl : authority = none := ha
    rw [transform_same (by simp [Parts.uri]) (by simp [Parts.uri]) hp]
    cases query <;> rfl
  | rooted hs ha hroot hremoves =>
    obtain rfl : scheme = none := hs
    obtain rfl : authority = none := ha
    obtain ⟨path, rfl⟩ : ∃ t, path = slash :: t := by
      cases path with
      | nil => cases hroot
      | cons c t => exact ⟨t, by rw [Option.some.inj hroot]⟩
    rw [transform_path (by simp [Parts.uri]) (by simp [Parts.uri]) rfl (if_pos rfl)
      (removeDotSegments_of_removes hremoves)]
    rfl
  | merged hs ha hp hroot hm hremoves =>
    obtain rfl : scheme = none := hs
    obtain rfl : authority = none := ha
    obtain ⟨c, path, rfl⟩ : ∃ c t, path = c :: t := List.exists_cons_of_ne_nil hp
    have hc : c ≠ slash := fun hc => hroot (by rw [hc]; rfl)
    rw [transform_path (by simp [Parts.uri]) (by simp [Parts.uri]) rfl
      ((if_neg hc).trans (merge_of_merges hm)) (removeDotSegments_of_removes hremoves)]
    rfl

/-!
## What resolving a reference guarantees

Dot segments are removed as the RFC says, once and for all. The target has the parts that the
algorithm puts together, and its text parses back to it unless a port is lost or missing, or a path
without an authority starts with two slashes.
-/

/-! ## The target's parts -/

theorem Removes.notMem (h : Removes s [] r) (hc : c ∉ s) : c ∉ r := fun hr =>
  (h.mem hr).elim hc (by simp)

theorem Removes.nil (h : Removes [] out r) : r = out := by
  cases h with
  | done => rfl
  | step hstep => exact absurd rfl hstep.ne_nil

theorem Removes.nil_or_rooted (h : Removes s [] r) (hs : s = [] ∨ s.head? = some slash) :
    r = [] ∨ r.head? = some slash := by
  rcases hs with rfl | hs
  · exact .inl h.nil
  · exact .inr (h.rooted hs)

theorem Merges.notMem (h : Merges base ref m) (hne : c ≠ slash) (hbase : c ∉ base.path)
    (href : c ∉ ref) : c ∉ m := by
  cases h with
  | empty => simp [hne, href]
  | whole => exact href
  | last hpath =>
    rw [hpath] at hbase
    simp only [List.mem_append, List.mem_cons, not_or] at hbase ⊢
    exact ⟨hbase.1, hne, href⟩

theorem Merges.rooted (h : Merges base ref m) (hauth : base.authority.isSome = true)
    (hbase : base.path = [] ∨ base.path.head? = some slash) : m.head? = some slash := by
  cases h with
  | empty => rfl
  | whole hno hpath =>
    rcases hbase with hbase | hbase
    · exact absurd ⟨hauth, hbase⟩ hno
    · exact absurd (List.mem_of_head? hbase) hpath
  | @last x y hpath =>
    rcases hbase with hbase | hbase
    · rw [hpath] at hbase
      simp at hbase
    · rw [hpath] at hbase
      cases x with
      | nil => rfl
      | cons d x => exact hbase

/-- The target of good parts is good, but for a path that would be read as an authority. -/
theorem Transforms.good {base ref t : Parts} (hb : base.Good) (hr : ref.Good)
    (hs : base.scheme.isSome = true) (h : Transforms base ref t)
    (hslashes : t.authority = none → ¬[slash, slash] <+: t.path) : t.Good := by
  cases h with
  | scheme hscheme hremoves =>
    refine ⟨hr.scheme, fun a ha => ?_, hslashes, fun hnone => ?_,
      ⟨hremoves.notMem hr.path.1, hremoves.notMem hr.path.2⟩, hr.query⟩
    · obtain ⟨hgood, h1, h2, h3, hpath⟩ := hr.authority a ha
      exact ⟨hgood, h1, h2, h3, hremoves.nil_or_rooted hpath⟩
    · rw [show ref.scheme = none from hnone] at hscheme
      cases hscheme
  | authority hscheme hauth hremoves =>
    refine ⟨hb.scheme, fun a ha => ?_, hslashes, fun hnone => ?_,
      ⟨hremoves.notMem hr.path.1, hremoves.notMem hr.path.2⟩, hr.query⟩
    · obtain ⟨hgood, h1, h2, h3, hpath⟩ := hr.authority a ha
      exact ⟨hgood, h1, h2, h3, hremoves.nil_or_rooted hpath⟩
    · rw [show base.scheme = none from hnone] at hs
      cases hs
  | same hscheme hauth hpath =>
    refine ⟨hb.scheme, hb.authority, hslashes, fun hnone => ?_, hb.path, fun q hq => ?_⟩
    · rw [show base.scheme = none from hnone] at hs
      cases hs
    · rcases Option.or_eq_some_iff.mp hq with hq | ⟨-, hq⟩
      · exact hr.query q hq
      · exact hb.query q hq
  | rooted hscheme hauth hroot hremoves =>
    refine ⟨hb.scheme, fun a ha => ?_, hslashes, fun hnone => ?_,
      ⟨hremoves.notMem hr.path.1, hremoves.notMem hr.path.2⟩, hr.query⟩
    · obtain ⟨hgood, h1, h2, h3, -⟩ := hb.authority a ha
      exact ⟨hgood, h1, h2, h3, .inr (hremoves.rooted hroot)⟩
    · rw [show base.scheme = none from hnone] at hs
      cases hs
  | merged hscheme hauth hne hroot hmerges hremoves =>
    refine ⟨hb.scheme, fun a ha => ?_, hslashes, fun hnone => ?_,
      ⟨hremoves.notMem (hmerges.notMem (by decide) hb.path.1 hr.path.1),
        hremoves.notMem (hmerges.notMem (by decide) hb.path.2 hr.path.2)⟩, hr.query⟩
    · obtain ⟨hgood, h1, h2, h3, hpath⟩ := hb.authority a ha
      have hsome : base.authority.isSome = true := by
        rw [show base.authority = some a from ha]
        rfl
      exact ⟨hgood, h1, h2, h3, .inr (hremoves.rooted (hmerges.rooted hsome hpath))⟩
    · rw [show base.scheme = none from hnone] at hs
      cases hs

theorem Transforms.scheme_isSome {base ref t : Parts} (h : Transforms base ref t)
    (hs : base.scheme.isSome = true) : t.scheme.isSome = true := by
  cases h with
  | scheme hscheme => exact hscheme
  | authority | same | rooted | merged => exact hs

def authoritySource (base ref : Parts) : Parts :=
  if ref.scheme.isSome ∨ ref.authority.isSome then ref else base

/-- A reference that says the host but not the port, nor the scheme that would say it. -/
def MissesPort (base ref : Parts) : Prop :=
  ref.scheme = none ∧ ref.authority.isSome = true ∧ ref.explicitPort = none ∧
    (base.scheme.elim (-1) fun s => defaultPortFor (toLowerCase s)) ≠ -1

theorem Transforms.authority_eq {base ref t : Parts} (h : Transforms base ref t) :
    t.authority = (authoritySource base ref).authority := by
  unfold authoritySource
  cases h with
  | scheme hs => rw [if_pos (.inl hs)]
  | authority hs ha => rw [if_pos (.inr ha)]
  | same hs ha | rooted hs ha | merged hs ha => rw [if_neg (by simp [hs, ha])]

theorem Transforms.explicitPort_eq {base ref t : Parts} (h : Transforms base ref t) :
    t.explicitPort = (authoritySource base ref).explicitPort := by
  rw [Parts.explicitPort, h.authority_eq]
  rfl

theorem target_port (base ref t : Parts) :
    (target base ref t).port = (authoritySource base ref).port := by
  unfold target authoritySource
  dsimp only
  split <;> rfl

theorem Transforms.port_iff {base ref t : Parts} (h : Transforms base ref t) :
    (target base ref t).port = t.port ↔ ¬MissesPort base ref := by
  rw [target_port, MissesPort, authoritySource]
  cases h with
  | scheme hs =>
    rw [if_pos (.inl hs)]
    refine iff_of_true rfl fun hmiss => ?_
    rw [hmiss.1] at hs
    cases hs
  | @authority r hs ha =>
    rw [if_pos (.inr ha)]
    have hexplicit : ({ ref with scheme := base.scheme, path := r } : Parts).explicitPort =
      ref.explicitPort := rfl
    rw [Parts.port, Parts.port, if_pos ha, if_pos ha, hexplicit, hs]
    cases ref.explicitPort with
    | none =>
      simp only [Option.elim_none, ha, true_and, not_not]
      exact eq_comm
    | some v => simp
  | same hs ha | rooted hs ha | merged hs ha =>
    rw [if_neg (by simp [hs, ha])]
    refine iff_of_true rfl fun hmiss => ?_
    rw [ha] at hmiss
    cases hmiss.2.1

theorem target_eq_iff {base ref t : Parts} : target base ref t = t.uri ↔
    (target base ref t).port = t.port := by
  refine ⟨fun h => by rw [h]; rfl, fun h => ?_⟩
  change { t.uri with port := (target base ref t).port } = t.uri
  rw [h]
  rfl

theorem Transforms.parts_target {base ref t : Parts} (h : Transforms base ref t) :
    (target base ref t).parts = t.canonical := by
  rw [← parts_uri]
  have hport : given (target base ref t).printsPort (decimal (target base ref t).port.toNat) =
      given t.uri.printsPort (decimal t.uri.port.toNat) := by
    unfold printsPort
    change given (t.explicitPort.isSome && _) _ = given (t.explicitPort.isSome && _) _
    cases hexplicit : t.explicitPort with
    | none => rfl
    | some v =>
      have hmiss : ¬MissesPort base ref := by
        rintro ⟨hs, ha, hnone, -⟩
        rw [h.explicitPort_eq, authoritySource, if_pos (.inr ha), hnone] at hexplicit
        cases hexplicit
      rw [h.port_iff.mpr hmiss]
      rfl
  rw [parts, hport]
  rfl

def LosesPort (u : Uri) : Prop :=
  u.hasAuthority = true ∧ u.hostIsIpv6 = false ∧ u.hasExplicitPort = false ∧ colon ∈ u.host

theorem Parts.Good.losesPort_iff {p : Parts} (h : p.Good) : p.LosesPort ↔ p.uri.LosesPort := by
  constructor
  · rintro ⟨a, ha, hipv6, hport, hcolon⟩
    simp [Uri.LosesPort, Parts.uri, Parts.explicitPort, ha, hipv6, hport, hcolon, portNumber]
  · rintro ⟨hauth, hipv6, hexplicit, hcolon⟩
    obtain ⟨a, ha⟩ := Option.isSome_iff_exists.mp hauth
    simp only [Parts.uri, Parts.explicitPort, ha, Option.map_some, Option.getD_some,
      Option.bind_some] at hipv6 hexplicit hcolon
    refine ⟨a, ha, hipv6, ?_, hcolon⟩
    cases hport : a.port with
    | none => exact absurd hcolon ((h.authority a ha).1.unported hipv6 hport)
    | some ds =>
      rw [hport, Option.bind_some, Option.isSome_eq_false_iff, Option.isNone_iff_eq_none]
        at hexplicit
      rw [portNumber_eq_none hexplicit]

theorem Transforms.losesPort_iff {base ref t : Parts} (h : Transforms base ref t) :
    t.LosesPort ↔ (authoritySource base ref).LosesPort := by
  rw [Parts.LosesPort, Parts.LosesPort, h.authority_eq]

/-- The target's port is said, its host ends where it is read to end, and its path is not read as
an authority. -/
structure TargetRereads (base ref : Uri) : Prop where
  host : ¬(if ref.hasScheme = true ∨ ref.hasAuthority = true then ref else base).LosesPort
  port : ref.hasScheme = false → ref.hasAuthority = true → ref.hasExplicitPort = false →
    defaultPortFor base.scheme = -1
  path : ∀ t, Transforms base.parts ref.parts t → t.authority = none → ¬[slash, slash] <+: t.path

theorem missesPort_iff {base ref : Parts} (hs : base.scheme.isSome = true) :
    MissesPort base ref ↔ ¬(ref.uri.hasScheme = false → ref.uri.hasAuthority = true →
      ref.uri.hasExplicitPort = false → defaultPortFor base.uri.scheme = -1) := by
  obtain ⟨s, hs⟩ := Option.isSome_iff_exists.mp hs
  simp [MissesPort, Parts.uri, hs]

/-! ## Resolving -/

/-- What the code does to a path is what the RFC says, and doing it again changes nothing. -/
structure RemovesDots (path : List UInt8) : Prop where
  rewrites : ∃ r, removeDotSegments path = .ok r ∧ ∀ r', Removes path [] r' ↔ r' = r
  noDots : ∀ r, removeDotSegments path = .ok r → NoDots r
  idempotent : ∀ r, removeDotSegments path = .ok r → removeDotSegments r = .ok r

theorem removesDots (path : List UInt8) : RemovesDots path := by
  obtain ⟨r, hr⟩ := exists_removes path []
  have hok := removeDotSegments_of_removes hr
  have hno : NoDots r := (clean_start path).removes hr
  have heq : ∀ r', removeDotSegments path = .ok r' → r' = r := fun r' h =>
    (Except.ok.inj (hok.symm.trans h)).symm
  refine ⟨⟨r, hok, fun r' => ⟨fun h => heq r' (removeDotSegments_of_removes h), fun h => h ▸ hr⟩⟩,
    fun r' h => heq r' h ▸ hno, fun r' h => ?_⟩
  rw [heq r' h]
  exact removeDotSegments_of_removes (hno.removes [])

/-- The target has the RFC's parts and is parsed back from its text. -/
structure Resolves (base ref : Uri) (reference : Option (List UInt8)) : Prop where
  dots : ∀ path, RemovesDots path
  target : ∃ t, resolve base reference = .ok t ∧ Transforms base.parts ref.parts t.parts
  rereads : ∀ t, resolve base reference = .ok t → Recomposes t

theorem good_empty : (⟨none, none, [], none, none⟩ : Parts).Good where
  scheme := by simp
  authority := by simp
  unslashed := by simp
  unschemed _ _ s rest _ := by simp
  path := by simp
  query := by simp

theorem exists_reference_parts (h : parseReference reference = .ok ref) :
    ∃ p : Parts, p.Good ∧ p.uri = ref := by
  have hempty : ∀ u, (pure {} : Parse Uri) = .ok u → ∃ p : Parts, p.Good ∧ p.uri = u := by
    intro u hu
    exact ⟨⟨none, none, [], none, none⟩, good_empty, Except.ok.inj hu⟩
  cases reference with
  | none => exact hempty _ h
  | some t =>
    rw [parseReference] at h
    split at h
    · obtain ⟨-, p, hgood, -, huri⟩ := exists_parts h
      exact ⟨p, hgood, huri⟩
    · exact hempty _ h

theorem recomposes_target_iff {pb pr pt : Parts} (hb : pb.Good) (hr : pr.Good)
    (hs : pb.scheme.isSome = true) (h : Transforms pb pr pt) :
    Recomposes (target pb pr pt) ↔ ¬(authoritySource pb pr).LosesPort ∧ ¬MissesPort pb pr ∧
      (pt.authority = none → ¬[slash, slash] <+: pt.path) := by
  rw [recomposes_iff, parse_text_iff, h.parts_target, Parts.uri_canonical]
  constructor
  · rintro ⟨-, hcanonical, huri⟩
    have hslashes : pt.authority = none → ¬[slash, slash] <+: pt.path := fun hnone =>
      hcanonical.unslashed (Option.map_eq_none_iff.mpr hnone)
    have hgood := h.good hb hr hs hslashes
    exact ⟨fun hloses => hgood.canonical_iff.mp hcanonical (h.losesPort_iff.mpr hloses),
      h.port_iff.mp (target_eq_iff.mp huri.symm), hslashes⟩
  · rintro ⟨hkeeps, hport, hslashes⟩
    have hgood := h.good hb hr hs hslashes
    refine ⟨Parts.canonical_text_ne_nil ?_,
      hgood.canonical_iff.mpr fun hloses => hkeeps (h.losesPort_iff.mp hloses),
      (target_eq_iff.mpr (h.port_iff.mpr hport)).symm⟩
    obtain ⟨s, hscheme⟩ := Option.isSome_iff_exists.mp (h.scheme_isSome hs)
    simp [Parts.text, hscheme, upTo]

theorem Transforms.path_iff {pb pr pt : Parts} (hr : parseReference reference = .ok pr.uri)
    (h : Transforms pb pr pt) :
    (∀ t, Transforms pb.uri.parts pr.uri.parts t → t.authority = none →
      ¬[slash, slash] <+: t.path) ↔ (pt.authority = none → ¬[slash, slash] <+: pt.path) := by
  simp only [parts_uri]
  constructor
  · intro hall hnone
    exact hall pt.canonical h.canonical (Option.map_eq_none_iff.mpr hnone)
  · intro hpath t ht
    have hresolve := resolve_of_transforms hr h
    rw [← Parts.uri_canonical pr] at hr
    have hresolve' := resolve_of_transforms hr ht
    rw [Parts.uri_canonical, hresolve, Except.ok.injEq] at hresolve'
    have hsame : pt.path = t.path := congrArg Uri.path hresolve'
    have hauth : pt.authority.isSome = t.authority.isSome := congrArg Uri.hasAuthority hresolve'
    intro hnone
    rw [← hsame]
    apply hpath
    rwa [hnone, Option.isSome_none, Option.isSome_eq_false_iff, Option.isNone_iff_eq_none] at hauth

/-- A reference resolves to what its text says unless a port is lost or missing, or the target's
path is read as an authority. -/
theorem resolves_iff_targetRereads {base ref : Uri} {text : List UInt8}
    {reference : Option (List UInt8)} (hb : parse (some text) = .ok base)
    (hs : base.hasScheme = true) (hr : parseReference reference = .ok ref) :
    Resolves base ref reference ↔ TargetRereads base ref := by
  obtain ⟨-, pb, hbase, -, rfl⟩ := exists_parts hb
  obtain ⟨pr, href, rfl⟩ := exists_reference_parts hr
  obtain ⟨pt, ht⟩ := exists_transforms pb pr
  have hresolve := resolve_of_transforms hr ht
  have hiff := recomposes_target_iff hbase href hs ht
  have hsource : (if pr.uri.hasScheme = true ∨ pr.uri.hasAuthority = true then pr.uri
      else pb.uri) = (authoritySource pb pr).uri := by
    change (if pr.scheme.isSome = true ∨ pr.authority.isSome = true then _ else _) = _
    unfold authoritySource
    split <;> rfl
  have hloses : (authoritySource pb pr).LosesPort ↔ (authoritySource pb pr).uri.LosesPort := by
    apply Parts.Good.losesPort_iff
    unfold authoritySource
    split
    · exact href
    · exact hbase
  rw [hloses, ← hsource, missesPort_iff hs, not_not, ← ht.path_iff hr] at hiff
  constructor
  · intro h
    obtain ⟨hhost, hport, hpath⟩ := hiff.mp (h.rereads _ hresolve)
    exact ⟨hhost, hport, hpath⟩
  · intro h
    refine ⟨removesDots, ⟨_, hresolve, ?_⟩, fun t hok => ?_⟩
    · rw [ht.parts_target, parts_uri, parts_uri]
      exact ht.canonical
    · rw [hresolve, Except.ok.injEq] at hok
      rw [← hok]
      exact hiff.mpr ⟨h.host, h.port, h.path⟩

/-- `c` against `a:b` is `a:c`. -/
theorem resolves_sibling :
    Resolves { scheme := [97], hasScheme := true, path := [98] } { path := [99] } (some [99]) ↔
      TargetRereads { scheme := [97], hasScheme := true, path := [98] } { path := [99] } := by
  have hb : parse (some [97, 58, 98]) = .ok { scheme := [97], hasScheme := true, path :=
    [98] } := by
    rfl
  have hr : parseReference (some [99]) = .ok { path := [99] } := by rfl
  exact resolves_iff_targetRereads hb rfl hr

/-- `http://a`. -/
def httpBase : Uri :=
  { scheme := [104, 116, 116, 112], hasScheme := true, hasAuthority := true, host := [97],
    port := 80 }

/-- `//h` against `http://a` has no port, and its text `http://h` has port 80. -/
theorem inherited_port_missing :
    parse (some [104, 116, 116, 112, 58, 47, 47, 97]) = .ok httpBase ∧
    parseReference (some [47, 47, 104]) = .ok { hasAuthority := true, host := [104] } ∧
    ¬Resolves httpBase { hasAuthority := true, host := [104] } (some [47, 47, 104]) := by
  refine ⟨rfl, rfl, fun h => ?_⟩
  have hresolve : resolve httpBase (some [47, 47, 104]) =
      .ok { httpBase with host := [104], port := -1 } := by rfl
  obtain ⟨t, ht, hback⟩ := (h.rereads _ hresolve).parsesBack
  have hprint : toString { httpBase with host := [104], port := -1 } =
      .ok [104, 116, 116, 112, 58, 47, 47, 104] := by rfl
  rw [hprint, Except.ok.injEq] at ht
  subst ht
  have hparse : parse (some [104, 116, 116, 112, 58, 47, 47, 104]) =
      .ok { httpBase with host := [104] } := by rfl
  rw [hparse, Except.ok.injEq] at hback
  exact absurd (congrArg Uri.port hback) (by decide)

end Cajeta.Net.Uri
