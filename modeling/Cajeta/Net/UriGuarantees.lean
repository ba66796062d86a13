import Cajeta.Net.UriRecompose

/-!
# What recomposing a URI guarantees

The text that is printed has the parts of the URI: its scheme in lower case, its port as a number.
It parses back to the URI unless an empty port was behind a host with a colon, which is then read as
host and port.
-/

namespace Cajeta.Net.Uri

def Authority.canonical (a : Authority) : Authority :=
  { a with port := (a.port.bind portNumber).map decimal }

def Parts.canonical (p : Parts) : Parts :=
  { p with scheme := p.scheme.map toLowerCase, authority := p.authority.map Authority.canonical }

def Parts.LosesPort (p : Parts) : Prop :=
  ∃ a, p.authority = some a ∧ a.ipv6 = false ∧ a.port = some [] ∧ colon ∈ a.host

theorem given_port (p : Parts) :
    given p.uri.printsPort (decimal p.uri.port.toNat) = p.explicitPort.map decimal := by
  unfold printsPort
  cases h : p.explicitPort with
  | none => simp [Parts.uri, h, given]
  | some v =>
    have hauth : p.authority.isSome = true := by
      rw [Parts.explicitPort] at h
      cases ha : p.authority with
      | none => rw [ha] at h; cases h
      | some a => rfl
    simp [Parts.uri, Parts.port, h, given, hauth]

theorem parts_uri (p : Parts) : p.uri.parts = p.canonical := by
  have hport := given_port p
  have hgiven : ∀ x : Option (List UInt8), given x.isSome (x.getD []) = x := by
    rintro (_ | x) <;> rfl
  obtain ⟨scheme, authority, path, query, fragment⟩ := p
  rw [parts, Parts.canonical, Parts.mk.injEq]
  refine ⟨?_, ?_, rfl, hgiven query, hgiven fragment⟩
  · cases scheme <;> rfl
  · cases authority with
    | none => rfl
    | some a =>
      rw [hport]
      change some _ = some _
      rw [Option.some.injEq, Authority.mk.injEq]
      exact ⟨hgiven a.userinfo, rfl, rfl, rfl⟩

theorem lower_toNat (c : UInt8) :
    (65 ≤ c.toNat ∧ c.toNat ≤ 90 ∧
      (if 65 ≤ c ∧ c ≤ 90 then c + 32 else c).toNat = c.toNat + 32) ∨
    (¬(65 ≤ c.toNat ∧ c.toNat ≤ 90) ∧ (if 65 ≤ c ∧ c ≤ 90 then c + 32 else c) = c) := by
  have hiff : (65 ≤ c ∧ c ≤ 90) ↔ (65 ≤ c.toNat ∧ c.toNat ≤ 90) := by
    rw [UInt8.le_iff_toNat_le, UInt8.le_iff_toNat_le]
    rfl
  by_cases h : 65 ≤ c ∧ c ≤ 90
  · obtain ⟨hlo, hhi⟩ := hiff.mp h
    refine .inl ⟨hlo, hhi, ?_⟩
    rw [if_pos h, UInt8.toNat_add]
    change (c.toNat + 32) % 256 = _
    omega
  · exact .inr ⟨fun h' => h (hiff.mpr h'), if_neg h⟩

theorem isAlpha_iff (c : UInt8) : isAlpha c = true ↔
    65 ≤ c.toNat ∧ c.toNat ≤ 90 ∨ 97 ≤ c.toNat ∧ c.toNat ≤ 122 := by
  simp only [isAlpha, Bool.or_eq_true, Bool.and_eq_true, decide_eq_true_eq, UInt8.le_iff_toNat_le]
  rfl

theorem isAlpha_lower (h : isAlpha c = true) :
    isAlpha (if 65 ≤ c ∧ c ≤ 90 then c + 32 else c) = true := by
  rcases lower_toNat c with ⟨hlo, hhi, heq⟩ | ⟨-, heq⟩
  · rw [isAlpha_iff, heq]
    omega
  · rwa [heq]

theorem isSchemeChar_lower (h : isSchemeChar c = true) :
    isSchemeChar (if 65 ≤ c ∧ c ≤ 90 then c + 32 else c) = true := by
  rcases lower_toNat c with ⟨hlo, hhi, heq⟩ | ⟨-, heq⟩
  · have halpha : isAlpha (if 65 ≤ c ∧ c ≤ 90 then c + 32 else c) = true := by
      rw [isAlpha_iff, heq]
      omega
    rw [isSchemeChar, halpha]
    rfl
  · rwa [heq]

theorem toLowerCase_idem (s : List UInt8) : toLowerCase (toLowerCase s) = toLowerCase s := by
  rw [toLowerCase, toLowerCase, List.map_map]
  refine List.map_congr_left fun c _ => ?_
  rw [Function.comp_apply]
  rcases lower_toNat c with ⟨hlo, hhi, heq⟩ | ⟨-, heq⟩
  · rcases lower_toNat (if 65 ≤ c ∧ c ≤ 90 then c + 32 else c) with ⟨-, hhi', -⟩ | ⟨-, heq'⟩
    · omega
    · exact heq'
  · rw [heq]
    exact heq

theorem SchemeText.lower (h : SchemeText s) : SchemeText (toLowerCase s) := by
  obtain ⟨c, hc, halpha⟩ := h.first
  refine ⟨⟨_, ?_, isAlpha_lower halpha⟩, fun d hd => ?_⟩
  · rw [toLowerCase, List.head?_map, hc]
    rfl
  · obtain ⟨e, he, rfl⟩ := List.mem_map.mp hd
    exact isSchemeChar_lower (h.chars e he)

/-! ## The text of canonical parts -/

theorem portNumber_eq_none (h : portNumber ds = none) : ds = [] := by
  unfold portNumber at h
  split at h
  · next hds => exact hds
  · cases h

theorem portNumber_le (h : portNumber ds = some v) (hds : PortText ds) : v ≤ 65535 := by
  unfold portNumber at h
  split at h
  · cases h
  · cases h
    exact hds.value_le

theorem portNumber_decimal (v : Nat) : portNumber (decimal v) = some v := by
  rw [portNumber, if_neg (decimal_ne_nil v), (decimal_spec v).2]

theorem notMem_decimal (hc : isDigit c = false) (v : Nat) : c ∉ decimal v := fun hm => by
  rw [(decimal_spec v).1 c hm] at hc
  cases hc

theorem Authority.notMem_canonical {a : Authority} (hc : isDigit c = false) (hcolon : c ≠ colon)
    (h : c ∉ a.text) : c ∉ a.canonical.text := by
  simp only [Authority.text, List.mem_append, not_or] at h ⊢
  refine ⟨h.1, h.2.1, ?_⟩
  change c ∉ after colon ((a.port.bind portNumber).map decimal)
  cases a.port.bind portNumber with
  | none => simp [after]
  | some v =>
    simp only [Option.map_some, after, Option.elim_some, List.mem_cons, not_or]
    exact ⟨hcolon, notMem_decimal hc v⟩

theorem Authority.Good.canonical {a : Authority} (h : a.Good)
    (hport : a.ipv6 = false → a.port = some [] → colon ∉ a.host) : a.canonical.Good where
  unsigned := by
    refine ⟨h.unsigned.1, fun ds hds => ?_⟩
    obtain ⟨v, -, rfl⟩ := Option.map_eq_some_iff.mp hds
    exact notMem_decimal (by decide) v
  bracketed := h.bracketed
  plain := h.plain
  unported hipv6 hnone := by
    have hbind := Option.map_eq_none_iff.mp hnone
    cases hp : a.port with
    | none => exact h.unported hipv6 hp
    | some ds =>
      rw [hp, Option.bind_some] at hbind
      exact hport hipv6 (by rw [hp, portNumber_eq_none hbind])
  ported hipv6 ds hds := by
    obtain ⟨v, -, rfl⟩ := Option.map_eq_some_iff.mp hds
    exact notMem_decimal (by decide) v
  port ds hds := by
    obtain ⟨v, hv, rfl⟩ := Option.map_eq_some_iff.mp hds
    obtain ⟨ds, hp, hnumber⟩ := Option.bind_eq_some_iff.mp hv
    exact portText_decimal (portNumber_le hnumber (h.port ds hp))

theorem Parts.Good.canonical_iff {p : Parts} (h : p.Good) : p.canonical.Good ↔ ¬p.LosesPort := by
  constructor
  · rintro hgood ⟨a, ha, hipv6, hport, hcolon⟩
    have hcan : p.canonical.authority = some a.canonical := by rw [canonical, ha]; rfl
    refine (hgood.authority _ hcan).1.unported hipv6 ?_ hcolon
    rw [Authority.canonical, hport]
    rfl
  · intro hkeeps
    refine ⟨fun s hs => ?_, fun a' ha' => ?_, fun hnone => h.unslashed ?_,
      fun hs ha => h.unschemed ?_ ?_, h.path, h.query⟩
    · obtain ⟨s', hs', rfl⟩ := Option.map_eq_some_iff.mp hs
      exact (h.scheme s' hs').lower
    · obtain ⟨a, ha, rfl⟩ := Option.map_eq_some_iff.mp ha'
      obtain ⟨hgood, hslash, hquestion, hhash, hpath⟩ := h.authority a ha
      exact ⟨hgood.canonical fun hipv6 hport hcolon => hkeeps ⟨a, ha, hipv6, hport, hcolon⟩,
        Authority.notMem_canonical (by decide) (by decide) hslash,
        Authority.notMem_canonical (by decide) (by decide) hquestion,
        Authority.notMem_canonical (by decide) (by decide) hhash, hpath⟩
    · exact Option.map_eq_none_iff.mp hnone
    · exact Option.map_eq_none_iff.mp hs
    · exact Option.map_eq_none_iff.mp ha

theorem Parts.uri_canonical (p : Parts) : p.canonical.uri = p.uri := by
  have hport : p.canonical.explicitPort = p.explicitPort := by
    unfold explicitPort canonical
    cases p.authority with
    | none => rfl
    | some a =>
      change ((a.port.bind portNumber).map decimal).bind portNumber = a.port.bind portNumber
      cases a.port.bind portNumber with
      | none => rfl
      | some v => exact portNumber_decimal v
  have hscheme : p.canonical.scheme.map toLowerCase = p.scheme.map toLowerCase := by
    change (p.scheme.map toLowerCase).map toLowerCase = _
    cases p.scheme with
    | none => rfl
    | some s => exact congrArg some (toLowerCase_idem s)
  have hsome : p.canonical.authority.isSome = p.authority.isSome := Option.isSome_map
  have hdefault : p.canonical.port = p.port := by
    unfold Parts.port
    rw [hsome, hport]
    change (if _ then p.explicitPort.elim ((p.scheme.map toLowerCase).elim _ _) _ else _) = _
    cases p.scheme with
    | none => rfl
    | some s => simp only [Option.map_some, Option.elim_some, toLowerCase_idem]
  have hschemed : p.canonical.scheme.isSome = p.scheme.isSome := Option.isSome_map
  have huserinfo : p.canonical.authority.bind (·.userinfo) = p.authority.bind (·.userinfo) := by
    unfold canonical
    cases p.authority <;> rfl
  have hhost : p.canonical.authority.map (·.host) = p.authority.map (·.host) := by
    unfold canonical
    cases p.authority <;> rfl
  have hipv6 : p.canonical.authority.map (·.ipv6) = p.authority.map (·.ipv6) := by
    unfold canonical
    cases p.authority <;> rfl
  rw [Parts.uri, Parts.uri, hport, hscheme, hdefault, hsome, hschemed, huserinfo, hhost, hipv6]
  rfl

/-! ## Parsing what is printed -/

theorem Parts.canonical_text_ne_nil {p : Parts} (h : p.text ≠ []) : p.canonical.text ≠ [] := by
  intro hnil
  apply h
  simp only [text, List.append_eq_nil_iff] at hnil ⊢
  obtain ⟨⟨⟨hscheme, hhier⟩, hquery⟩, hfragment⟩ := hnil
  refine ⟨⟨⟨?_, ?_⟩, hquery⟩, hfragment⟩
  · change upTo colon (p.scheme.map toLowerCase) = [] at hscheme
    cases hs : p.scheme with
    | none => rfl
    | some s =>
      rw [hs] at hscheme
      simp [upTo] at hscheme
  · change hierText (p.authority.map Authority.canonical) p.path = [] at hhier
    cases ha : p.authority with
    | none =>
      rw [ha] at hhier
      exact hhier
    | some a =>
      rw [ha] at hhier
      cases hhier

theorem Parts.length_text {p : Parts} (ha : p.authority = some a) (hport : a.port = some []) :
    p.text.length = p.canonical.text.length + 1 := by
  have hscheme : (upTo colon (p.scheme.map toLowerCase)).length = (upTo colon p.scheme).length := by
    cases p.scheme with
    | none => rfl
    | some s => simp [upTo, toLowerCase]
  have hhier : (hierText p.authority p.path).length =
      (hierText (p.authority.map Authority.canonical) p.path).length + 1 := by
    rw [ha, Option.map_some, hierText_some, hierText_some, Authority.text, Authority.text, hport,
      Authority.canonical, hport]
    simp [after, portNumber]
    omega
  rw [text, text]
  simp only [List.length_append]
  change _ = (upTo colon (p.scheme.map toLowerCase)).length +
    (hierText (p.authority.map Authority.canonical) p.path).length +
      (after question p.query).length +
      (after hash p.fragment).length + 1
  rw [hhier, hscheme]
  omega

theorem parse_canonical_iff {p : Parts} (h : p.Good) (hne : p.text ≠ []) :
    parse (some p.canonical.text) = .ok p.uri ↔ ¬p.LosesPort := by
  constructor
  · rintro hparse ⟨a, ha, hipv6, hport, hcolon⟩
    obtain ⟨-, p', hgood', htext, huri⟩ := exists_parts hparse
    -- the parts that were parsed have the same host, and no number behind it either
    have hhost : (p'.authority.map (·.host)).getD [] = a.host := by
      have := congrArg Uri.host huri
      simpa [Parts.uri, ha] using this
    have hauth : p'.authority.isSome = true := by
      have := congrArg Uri.hasAuthority huri
      simpa [Parts.uri, ha] using this
    have hbracket : (p'.authority.map (·.ipv6)).getD false = false := by
      have := congrArg Uri.hostIsIpv6 huri
      simpa [Parts.uri, ha, hipv6] using this
    have hexplicit : p'.explicitPort = none := by
      have := congrArg Uri.hasExplicitPort huri
      simpa [Parts.uri, Parts.explicitPort, ha, hport, portNumber] using this
    obtain ⟨a', ha'⟩ := Option.isSome_iff_exists.mp hauth
    rw [ha', Option.map_some, Option.getD_some] at hhost hbracket
    rw [Parts.explicitPort, ha', Option.bind_some] at hexplicit
    have hgood := (hgood'.authority a' ha').1
    cases hport' : a'.port with
    | none => exact hgood.unported hbracket hport' (hhost ▸ hcolon)
    | some ds =>
      rw [hport', Option.bind_some] at hexplicit
      rw [portNumber_eq_none hexplicit] at hport'
      have hlength := Parts.length_text ha' hport'
      rw [← parts_uri p', huri, parts_uri p, ← htext] at hlength
      omega
  · intro hkeeps
    rw [parse_parts _ (h.canonical_iff.mpr hkeeps) (Parts.canonical_text_ne_nil hne),
      Parts.uri_canonical]

theorem parse_text_iff (u : Uri) :
    parse (some u.parts.text) = .ok u ↔ u.parts.text ≠ [] ∧ u.parts.Good ∧ u.parts.uri = u := by
  constructor
  · intro h
    obtain ⟨hne, p, hgood, htext, rfl⟩ := exists_parts h
    rw [parts_uri] at h ⊢
    have hkeeps : ¬p.LosesPort := by
      refine (parse_canonical_iff hgood ?_).mp h
      rw [htext]
      exact hne
    refine ⟨?_, hgood.canonical_iff.mpr hkeeps, p.uri_canonical⟩
    rw [parts_uri] at hne
    exact hne
  · rintro ⟨hne, hgood, huri⟩
    rw [parse_parts _ hgood hne, huri]

/-- Printing fills its buffer exactly, and what it prints parses to the same URI. -/
structure Recomposes (u : Uri) : Prop where
  fills : ∃ o, u.fill = .ok o ∧ u.toString = .ok o.out ∧ o.cursor = o.out.length
  parsesBack : ∃ t, u.toString = .ok t ∧ parse (some t) = .ok u

theorem recomposes_iff (u : Uri) : Recomposes u ↔ parse (some u.parts.text) = .ok u := by
  have hprint := u.toString_eq
  constructor
  · intro h
    obtain ⟨t, ht, hparse⟩ := h.parsesBack
    rw [hprint, Except.ok.injEq] at ht
    rw [ht, hparse]
  · intro h
    obtain ⟨o, hfill, hout, hcursor⟩ := u.fill_eq
    exact ⟨⟨o, hfill, by rw [hprint, hout], hcursor⟩, ⟨_, hprint, h⟩⟩

/-- Every URI parsed from a text recomposes, unless its host has lost an empty port. -/
theorem parsed_recomposes_iff (t : List UInt8) :
    (∀ u, parse (some t) = .ok u → Recomposes u) ↔
      ¬∃ p : Parts, p.Good ∧ p.text = t ∧ p.LosesPort := by
  constructor
  · rintro h ⟨p, hgood, rfl, hloses⟩
    have hne : p.text ≠ [] := by
      obtain ⟨a, ha, -⟩ := hloses
      rw [Parts.text, ha, hierText_some]
      simp
    have hback := (recomposes_iff _).mp (h p.uri (parse_parts p hgood hne))
    rw [parts_uri] at hback
    exact (parse_canonical_iff hgood hne).mp hback hloses
  · intro h u hu
    obtain ⟨hne, p, hgood, htext, rfl⟩ := exists_parts hu
    rw [recomposes_iff, parts_uri]
    exact (parse_canonical_iff hgood (htext ▸ hne)).mpr fun hloses => h ⟨p, hgood, htext, hloses⟩

/-- Of `//a:b:` the empty port is not printed, and `b` is no port. -/
theorem empty_port_lost :
    ¬∀ u, parse (some [47, 47, 97, 58, 98, 58]) = .ok u → Recomposes u := by
  intro h
  have hparse : parse (some [47, 47, 97, 58, 98, 58]) =
      .ok { hasAuthority := true, host := [97, 58, 98] } := by rfl
  obtain ⟨t, ht, hback⟩ := (h _ hparse).parsesBack
  have hprint : toString { hasAuthority := true, host := [97, 58, 98] } =
      .ok [47, 47, 97, 58, 98] := by rfl
  rw [hprint, Except.ok.injEq] at ht
  subst ht
  have hbad : parse (some [47, 47, 97, 58, 98]) = malformed "non-numeric port" 4 := by rfl
  rw [hbad] at hback
  cases hback

end Cajeta.Net.Uri
