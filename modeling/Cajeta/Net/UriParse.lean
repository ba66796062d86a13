import Cajeta.Net.UriReads

/-!
# Parsing a URI from its parts

Each step of the parser is followed over the span it reads: the authority, the scheme, the part
between the scheme and the query, and then the whole text.
-/

namespace Cajeta.Net.Uri

/-! ## Parsing the authority -/

theorem parseUserinfo_span {u : Uri} {userinfo : Option (List UInt8)}
    (h : Spans b i (upTo atSign userinfo ++ rest) last) (hrest : atSign ∉ rest) :
    parseUserinfo u b i last =
      .ok (addUserinfo u userinfo, i + (upTo atSign userinfo).length) := by
  unfold parseUserinfo
  cases userinfo with
  | none =>
    rw [lastIn_none h (by simpa [upTo] using hrest)]
    rfl
  | some s =>
    rw [upTo, Option.elim_some, List.append_assoc, List.singleton_append] at h
    rw [lastIn_some h hrest, Except.ok_bind]
    simp only [slice_span h.left, Except.ok_bind, upTo, Option.elim_some, List.length_append,
      List.length_singleton, Nat.add_assoc]
    rfl

theorem parseIpv6Host_span {u : Uri} {host : List UInt8} {port : Option (List UInt8)}
    (h : Spans b i (hostText host true ++ after colon port) last) (hhost : closeBracket ∉ host) :
    ((∀ ds, port = some ds → PortText ds) ∧
      parseIpv6Host u b i last = .ok (addPort (addHost u host true) (port.getD []))) ∨
    (¬(∀ ds, port = some ds → PortText ds) ∧ Malformed (parseIpv6Host u b i last)) := by
  have h' : Spans b i (openBracket :: (host ++ closeBracket :: after colon port)) last := by
    simpa [hostText] using h
  unfold parseIpv6Host
  rw [firstIn_some h'.tail hhost, Except.ok_bind]
  simp only [slice_span h'.tail.left, Except.ok_bind]
  cases port with
  | none =>
    have hlast := h'.tail.last_eq
    simp only [after, Option.elim_none, List.length_append, List.length_singleton] at hlast
    rw [if_neg (by omega)]
    exact .inl ⟨by simp, rfl⟩
  | some ds =>
    have hbehind := h'.tail.behind
    rw [if_pos (hbehind.lt_iff.mpr (by simp [after]))]
    simp only [after, Option.elim_some] at hbehind
    rw [byteAt_span hbehind, Except.ok_bind, if_neg (by simp)]
    rcases parsePort_span (u := addHost u host true) hbehind.tail with ⟨hp, hok⟩ | ⟨hp, hbad⟩
    · exact .inl ⟨fun ds' h => by cases h; exact hp, hok⟩
    · exact .inr ⟨fun hall => hp (hall ds rfl), hbad⟩

theorem parseRegName_span {u : Uri} {host : List UInt8} {port : Option (List UInt8)}
    (h : Spans b i (host ++ after colon port) last) (hnone : port = none → colon ∉ host)
    (hsome : ∀ ds, port = some ds → colon ∉ ds) :
    ((∀ ds, port = some ds → PortText ds) ∧
      parseRegName u b i last = .ok (addPort (addHost u host false) (port.getD []))) ∨
    (¬(∀ ds, port = some ds → PortText ds) ∧ Malformed (parseRegName u b i last)) := by
  unfold parseRegName
  cases port with
  | none =>
    rw [after, Option.elim_none, List.append_nil] at h
    rw [lastIn_none h (hnone rfl), Except.ok_bind]
    simp only [slice_span h, Except.ok_bind]
    exact .inl ⟨by simp, rfl⟩
  | some ds =>
    rw [after, Option.elim_some] at h
    rw [lastIn_some h (hsome ds rfl), Except.ok_bind]
    simp only [slice_span h.left, Except.ok_bind]
    rcases parsePort_span (u := addHost u host false) h.behind with ⟨hp, hok⟩ | ⟨hp, hbad⟩
    · exact .inl ⟨fun ds' h => by cases h; exact hp, hok⟩
    · exact .inr ⟨fun hall => hp (hall ds rfl), hbad⟩

theorem hostText_head {host : List UInt8} {port : Option (List UInt8)}
    (hplain : host.head? ≠ some openBracket) :
    (host ++ after colon port).head? ≠ some openBracket := by
  cases host with
  | nil =>
    cases port with
    | none => simp [after]
    | some ds => simp [after, colon, openBracket]
  | cons c host => exact hplain

theorem bracket_span (h : Spans b i s last) :
    (if i < last then byteIs b i openBracket else pure false) =
      (.ok (decide (s.head? = some openBracket)) : Parse Bool) := by
  cases s with
  | nil =>
    rw [if_neg fun hlt => absurd rfl (h.lt_iff.mp hlt)]
    rfl
  | cons c s =>
    rw [if_pos (h.lt_iff.mpr (by simp)), byteIs_span h]
    simp

def addHostPort (u : Uri) (a : Authority) : Uri :=
  addPort (addHost (addUserinfo u a.userinfo) a.host a.ipv6) (a.port.getD [])

theorem parseAuthority_span {u : Uri} {a : Authority} (h : Spans b i a.text last) (ha : a.Host) :
    (a.Good ∧ parseAuthority u b i last = .ok (addHostPort u a)) ∨
    (¬a.Good ∧ Malformed (parseAuthority u b i last)) := by
  obtain ⟨userinfo, host, ipv6, port⟩ := a
  have hgood : Authority.Good ⟨userinfo, host, ipv6, port⟩ ↔
      ∀ ds, port = some ds → PortText ds := ⟨fun h => h.port, fun h => ⟨ha, h⟩⟩
  have hunsigned : atSign ∉ hostText host ipv6 ++ after colon port := by
    have hhost : atSign ∉ hostText host ipv6 := by
      cases ipv6 with
      | false => exact ha.unsigned.1
      | true => simpa [hostText, atSign, openBracket, closeBracket] using ha.unsigned.1
    have hport : atSign ∉ after colon port := by
      cases port with
      | none => simp [after]
      | some ds => simpa [after, atSign, colon] using ha.unsigned.2 ds rfl
    exact fun hm => (List.mem_append.mp hm).elim hhost hport
  have hspan := h.right
  unfold parseAuthority
  rw [parseUserinfo_span h hunsigned, Except.ok_bind]
  dsimp only
  rw [bracket_span hspan, Except.ok_bind, hgood]
  cases ipv6 with
  | true =>
    rw [if_pos (by simp [hostText])]
    exact parseIpv6Host_span hspan (ha.bracketed rfl)
  | false =>
    rw [if_neg (by simpa [hostText] using hostText_head (ha.plain rfl))]
    exact parseRegName_span hspan (ha.unported rfl) (ha.ported rfl)

/-- A bracket that is not closed, or has something else than a port behind it. -/
def Unclosed (t : List UInt8) : Prop :=
  ∃ userinfo s, t = upTo atSign userinfo ++ openBracket :: s ∧ atSign ∉ s ∧
    (closeBracket ∉ s ∨ ∃ x c y, s = x ++ closeBracket :: c :: y ∧ closeBracket ∉ x ∧ c ≠ colon)

theorem parseAuthority_unclosed {u : Uri} (h : Spans b i t last) (ht : Unclosed t) :
    Malformed (parseAuthority u b i last) := by
  obtain ⟨userinfo, s, rfl, hat, hclose⟩ := ht
  have hspan := h.right
  unfold parseAuthority
  rw [parseUserinfo_span h (by simpa [atSign, openBracket] using hat), Except.ok_bind]
  dsimp only
  rw [bracket_span hspan, Except.ok_bind, if_pos (by simp)]
  unfold parseIpv6Host
  rcases hclose with hnone | ⟨x, c, y, rfl, hx, hc⟩
  · rw [firstIn_none hspan.tail hnone, Except.ok_bind]
    exact malformed_intro _ _
  · have hbehind := hspan.tail.behind
    rw [firstIn_some hspan.tail hx, Except.ok_bind]
    simp only [slice_span hspan.tail.left, Except.ok_bind]
    rw [if_pos (hbehind.lt_iff.mpr (by simp)), byteAt_span hbehind, Except.ok_bind, if_pos hc]
    exact malformed_intro _ _

theorem exists_authority (t : List UInt8) :
    (∃ a : Authority, a.text = t ∧ a.Host) ∨ Unclosed t := by
  obtain ⟨userinfo, s, rfl, hat⟩ : ∃ userinfo s, t = upTo atSign userinfo ++ s ∧ atSign ∉ s := by
    rcases exists_last_split atSign t with ht | ⟨x, s, hs, rfl⟩
    · exact ⟨none, t, rfl, ht⟩
    · exact ⟨some x, s, by simp [upTo], hs⟩
  by_cases hopen : s.head? = some openBracket
  · obtain ⟨s, rfl⟩ : ∃ s', s = openBracket :: s' := by
      cases s with
      | nil => cases hopen
      | cons c s => exact ⟨s, by rw [Option.some.inj hopen]⟩
    have hat' : atSign ∉ s := fun hm => hat (List.mem_cons_of_mem _ hm)
    rcases exists_split closeBracket s with hnone | ⟨host, r, hhost, rfl⟩
    · exact .inr ⟨userinfo, s, rfl, hat', .inl hnone⟩
    have hathost : atSign ∉ host := fun hm => hat' (List.mem_append_left _ hm)
    cases r with
    | nil =>
      refine .inl ⟨⟨userinfo, host, true, none⟩, by simp [Authority.text, hostText, after], ?_⟩
      exact ⟨⟨hathost, by simp⟩, fun _ => hhost, by simp, by simp, by simp⟩
    | cons c r =>
      by_cases hc : c = colon
      · subst hc
        refine .inl ⟨⟨userinfo, host, true, some r⟩, by simp [Authority.text, hostText, after], ?_⟩
        refine ⟨⟨hathost, fun ds hds hm => hat' ?_⟩, fun _ => hhost, by simp, by simp, by simp⟩
        obtain rfl := Option.some.inj hds
        exact List.mem_append_right _ (List.mem_cons_of_mem _ (List.mem_cons_of_mem _ hm))
      · exact .inr ⟨userinfo, _, rfl, hat', .inr ⟨host, c, r, rfl, hhost, hc⟩⟩
  · rcases exists_last_split colon s with hnone | ⟨host, ds, hds, rfl⟩
    · refine .inl ⟨⟨userinfo, s, false, none⟩, by simp [Authority.text, hostText, after], ?_⟩
      exact ⟨⟨hat, by simp⟩, by simp, fun _ => hopen, fun _ _ => hnone, by simp⟩
    · refine .inl ⟨⟨userinfo, host, false, some ds⟩, by simp [Authority.text, hostText, after], ?_⟩
      refine ⟨⟨fun hm => hat (List.mem_append_left _ hm), fun ds' heq hm => hat ?_⟩, by simp,
        fun _ hhost => hopen ?_, by simp, fun _ ds' heq => ?_⟩
      · obtain rfl := Option.some.inj heq
        exact List.mem_append_right _ (List.mem_cons_of_mem _ hm)
      · cases host with
        | nil => cases hhost
        | cons c host => exact hhost
      · obtain rfl := Option.some.inj heq
        exact hds

theorem schemeColon_some (h : Spans b j (s ++ colon :: rest) last)
    (hs : ∀ c ∈ s, isSchemeChar c = true) :
    schemeColon b j (last - j) = .ok (some (j + s.length)) := by
  rw [h.sub_eq]
  induction s generalizing j with
  | nil =>
    rw [List.nil_append] at h
    rw [List.nil_append, List.length_cons, schemeColon, byteAt_span h, Except.ok_bind, if_pos rfl]
    rfl
  | cons c s ih =>
    rw [List.cons_append] at h
    obtain ⟨hcolon, hslash⟩ := colon_ne_schemeChar (hs c List.mem_cons_self)
    rw [List.cons_append, List.length_cons, schemeColon, byteAt_span h, Except.ok_bind,
      if_neg hcolon, if_neg hslash, if_neg (by simp [hs c List.mem_cons_self]),
      ih h.tail fun d hd => hs d (List.mem_cons_of_mem _ hd), List.length_cons,
      Nat.add_comm s.length, Nat.add_assoc]

theorem schemeColon_none (h : Spans b j t last)
    (ht : ∀ s rest, (∀ c ∈ s, isSchemeChar c = true) → t ≠ s ++ colon :: rest) :
    schemeColon b j (last - j) = .ok none := by
  rw [h.sub_eq]
  induction t generalizing j with
  | nil => rfl
  | cons c t ih =>
    rw [List.length_cons, schemeColon, byteAt_span h, Except.ok_bind]
    have hcolon : c ≠ colon := fun hc => ht [] t (by simp) (by rw [hc]; rfl)
    rw [if_neg hcolon]
    split
    · rfl
    split
    · rfl
    · next hchar =>
      refine ih h.tail fun s rest hs heq => ht (c :: s) rest ?_ (by rw [heq]; rfl)
      exact List.forall_mem_cons.mpr ⟨by simpa using hchar, hs⟩

theorem parseScheme_span {u : Uri} {scheme : Option (List UInt8)}
    (h : Spans b 0 (upTo colon scheme ++ rest) last)
    (hsome : ∀ s, scheme = some s → SchemeText s)
    (hnone : scheme = none → ∀ s r, SchemeText s → rest ≠ s ++ colon :: r) :
    parseScheme b u last = .ok (addScheme u scheme, (upTo colon scheme).length) := by
  unfold parseScheme
  cases scheme with
  | none =>
    rw [upTo, Option.elim_none, List.nil_append] at h
    cases rest with
    | nil =>
      rw [if_neg fun hlt => absurd rfl (h.lt_iff.mp hlt)]
      rfl
    | cons c rest =>
      rw [if_pos (h.lt_iff.mpr (by simp)), byteAt_span h]
      cases hc : isAlpha c with
      | false =>
        simp only [Except.map_ok, Except.ok_bind, hc]
        rfl
      | true =>
        have hscheme : isSchemeChar c = true := by simp [isSchemeChar, hc]
        have hcolon := schemeColon_none h.tail fun s r hs heq => hnone rfl (c :: s) r
          ⟨⟨c, rfl, hc⟩, List.forall_mem_cons.mpr ⟨hscheme, hs⟩⟩ (by rw [heq]; rfl)
        simp only [Except.map_ok, Except.ok_bind, hc, if_true]
        rw [Nat.zero_add] at hcolon
        rw [hcolon]
        rfl
  | some s =>
    obtain ⟨⟨c, hhead, halpha⟩, hchars⟩ := hsome s rfl
    obtain ⟨s, rfl⟩ : ∃ s', s = c :: s' := by
      cases s with
      | nil => cases hhead
      | cons d s => exact ⟨s, by rw [Option.some.inj hhead]⟩
    have h' : Spans b 0 (c :: (s ++ colon :: rest)) last := by simpa [upTo] using h
    have hslice : Spans b 0 ((c :: s) ++ colon :: rest) last := h'
    have hcolon := schemeColon_some h'.tail fun d hd => hchars d (List.mem_cons_of_mem _ hd)
    rw [Nat.zero_add] at hcolon
    rw [if_pos (h'.lt_iff.mpr (by simp)), byteAt_span h']
    simp only [Except.map_ok, Except.ok_bind, halpha, if_true]
    have hleft := hslice.left
    rw [Nat.zero_add, List.length_cons, Nat.add_comm] at hleft
    rw [hcolon, Except.ok_bind]
    simp only [slice_span hleft, Except.ok_bind]
    simp only [upTo, Option.elim_some, List.length_append, List.length_cons, List.length_nil,
      addScheme, Nat.zero_add, Nat.add_comm 1]
    rfl

theorem parseHierPart_slashes {u : Uri} {t path : List UInt8}
    (h : Spans b i (slash :: slash :: (t ++ path)) last) (ht : slash ∉ t)
      (hpath : path = [] ∨ path.head? = some slash) :
    parseHierPart b u i last = (parseAuthority u b (i + 2) (i + 2 + t.length) >>= fun u =>
      .ok (withDefaultPort { u with hasAuthority := true }, i + 2 + t.length)) := by
  have hrest := h.tail.tail
  have hlast := h.last_eq
  simp only [List.length_cons] at hlast
  have hend : firstIn b slash (i + 2) (last - (i + 2)) =
      .ok (if path = [] then none else some (i + 2 + t.length)) := by
    rcases hpath with rfl | hpath
    · rw [List.append_nil] at hrest
      exact firstIn_none hrest ht
    · obtain ⟨rest, rfl⟩ : ∃ rest, path = slash :: rest := by
        cases path with
        | nil => cases hpath
        | cons c rest => exact ⟨rest, by rw [Option.some.inj hpath]⟩
      rw [if_neg (by simp)]
      exact firstIn_some hrest ht
  have hauth : ((if path = [] then none else some (i + 2 + t.length)) : Option Nat).getD last =
      i + 2 + t.length := by
    split
    · next hnil =>
      rw [hnil, List.append_nil] at hlast
      rw [Option.getD_none]
      omega
    · rfl
  unfold parseHierPart
  rw [if_pos (by omega)]
  simp only [andM, byteIs_span h, byteIs_span h.tail, Except.ok_bind, decide_true, toBool]
  rw [if_pos trivial, hend, Except.ok_bind, hauth]
  rfl

theorem parseHierPart_none {u : Uri} (h : Spans b i s last) (hs : ¬[slash, slash] <+: s) :
    parseHierPart b u i last = .ok (u, i) := by
  unfold parseHierPart
  cases s with
  | nil =>
    have hlast := h.last_eq
    rw [List.length_nil] at hlast
    rw [if_neg (by omega)]
    rfl
  | cons c s =>
    cases s with
    | nil =>
      have hlast := h.last_eq
      rw [List.length_singleton] at hlast
      rw [if_neg (by omega)]
      rfl
    | cons d s =>
      have hlast := h.last_eq
      rw [List.length_cons, List.length_cons] at hlast
      rw [if_pos (by omega)]
      simp only [andM, byteIs_span h, byteIs_span h.tail, Except.ok_bind]
      by_cases hc : c = slash
      · have hd : d ≠ slash := by
          rintro rfl
          exact hs ⟨s, by rw [hc]; rfl⟩
        simp [hc, hd, toBool]
        rfl
      · simp [hc, toBool]
        rfl

/-! ## The whole text -/

theorem parseFragment_span {u : Uri} {fragment : Option (List UInt8)}
    (h : Spans b 0 (x ++ after hash fragment) last) (hx : hash ∉ x) :
    parseFragment b u last = .ok (addFragment u fragment, x.length) := by
  unfold parseFragment
  have hsearch : firstIn b hash 0 last = .ok (fragment.map fun _ => x.length) := by
    cases fragment with
    | none =>
      rw [after, Option.elim_none, List.append_nil] at h
      exact firstIn_none h hx
    | some f =>
      have hfound := firstIn_some h hx
      rwa [Nat.zero_add] at hfound
  rw [hsearch, Except.ok_bind]
  cases fragment with
  | none =>
    have hlast := h.last_eq
    simp only [after, Option.elim_none, List.append_nil, Nat.zero_add] at hlast
    rw [hlast]
    rfl
  | some f =>
    have hslice := slice_span h.behind
    rw [Nat.zero_add] at hslice
    simp only [Option.map_some, hslice, Except.ok_bind]
    rfl

theorem parseQuery_span {u : Uri} {query : Option (List UInt8)}
    (h : Spans b 0 (x ++ after question query) last) (hx : question ∉ x) :
    parseQuery b u last = .ok (addQuery u query, x.length) := by
  unfold parseQuery
  have hsearch : firstIn b question 0 last = .ok (query.map fun _ => x.length) := by
    cases query with
    | none =>
      rw [after, Option.elim_none, List.append_nil] at h
      exact firstIn_none h hx
    | some q =>
      have hfound := firstIn_some h hx
      rwa [Nat.zero_add] at hfound
  rw [hsearch, Except.ok_bind]
  cases query with
  | none =>
    have hlast := h.last_eq
    simp only [after, Option.elim_none, List.append_nil, Nat.zero_add] at hlast
    rw [hlast]
    rfl
  | some q =>
    have hslice := slice_span h.behind
    rw [Nat.zero_add] at hslice
    simp only [Option.map_some, hslice, Except.ok_bind]
    rfl

structure Framed (b : List UInt8) (scheme : Option (List UInt8)) (hier : List UInt8)
    (query fragment : Option (List UInt8)) : Prop where
  text : b = upTo colon scheme ++ hier ++ after question query ++ after hash fragment
  schemed : ∀ s, scheme = some s → SchemeText s
  unschemed : scheme = none → ∀ s rest, SchemeText s → hier ≠ s ++ colon :: rest
  bare : question ∉ hier ∧ hash ∉ hier
  queried : ∀ q, query = some q → hash ∉ q

theorem Framed.parse_eq {scheme query fragment : Option (List UInt8)}
    (h : Framed b scheme hier query fragment) (hne : b ≠ []) :
    ∃ i last, Spans b i hier last ∧
      parse (some b) =
        (parseHierPart b (addScheme (addQuery (addFragment {} fragment) query) scheme) i last >>=
          fun r => slice b r.2 last >>= fun path => .ok { r.1 with path }) := by
  have hnotMem : ∀ c, isSchemeChar c = false → c ≠ colon → c ∉ upTo colon scheme := by
    intro c hchar hcolon hm
    cases hs : scheme with
    | none =>
      rw [hs] at hm
      cases hm
    | some s =>
      rw [hs, upTo, Option.elim_some] at hm
      rcases List.mem_append.mp hm with hm | hm
      · exact (h.schemed s hs).notMem hchar hm
      · exact hcolon (List.mem_singleton.mp hm)
  have hhash : hash ∉ upTo colon scheme ++ hier ++ after question query := by
    have hquery : hash ∉ after question query := by
      cases hq : query with
      | none => simp [after]
      | some q => simpa [after, hash, question] using h.queried q hq
    have hscheme := hnotMem hash (by decide) (by decide)
    simp only [List.mem_append, not_or]
    exact ⟨⟨hscheme, h.bare.2⟩, hquery⟩
  have hquestion : question ∉ upTo colon scheme ++ hier := by
    have hscheme := hnotMem question (by decide) (by decide)
    simp only [List.mem_append, not_or]
    exact ⟨hscheme, h.bare.1⟩
  have hwhole : Spans b 0 (upTo colon scheme ++ hier ++ after question query ++
      after hash fragment) b.length := by
    rw [← h.text]
    exact Spans.whole b
  have hq := hwhole.left
  rw [Nat.zero_add] at hq
  have hs := hq.left
  rw [Nat.zero_add] at hs
  have hspan := hs.right
  rw [Nat.zero_add] at hspan
  refine ⟨_, _, hspan, ?_⟩
  unfold parse
  dsimp only
  rw [if_neg fun hnil => hne (List.length_eq_zero_iff.mp hnil), parseFragment_span hwhole hhash,
    Except.ok_bind]
  simp only [parseQuery_span hq hquestion, Except.ok_bind,
    parseScheme_span hs h.schemed h.unschemed]
  rfl

theorem hierText_some (a : Authority) (path : List UInt8) :
    hierText (some a) path = slash :: slash :: (a.text ++ path) := rfl

theorem parse_parts (p : Parts) (h : p.Good) (hne : p.text ≠ []) :
    parse (some p.text) = .ok p.uri := by
  obtain ⟨scheme, authority, path, query, fragment⟩ := p
  have hframed : Framed (Parts.text ⟨scheme, authority, path, query, fragment⟩) scheme
      (hierText authority path) query fragment := by
    refine ⟨rfl, h.scheme, fun hnone s rest hs heq => ?_, ?_, h.query⟩
    · cases authority with
      | none => exact h.unschemed hnone rfl s rest hs heq
      | some a =>
        obtain ⟨c, hc, -⟩ := hs.first
        cases s with
        | nil => cases hc
        | cons d s =>
          obtain ⟨rfl, -⟩ := List.cons.inj heq
          exact absurd (hs.chars slash List.mem_cons_self) (by decide)
    · cases authority with
      | none => exact h.path
      | some a =>
        obtain ⟨-, -, hquestion, hhash, -⟩ := h.authority a rfl
        simp only [hierText_some, List.mem_cons, List.mem_append, not_or]
        exact ⟨⟨by decide, by decide, hquestion, h.path.1⟩, by decide, by decide, hhash, h.path.2⟩
  obtain ⟨i, last, hspan, hparse⟩ := hframed.parse_eq hne
  rw [hparse]
  cases authority with
  | none =>
    rw [parseHierPart_none hspan (h.unslashed rfl), Except.ok_bind, slice_span hspan,
      Except.ok_bind, Parts.uri_eq]
    rfl
  | some a =>
    obtain ⟨hgood, hslash, -, -, hpath⟩ := h.authority a rfl
    rw [hierText_some] at hspan
    have hrest := hspan.tail.tail
    rw [parseHierPart_slashes hspan hslash hpath]
    rcases parseAuthority_span hrest.left hgood.toHost with ⟨-, hok⟩ | ⟨hbad, -⟩
    · rw [hok, Except.ok_bind, Except.ok_bind, slice_span hrest.right, Parts.uri_eq]
      rfl
    · exact absurd hgood hbad

theorem exists_parts (h : parse (some t) = .ok u) :
    t ≠ [] ∧ ∃ p : Parts, p.Good ∧ p.text = t ∧ p.uri = u := by
  have hne : t ≠ [] := by
    rintro rfl
    cases h
  refine ⟨hne, ?_⟩
  obtain ⟨x, fragment, rfl, hx⟩ : ∃ x fragment, t = x ++ after hash fragment ∧ hash ∉ x := by
    rcases exists_split hash t with ht | ⟨x, f, hx, rfl⟩
    · exact ⟨t, none, by simp [after], ht⟩
    · exact ⟨x, some f, by simp [after], hx⟩
  obtain ⟨x, query, rfl, hquestion⟩ :
      ∃ y query, x = y ++ after question query ∧ question ∉ y := by
    rcases exists_split question x with hno | ⟨y, q, hy, rfl⟩
    · exact ⟨x, none, by simp [after], hno⟩
    · exact ⟨y, some q, by simp [after], hy⟩
  rw [List.mem_append, not_or] at hx
  obtain ⟨scheme, hier, rfl, hschemed, hunschemed⟩ : ∃ scheme hier, x = upTo colon scheme ++ hier ∧
      (∀ s, scheme = some s → SchemeText s) ∧
      (scheme = none → ∀ s rest, SchemeText s → hier ≠ s ++ colon :: rest) := by
    by_cases hex : ∃ s rest, SchemeText s ∧ x = s ++ colon :: rest
    · obtain ⟨s, rest, hs, rfl⟩ := hex
      exact ⟨some s, rest, by simp [upTo], fun s' heq => Option.some.inj heq ▸ hs, by simp⟩
    · exact ⟨none, x, rfl, by simp, fun _ s rest hs heq => hex ⟨s, rest, hs, heq⟩⟩
  simp only [List.mem_append, not_or] at hx hquestion
  have hquery : ∀ q, query = some q → hash ∉ q := by
    rintro q rfl
    simpa [after, hash, question] using hx.2
  have hframed : Framed (upTo colon scheme ++ hier ++ after question query ++ after hash fragment)
      scheme hier query fragment :=
    ⟨rfl, hschemed, hunschemed, ⟨hquestion.2, hx.1.2⟩, hquery⟩
  obtain ⟨i, last, hspan, hparse⟩ := hframed.parse_eq hne
  rw [hparse] at h
  by_cases hslashes : [slash, slash] <+: hier
  · obtain ⟨r, rfl⟩ := hslashes
    obtain ⟨a, path, rfl, ha, hpath⟩ :
        ∃ a path, r = a ++ path ∧ slash ∉ a ∧ (path = [] ∨ path.head? = some slash) := by
      rcases exists_split slash r with hno | ⟨a, rest, ha, rfl⟩
      · exact ⟨r, [], by simp, hno, .inl rfl⟩
      · exact ⟨a, slash :: rest, rfl, ha, .inr rfl⟩
    have hspan' : Spans _ i (slash :: slash :: (a ++ path)) last := hspan
    have hrest := hspan'.tail.tail
    rw [parseHierPart_slashes hspan' ha hpath] at h
    simp only [List.mem_append, not_or] at hx hquestion
    rcases exists_authority a with ⟨a, rfl, hhost⟩ | hunclosed
    · rcases parseAuthority_span hrest.left hhost with ⟨hgood, hok⟩ | ⟨-, hbad⟩
      · rw [hok, Except.ok_bind, Except.ok_bind, slice_span hrest.right, Except.ok_bind,
          Except.ok.injEq] at h
        refine ⟨⟨scheme, some a, path, query, fragment⟩, ⟨hschemed, fun a' heq => ?_, by simp,
          by simp, ⟨hquestion.2.2.2, hx.1.2.2.2⟩, hquery⟩, by simp [Parts.text, hierText_some],
            by rw [Parts.uri_eq]; exact h⟩
        obtain rfl := Option.some.inj heq
        exact ⟨hgood, ha, hquestion.2.2.1, hx.1.2.2.1, hpath⟩
      · obtain ⟨reason, position, heq⟩ := hbad
        rw [heq] at h
        cases h
    · obtain ⟨reason, position, heq⟩ := parseAuthority_unclosed (u := _) hrest.left hunclosed
      rw [heq] at h
      cases h
  · rw [parseHierPart_none hspan hslashes, Except.ok_bind, slice_span hspan, Except.ok_bind,
      Except.ok.injEq] at h
    exact ⟨⟨scheme, none, hier, query, fragment⟩, ⟨hschemed, by simp, fun _ => hslashes,
      fun hnone _ => hunschemed hnone, ⟨hquestion.2, hx.1.2⟩, hquery⟩, rfl, by
        rw [Parts.uri_eq]; exact h⟩

end Cajeta.Net.Uri
