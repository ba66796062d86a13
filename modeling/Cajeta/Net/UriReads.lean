import Cajeta.Lib.Bytes
import Cajeta.Net.Uri
import Cajeta.Net.IpAddressGrammar

/-!
# Reading a text in parts

What the loops of the parser return, said of the span of text they read: a slice is the span, a
search finds the first or the last separator, and a port is a number in decimal.
-/

namespace Cajeta.Net.Uri

theorem byteAt_span (h : Spans b i (c :: s) last) : byteAt b i = .ok c := by
  rw [byteAt, h.getElem?_eq]
  rfl

theorem byteIs_span (h : Spans b i (d :: s) last) (c : UInt8) :
    byteIs b i c = .ok (decide (d = c)) := by
  rw [byteIs, byteAt_span h]
  rfl

theorem slice_span (h : Spans b i s last) : slice b i last = .ok s := by
  rw [slice, h.sub_eq]
  refine Except.mapM_range fun k hk => ?_
  rw [byteAt, h.getElem?_add hk, List.getElem?_eq_getElem hk]
  rfl

theorem firstIn_length {c : UInt8} (h : Spans b i s last) :
    (c ∉ s → firstIn b c i s.length = .ok none) ∧
    ∀ x y, s = x ++ c :: y → c ∉ x → firstIn b c i s.length = .ok (some (i + x.length)) := by
  induction s generalizing i with
  | nil => exact ⟨fun _ => rfl, fun x y hs => by simp at hs⟩
  | cons d s ih =>
    have ih' := ih h.tail
    simp only [List.length_cons, firstIn, byteAt_span h, Except.ok_bind]
    constructor
    · intro hc
      rw [if_neg fun hd : d = c => hc (hd ▸ List.mem_cons_self)]
      exact ih'.1 fun hm => hc (List.mem_cons_of_mem _ hm)
    · intro x y hs hx
      cases x with
      | nil =>
        obtain ⟨rfl, -⟩ := List.cons.inj hs
        rw [if_pos rfl]
        rfl
      | cons e x =>
        obtain ⟨rfl, htail⟩ := List.cons.inj hs
        rw [if_neg fun hd : d = c => hx (hd ▸ List.mem_cons_self),
          ih'.2 x y htail fun hm => hx (List.mem_cons_of_mem _ hm), List.length_cons,
          Nat.add_comm x.length, Nat.add_assoc]

theorem firstIn_none (h : Spans b i s last) (hc : c ∉ s) :
    firstIn b c i (last - i) = .ok none := by
  rw [h.sub_eq]
  exact (firstIn_length h).1 hc

theorem firstIn_some (h : Spans b i (x ++ c :: y) last) (hx : c ∉ x) :
    firstIn b c i (last - i) = .ok (some (i + x.length)) := by
  rw [h.sub_eq]
  exact (firstIn_length h).2 x y rfl hx

theorem lastIn_notMem (h : Spans b i s last) (hc : c ∉ s) (found : Option Nat) :
    lastIn b c i s.length found = .ok found := by
  induction s generalizing i with
  | nil => rfl
  | cons d s ih =>
    rw [List.length_cons, lastIn, byteAt_span h, Except.ok_bind,
      if_neg fun hd : d = c => hc (hd ▸ List.mem_cons_self)]
    exact ih h.tail fun hm => hc (List.mem_cons_of_mem _ hm)

theorem lastIn_none (h : Spans b i s last) (hc : c ∉ s) :
    lastIn b c i (last - i) none = .ok none := by
  rw [h.sub_eq]
  exact lastIn_notMem h hc none

theorem lastIn_some (h : Spans b i (x ++ c :: y) last) (hy : c ∉ y) :
    lastIn b c i (last - i) none = .ok (some (i + x.length)) := by
  have hspec : ∀ (x : List UInt8) (i : Nat) (found : Option Nat), Spans b i (x ++ c :: y) last →
      lastIn b c i (x ++ c :: y).length found = .ok (some (i + x.length)) := by
    intro x
    induction x with
    | nil =>
      intro i found h
      rw [List.nil_append] at h
      rw [List.nil_append, List.length_cons, lastIn, byteAt_span h, Except.ok_bind, if_pos rfl]
      exact lastIn_notMem h.tail hy _
    | cons d x ih =>
      intro i found h
      rw [List.cons_append] at h
      rw [List.cons_append, List.length_cons, lastIn, byteAt_span h, Except.ok_bind,
        ih (i + 1) _ h.tail, List.length_cons, Nat.add_comm x.length, Nat.add_assoc]
  rw [h.sub_eq]
  exact hspec x i none h

theorem exists_last_split (c : UInt8) (s : List UInt8) :
    c ∉ s ∨ ∃ a b, c ∉ b ∧ s = a ++ c :: b := by
  rcases exists_split c s.reverse with hs | ⟨a, b, ha, hs⟩
  · exact .inl fun hm => hs (List.mem_reverse.mpr hm)
  · refine .inr ⟨b.reverse, a.reverse, fun hm => ha (List.mem_reverse.mp hm), ?_⟩
    rw [← List.reverse_reverse s, hs]
    simp

def portValue (ds : List UInt8) : Nat := ds.foldl (fun n c => n * 10 + (c.toNat - 48)) 0

/-- A number in decimal that is not too big. Without digits it stands for no port. -/
structure PortText (ds : List UInt8) : Prop where
  digits : ∀ c ∈ ds, isDigit c = true
  value_le : portValue ds ≤ 65535

theorem le_foldl_port (ds : List UInt8) (n : Nat) :
    n ≤ ds.foldl (fun n c => n * 10 + (c.toNat - 48)) n := by
  induction ds generalizing n with
  | nil => exact Nat.le_refl n
  | cons c ds ih =>
    have hstep : n ≤ n * 10 + (c.toNat - 48) := by omega
    exact Nat.le_trans hstep (ih _)

theorem portLoop_span {b : List UInt8} (h : Spans b i ds last) (start value : Nat) :
    ((∀ c ∈ ds, isDigit c = true) ∧
        ds.foldl (fun n c => n * 10 + (c.toNat - 48)) value ≤ 65535 ∧
        portLoop b start i ds.length value =
          .ok (ds.foldl (fun n c => n * 10 + (c.toNat - 48)) value)) ∨
      Malformed (portLoop b start i ds.length value) ∧
        ¬((∀ c ∈ ds, isDigit c = true) ∧
          ds.foldl (fun n c => n * 10 + (c.toNat - 48)) value ≤ 65535) ∨ 65535 < value := by
  induction ds generalizing i value with
  | nil =>
    by_cases hv : value ≤ 65535
    · exact .inl ⟨by simp, hv, rfl⟩
    · exact .inr (.inr (by omega))
  | cons c ds ih =>
    rw [List.length_cons, portLoop, byteAt_span h, Except.ok_bind]
    split
    · next hdigit =>
      refine .inr (.inl ⟨malformed_intro _ _, fun hall => ?_⟩)
      rw [hall.1 c List.mem_cons_self] at hdigit
      cases hdigit
    · next hdigit =>
      dsimp only
      split
      · next hbig =>
        refine .inr (.inl ⟨malformed_intro _ _, fun hall => ?_⟩)
        have hle := le_foldl_port ds (value * 10 + (c.toNat - 48))
        rw [List.foldl_cons] at hall
        have := hall.2
        omega
      · next hsmall =>
        have hc : isDigit c = true := by simpa using hdigit
        rcases ih h.tail (value * 10 + (c.toNat - 48)) with ⟨hall, hle, hok⟩ | ⟨hbad, hno⟩ | hbig
        · exact .inl ⟨List.forall_mem_cons.mpr ⟨hc, hall⟩, hle, hok⟩
        · refine .inr (.inl ⟨hbad, fun hall => hno ⟨?_, hall.2⟩⟩)
          exact fun d hd => hall.1 d (List.mem_cons_of_mem _ hd)
        · omega

def addPort (u : Uri) (ds : List UInt8) : Uri :=
  if ds = [] then u else { u with port := portValue ds, hasExplicitPort := true }

theorem parsePort_span {u : Uri} (h : Spans b i ds last) :
    (PortText ds ∧ parsePort u b i last = .ok (addPort u ds)) ∨
    (¬PortText ds ∧ Malformed (parsePort u b i last)) := by
  unfold parsePort addPort
  by_cases hds : ds = []
  · subst hds
    rw [if_pos (by rw [h.last_eq]; simp), if_pos rfl]
    exact .inl ⟨⟨by simp, by decide⟩, rfl⟩
  · have hlt := h.lt_iff.mpr hds
    rw [if_neg (by omega), if_neg hds, h.sub_eq]
    rcases portLoop_span h i 0 with ⟨hall, hle, hok⟩ | ⟨hbad, hno⟩ | hbig
    · rw [hok]
      exact .inl ⟨⟨hall, hle⟩, rfl⟩
    · exact .inr ⟨fun hp => hno ⟨hp.digits, hp.value_le⟩, hbad.bind _⟩
    · omega

/-!
## The parts of a URI

A text that parses is put together from parts, each without the separators that would end it
earlier. Parsing such a text returns the URI of its parts, and every other text is refused.
-/

/-- What stands between the two slashes and the path. -/
structure Authority where
  userinfo : Option (List UInt8)
  host : List UInt8
  ipv6 : Bool
  port : Option (List UInt8)

/-- The parts of a URI. One that may be absent is an option. -/
structure Parts where
  scheme : Option (List UInt8)
  authority : Option Authority
  path : List UInt8
  query : Option (List UInt8)
  fragment : Option (List UInt8)

/-- A part with the character that ends it. -/
def upTo (c : UInt8) (s : Option (List UInt8)) : List UInt8 := s.elim [] (· ++ [c])

/-- A part with the character that announces it. -/
def after (c : UInt8) (s : Option (List UInt8)) : List UInt8 := s.elim [] (c :: ·)

def hostText (host : List UInt8) (ipv6 : Bool) : List UInt8 :=
  if ipv6 then openBracket :: host ++ [closeBracket] else host

def Authority.text (a : Authority) : List UInt8 :=
  upTo atSign a.userinfo ++ (hostText a.host a.ipv6 ++ after colon a.port)

def hierText (authority : Option Authority) (path : List UInt8) : List UInt8 :=
  authority.elim path fun a => slash :: slash :: (a.text ++ path)

def Parts.text (p : Parts) : List UInt8 :=
  upTo colon p.scheme ++ hierText p.authority p.path ++ after question p.query ++
    after hash p.fragment

structure SchemeText (s : List UInt8) : Prop where
  first : ∃ c, s.head? = some c ∧ isAlpha c = true
  chars : ∀ c ∈ s, isSchemeChar c = true

structure Authority.Host (a : Authority) : Prop where
  unsigned : atSign ∉ a.host ∧ ∀ ds, a.port = some ds → atSign ∉ ds
  bracketed : a.ipv6 = true → closeBracket ∉ a.host
  plain : a.ipv6 = false → a.host.head? ≠ some openBracket
  unported : a.ipv6 = false → a.port = none → colon ∉ a.host
  ported : a.ipv6 = false → ∀ ds, a.port = some ds → colon ∉ ds

structure Authority.Good (a : Authority) : Prop extends a.Host where
  port : ∀ ds, a.port = some ds → PortText ds

structure Parts.Good (p : Parts) : Prop where
  scheme : ∀ s, p.scheme = some s → SchemeText s
  authority : ∀ a, p.authority = some a →
    a.Good ∧ slash ∉ a.text ∧ question ∉ a.text ∧ hash ∉ a.text ∧
      (p.path = [] ∨ p.path.head? = some slash)
  unslashed : p.authority = none → ¬[slash, slash] <+: p.path
  unschemed : p.scheme = none → p.authority = none →
    ∀ s rest, SchemeText s → p.path ≠ s ++ colon :: rest
  path : question ∉ p.path ∧ hash ∉ p.path
  query : ∀ q, p.query = some q → hash ∉ q

def addUserinfo (u : Uri) (userinfo : Option (List UInt8)) : Uri :=
  userinfo.elim u fun s => { u with userinfo := s, hasUserinfo := true }

def addHost (u : Uri) (host : List UInt8) (ipv6 : Bool) : Uri :=
  if ipv6 then { u with host, hostIsIpv6 := true } else { u with host }

def addAuthority (u : Uri) (authority : Option Authority) : Uri :=
  authority.elim u fun a => withDefaultPort
    { (addPort (addHost (addUserinfo u a.userinfo) a.host a.ipv6) (a.port.getD [])) with
      hasAuthority := true }

def addScheme (u : Uri) (scheme : Option (List UInt8)) : Uri :=
  scheme.elim u fun s => { u with scheme := toLowerCase s, hasScheme := true }

def addQuery (u : Uri) (query : Option (List UInt8)) : Uri :=
  query.elim u fun s => { u with query := s, hasQuery := true }

def addFragment (u : Uri) (fragment : Option (List UInt8)) : Uri :=
  fragment.elim u fun s => { u with fragment := s, hasFragment := true }

def portNumber (ds : List UInt8) : Option Nat := if ds = [] then none else some (portValue ds)

def Parts.explicitPort (p : Parts) : Option Nat :=
  p.authority.bind fun a => a.port.bind portNumber

def Parts.port (p : Parts) : Int :=
  if p.authority.isSome then
    p.explicitPort.elim (p.scheme.elim (-1) fun s => defaultPortFor (toLowerCase s))
      fun v => (v : Int)
  else -1

def Parts.uri (p : Parts) : Uri where
  scheme := (p.scheme.map toLowerCase).getD []
  hasScheme := p.scheme.isSome
  hasAuthority := p.authority.isSome
  userinfo := (p.authority.bind (·.userinfo)).getD []
  hasUserinfo := (p.authority.bind (·.userinfo)).isSome
  host := (p.authority.map (·.host)).getD []
  hostIsIpv6 := (p.authority.map (·.ipv6)).getD false
  port := p.port
  hasExplicitPort := p.explicitPort.isSome
  path := p.path
  query := p.query.getD []
  hasQuery := p.query.isSome
  fragment := p.fragment.getD []
  hasFragment := p.fragment.isSome

theorem Parts.uri_eq (p : Parts) :
    p.uri = { addAuthority (addScheme (addQuery (addFragment {} p.fragment) p.query) p.scheme)
      p.authority with path := p.path } := by
  obtain ⟨scheme, authority, path, query, fragment⟩ := p
  rcases authority with _ | ⟨_ | userinfo, host, _ | _, _ | _ | _⟩ <;> cases scheme <;>
    cases query <;> cases fragment <;> rfl

theorem colon_ne_schemeChar (h : isSchemeChar c = true) : c ≠ colon ∧ c ≠ slash := by
  constructor
  · rintro rfl
    exact absurd h (by decide)
  · rintro rfl
    exact absurd h (by decide)

theorem SchemeText.notMem (h : SchemeText s) (hc : isSchemeChar c = false) : c ∉ s := fun hm => by
  rw [h.chars c hm] at hc
  cases hc

end Cajeta.Net.Uri
