import Cajeta.Net.UriParse

/-!
# Recomposing a URI

Printing fills its buffer exactly with the text of the URI's parts. Parsing that text gives the URI
back, unless a host with a colon in it has lost the empty port that stood behind it.
-/

namespace Cajeta.Net.Uri

/-- A number in decimal, without leading zeros. -/
def decimal (v : Nat) : List UInt8 :=
  if v < 10 then [UInt8.ofNat (48 + v)] else decimal (v / 10) ++ [UInt8.ofNat (48 + v % 10)]

theorem decimal_small (h : v < 10) : decimal v = [UInt8.ofNat (48 + v)] := by
  rw [decimal, if_pos h]

theorem decimal_large (h : ¬v < 10) :
    decimal v = decimal (v / 10) ++ [UInt8.ofNat (48 + v % 10)] := by
  rw [decimal, if_neg h]

theorem countDigits_eq (h : 0 < v) : countDigits v = (decimal v).length := by
  induction v using Nat.strongRecOn with
  | ind v ih =>
    rw [countDigits, if_neg (by omega)]
    by_cases hv : v < 10
    · rw [decimal_small hv, Nat.div_eq_of_lt hv, countDigits, if_pos rfl]
      rfl
    · rw [decimal_large hv, ih (v / 10) (by omega) (by omega), List.length_append]
      rfl

theorem digits_eq (v : Nat) : digits v = (decimal v).length := by
  unfold digits
  split
  · next hv => rw [decimal_small hv]; rfl
  · next hv => exact countDigits_eq (by omega)

theorem decimal_ne_nil (v : Nat) : decimal v ≠ [] := by
  by_cases hv : v < 10
  · rw [decimal_small hv]
    simp
  · rw [decimal_large hv]
    simp

theorem digit_toNat (h : d < 10) : (UInt8.ofNat (48 + d)).toNat = 48 + d := by
  rw [UInt8.toNat_ofNat']
  omega

theorem isDigit_ofNat (h : d < 10) : isDigit (UInt8.ofNat (48 + d)) = true := by
  simp only [isDigit, Bool.and_eq_true, decide_eq_true_eq, UInt8.le_iff_toNat_le, digit_toNat h]
  exact ⟨Nat.le_add_right _ _, by simp; omega⟩

theorem decimal_spec (v : Nat) :
    (∀ c ∈ decimal v, isDigit c = true) ∧ portValue (decimal v) = v := by
  induction v using Nat.strongRecOn with
  | ind v ih =>
    by_cases hv : v < 10
    · rw [decimal_small hv]
      refine ⟨by simpa using isDigit_ofNat hv, ?_⟩
      rw [portValue, List.foldl_cons, List.foldl_nil, digit_toNat hv]
      omega
    · obtain ⟨hdigits, hvalue⟩ := ih (v / 10) (by omega)
      have hd : v % 10 < 10 := Nat.mod_lt v (by decide)
      rw [decimal_large hv]
      refine ⟨fun c hc => ?_, ?_⟩
      · rcases List.mem_append.mp hc with hc | hc
        · exact hdigits c hc
        · rw [List.mem_singleton.mp hc]
          exact isDigit_ofNat hd
      · rw [portValue] at hvalue
        rw [portValue, List.foldl_append, hvalue, List.foldl_cons, List.foldl_nil, digit_toNat hd]
        omega

theorem portText_decimal (h : v ≤ 65535) : PortText (decimal v) :=
  ⟨(decimal_spec v).1, by rw [(decimal_spec v).2]; exact h⟩

/-! ## Filling a buffer -/

/-- The buffer holds `done`, with room for more. -/
structure Output.Holds (o : Output) (done : List UInt8) (room : Nat) : Prop where
  out : ∃ rest, o.out = done ++ rest ∧ rest.length = room
  cursor : o.cursor = done.length

/-- A step of printing appends a text, when there is room for it. -/
def Writes (f : Output → Parse Output) (s : List UInt8) : Prop :=
  ∀ o done room, Output.Holds o done (s.length + room) →
    ∃ o', f o = .ok o' ∧ Output.Holds o' (done ++ s) room

theorem Writes.bind {f g : Output → Parse Output} (hf : Writes f s) (hg : Writes g t) :
    Writes (fun o => f o >>= g) (s ++ t) := by
  intro o done room ho
  rw [List.length_append, Nat.add_assoc] at ho
  obtain ⟨o₁, hrun₁, ho₁⟩ := hf o done _ ho
  obtain ⟨o₂, hrun₂, ho₂⟩ := hg o₁ _ room ho₁
  refine ⟨o₂, ?_, by rwa [List.append_assoc] at ho₂⟩
  dsimp only
  rw [hrun₁, Except.ok_bind, hrun₂]

theorem writes_pure : Writes pure [] := fun o done room ho =>
  ⟨o, rfl, by simpa using ho⟩

theorem Writes.run (h : Writes f s) :
    ∃ o, f ⟨List.replicate s.length 0, 0⟩ = .ok o ∧ o.out = s ∧ o.cursor = o.out.length := by
  have hstart : Output.Holds ⟨List.replicate s.length 0, 0⟩ [] (s.length + 0) :=
    ⟨⟨_, rfl, List.length_replicate⟩, rfl⟩
  obtain ⟨o, hrun, ⟨rest, hout, hrest⟩, hcursor⟩ := h _ _ _ hstart
  rw [List.length_eq_zero_iff.mp hrest, List.append_nil, List.nil_append] at hout
  exact ⟨o, hrun, hout, by rw [hcursor, hout, List.nil_append]⟩

theorem store_append (done : List UInt8) (x : UInt8) (rest : List UInt8) (c : UInt8) :
    store (done ++ x :: rest) done.length c = .ok (done ++ c :: rest) := by
  rw [store, if_pos (by simp)]
  simp

theorem writes_putByte (c : UInt8) : Writes (putByte · c) [c] := by
  intro o done room ho
  obtain ⟨⟨rest, hout, hrest⟩, hcursor⟩ := ho
  cases rest with
  | nil => rw [List.length_nil, List.length_singleton] at hrest; omega
  | cons x rest =>
    refine ⟨⟨done ++ c :: rest, done.length + 1⟩, ?_, ⟨rest, by simp, ?_⟩, by simp⟩
    · dsimp only
      rw [putByte, hcursor, hout, store_append]
      rfl
    · simp only [List.length_cons, List.length_nil] at hrest
      omega

theorem writes_copyInto (src : List UInt8) : Writes (copyInto · src) src := by
  induction src with
  | nil => exact writes_pure
  | cons c src ih => exact (writes_putByte c).bind ih

theorem putDigits_append (v : Nat) (done : List UInt8) : ∀ mid post : List UInt8,
    mid.length = digits v →
      putDigits (done ++ mid ++ post) (done.length + digits v) v =
        .ok (done ++ decimal v ++ post) := by
  induction v using Nat.strongRecOn with
  | ind v ih =>
    intro mid post hmid
    obtain ⟨mid, x, rfl⟩ : ∃ mid' x, mid = mid' ++ [x] := by
      rcases List.eq_nil_or_concat mid with rfl | ⟨mid', x, rfl⟩
      · rw [digits_eq, List.length_nil] at hmid
        exact absurd (List.length_eq_zero_iff.mp hmid.symm) (decimal_ne_nil v)
      · exact ⟨mid', x, by simp⟩
    have hdigits : digits v = mid.length + 1 := by
      rw [← hmid, List.length_append, List.length_singleton]
    have hstore := store_append (done ++ mid) x post (UInt8.ofNat (48 + v % 10))
    rw [List.length_append] at hstore
    rw [hdigits, ← Nat.add_assoc, putDigits, ← List.append_assoc, List.append_assoc _ [x],
      List.singleton_append, hstore, Except.ok_bind]
    by_cases hv : v < 10
    · have hone : mid = [] := by
        rw [digits_eq, decimal_small hv, List.length_singleton] at hdigits
        exact List.length_eq_zero_iff.mp (by omega)
      rw [if_neg (by omega), decimal_small hv, hone, Nat.mod_eq_of_lt hv]
      simp
      rfl
    · have hmid' : mid.length = digits (v / 10) := by
        rw [digits_eq, decimal_large hv, List.length_append, List.length_singleton,
          ← digits_eq] at hdigits
        omega
      have hnext := ih (v / 10) (by omega) mid (UInt8.ofNat (48 + v % 10) :: post) hmid'
      rw [← hmid'] at hnext
      rw [if_pos (by omega), hnext, decimal_large hv]
      simp

theorem writes_putInt (v : Nat) : Writes (putInt · v) (decimal v) := by
  intro o done room ho
  obtain ⟨⟨rest, hout, hrest⟩, hcursor⟩ := ho
  have hput := putDigits_append v done (rest.take (digits v)) (rest.drop (digits v))
    (by rw [List.length_take, hrest, ← digits_eq]; omega)
  rw [List.append_assoc, List.take_append_drop] at hput
  refine ⟨⟨done ++ decimal v ++ rest.drop (digits v), done.length + digits v⟩, ?_,
    ⟨_, rfl, ?_⟩, ?_⟩
  · dsimp only
    rw [putInt, hcursor, hout, hput]
    rfl
  · rw [List.length_drop, hrest, ← digits_eq]
    omega
  · rw [List.length_append, digits_eq]

/-! ## Printing the parts -/

def given (has : Bool) (s : List UInt8) : Option (List UInt8) := if has then some s else none

def parts (u : Uri) : Parts where
  scheme := given u.hasScheme u.scheme
  authority := if u.hasAuthority then some
    { userinfo := given u.hasUserinfo u.userinfo
      host := u.host
      ipv6 := u.hostIsIpv6
      port := given u.printsPort (decimal u.port.toNat) } else none
  path := u.path
  query := given u.hasQuery u.query
  fragment := given u.hasFragment u.fragment

theorem writes_fillTail (has : Bool) (c : UInt8) (src : List UInt8) :
    Writes (fillTail has c src) (after c (given has src)) := by
  cases has with
  | false => exact writes_pure
  | true => exact (writes_putByte c).bind (writes_copyInto src)

theorem writes_fillScheme (u : Uri) :
    Writes (fillScheme u) (upTo colon (given u.hasScheme u.scheme)) := by
  unfold fillScheme
  cases u.hasScheme with
  | false => exact writes_pure
  | true => exact (writes_copyInto u.scheme).bind (writes_putByte colon)

theorem writes_fillUserinfo (u : Uri) :
    Writes (fillUserinfo u) (upTo atSign (given u.hasUserinfo u.userinfo)) := by
  unfold fillUserinfo
  cases u.hasUserinfo with
  | false => exact writes_pure
  | true => exact (writes_copyInto u.userinfo).bind (writes_putByte atSign)

theorem writes_fillHost (u : Uri) : Writes (fillHost u) (hostText u.host u.hostIsIpv6) := by
  unfold fillHost hostText
  cases u.hostIsIpv6 with
  | false => exact writes_copyInto u.host
  | true =>
    exact (writes_putByte openBracket).bind
      ((writes_copyInto u.host).bind (writes_putByte closeBracket))

theorem writes_fillPort (u : Uri) :
    Writes (fillPort u) (after colon (given u.printsPort (decimal u.port.toNat))) := by
  unfold fillPort
  cases u.printsPort with
  | false => exact writes_pure
  | true => exact (writes_putByte colon).bind (writes_putInt _)

theorem writes_fillAuthority (u : Uri) :
    Writes (fillAuthority u) (hierText u.parts.authority []) := by
  unfold fillAuthority parts
  cases u.hasAuthority with
  | false => exact writes_pure
  | true =>
    have h := (writes_putByte slash).bind ((writes_putByte slash).bind ((writes_fillUserinfo u).bind
      ((writes_fillHost u).bind (writes_fillPort u))))
    simpa [hierText, Authority.text] using h

theorem hierText_append (authority : Option Authority) (path : List UInt8) :
    hierText authority [] ++ path = hierText authority path := by
  cases authority with
  | none => rfl
  | some a => simp [hierText]

theorem textLength_eq (u : Uri) : u.textLength = u.parts.text.length := by
  have htail : ∀ (has : Bool) (c : UInt8) (s : List UInt8),
      (after c (given has s)).length = if has then s.length + 1 else 0 := by
    intro has c s
    cases has <;> simp [after, given]
  have hupTo : ∀ (has : Bool) (c : UInt8) (s : List UInt8),
      (upTo c (given has s)).length = if has then s.length + 1 else 0 := by
    intro has c s
    cases has <;> simp [upTo, given]
  have hhost : (hostText u.host u.hostIsIpv6).length =
      if u.hostIsIpv6 then u.host.length + 2 else u.host.length := by
    cases u.hostIsIpv6 <;> simp [hostText]
  have hhier : (hierText u.parts.authority u.path).length =
      (if u.hasAuthority then
        2 + (if u.hasUserinfo then u.userinfo.length + 1 else 0) +
          (if u.hostIsIpv6 then u.host.length + 2 else u.host.length) +
          (if u.printsPort then 1 + digits u.port.toNat else 0) else 0) + u.path.length := by
    unfold parts
    cases u.hasAuthority with
    | false => simp [hierText]
    | true =>
      simp only [hierText, Authority.text, if_true, Option.elim_some, List.length_cons,
        List.length_append, htail, hupTo, hhost, digits_eq]
      rw [Nat.add_comm 1]
      omega
  rw [textLength, Parts.text, List.length_append, List.length_append, List.length_append]
  change _ = (upTo colon (given u.hasScheme u.scheme)).length +
    (hierText u.parts.authority u.path).length +
      (after question (given u.hasQuery u.query)).length +
      (after hash (given u.hasFragment u.fragment)).length
  rw [hhier, htail, htail, hupTo]
  omega

theorem fill_eq (u : Uri) :
    ∃ o, u.fill = .ok o ∧ o.out = u.parts.text ∧ o.cursor = o.out.length := by
  have hwrites := (writes_fillScheme u).bind ((writes_fillAuthority u).bind
    ((writes_copyInto u.path).bind ((writes_fillTail u.hasQuery question u.query).bind
      (writes_fillTail u.hasFragment hash u.fragment))))
  have htext : upTo colon (given u.hasScheme u.scheme) ++ (hierText u.parts.authority [] ++
      (u.path ++ (after question (given u.hasQuery u.query) ++
        after hash (given u.hasFragment u.fragment)))) = u.parts.text := by
    rw [← List.append_assoc (hierText _ _), hierText_append, Parts.text]
    simp only [List.append_assoc]
    rfl
  rw [htext] at hwrites
  obtain ⟨o, hrun, hout, hcursor⟩ := hwrites.run
  rw [← textLength_eq] at hrun
  exact ⟨o, hrun, hout, hcursor⟩

theorem toString_eq (u : Uri) : u.toString = .ok u.parts.text := by
  obtain ⟨o, hrun, hout, -⟩ := u.fill_eq
  rw [toString, hrun, ← hout]
  rfl

end Cajeta.Net.Uri
