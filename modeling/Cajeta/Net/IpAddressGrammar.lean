import Cajeta.Net.IpAddress
import Mathlib.Tactic.Common

/-!
# The text of an IP address

The dotted quad, the groups of an IPv6 text with an embedded quad at their end, and the two forms
of the whole: eight groups, or fewer around a `::`. A text is read from the left at its first
separator, so what each form says of such a text is stated here for the parser's loops.
-/

namespace Cajeta.Net

def decValue (t : List UInt8) : Nat := t.foldl (fun n c => n * 10 + (decDigit c).getD 0) 0

def hexValue (t : List UInt8) : Nat := t.foldl (fun n c => n * 16 + (hexDigit c).getD 0) 0

/-- One to three decimal digits, of at most 255. -/
structure DecOctet (t : List UInt8) (v : UInt8) : Prop where
  ne_nil : t ≠ []
  short : t.length ≤ 3
  digits : ∀ c ∈ t, (decDigit c).isSome = true
  value : decValue t = v.toNat

inductive Dotted : Nat → List UInt8 → List UInt8 → Prop where
  | last : DecOctet t v → Dotted 1 t [v]
  | cons : DecOctet t v → Dotted k rest os → Dotted (k + 1) (t ++ dot :: rest) (v :: os)

abbrev Quad := Dotted 4

structure HexGroup (t : List UInt8) (v : Nat) : Prop where
  ne_nil : t ≠ []
  short : t.length ≤ 4
  digits : ∀ c ∈ t, (hexDigit c).isSome = true
  value : hexValue t = v

def groupOctets (v : Nat) : List UInt8 := [UInt8.ofNat (v / 256), UInt8.ofNat (v % 256)]

/-- Groups with colons between them, of which the last may be a quad. -/
inductive Groups : List UInt8 → List UInt8 → Bool → Prop where
  | group : HexGroup t v → Groups t (groupOctets v) false
  | quad : Quad t os → Groups t os true
  | cons : HexGroup t v → Groups rest os q →
      Groups (t ++ colon :: rest) (groupOctets v ++ os) q

/-- One side of a `::`. -/
def Side (t os : List UInt8) (q : Bool) : Prop := t = [] ∧ os = [] ∧ q = false ∨ Groups t os q

/-- The sixteen octets of an IPv6 text. The `::` stands for at least one group. -/
inductive IPv6Text : List UInt8 → List UInt8 → Prop where
  | full : Groups t os q → os.length = 16 → IPv6Text t os
  | compressed : Side h hs false → Side l ls q → hs.length + ls.length < 16 →
      IPv6Text (h ++ colon :: colon :: l)
        (hs ++ List.replicate (16 - (hs.length + ls.length)) 0 ++ ls)

inductive Denotes : List UInt8 → IpAddress → Prop where
  | v4 : Quad t os → a.family = .v4 → a.octets.toList = os ++ List.replicate 12 0 → Denotes t a
  | v6 : IPv6Text t os → a.family = .v6 → a.octets.toList = os → Denotes t a

/-- A quad after seven or eight groups, on its own or after a `::`. -/
def Overfull (t : List UInt8) : Prop :=
  ∃ l ls, Groups l ls true ∧ 16 < ls.length ∧ ls.length ≤ 20 ∧
    (t = l ∨ ∃ h hs, Side h hs false ∧ hs.length ≤ 16 ∧ t = h ++ colon :: colon :: l)

theorem split_unique {c : α} {a a' b b' : List α} (ha : c ∉ a) (ha' : c ∉ a')
    (h : a ++ c :: b = a' ++ c :: b') : a = a' ∧ b = b' := by
  induction a generalizing a' with
  | nil =>
    cases a' with
    | nil => exact ⟨rfl, (List.cons.inj h).2⟩
    | cons x a' => exact absurd ((List.cons.inj h).1 ▸ List.mem_cons_self) ha'
  | cons x a ih =>
    cases a' with
    | nil => exact absurd ((List.cons.inj h).1 ▸ List.mem_cons_self) ha
    | cons x' a' =>
      obtain ⟨rfl, htail⟩ := List.cons.inj h
      obtain ⟨rfl, rfl⟩ := ih (fun hm => ha (List.mem_cons_of_mem _ hm))
        (fun hm => ha' (List.mem_cons_of_mem _ hm)) htail
      exact ⟨rfl, rfl⟩

theorem exists_split (c : UInt8) (s : List UInt8) :
    c ∉ s ∨ ∃ a b, c ∉ a ∧ s = a ++ c :: b := by
  induction s with
  | nil => exact .inl (by simp)
  | cons x s ih =>
    by_cases hx : x = c
    · exact .inr ⟨[], s, by simp, by rw [hx]; rfl⟩
    · rcases ih with hs | ⟨a, b, ha, rfl⟩
      · exact .inl fun h => (List.mem_cons.mp h).elim (fun h' => hx h'.symm) hs
      · exact .inr ⟨x :: a, b, fun h => (List.mem_cons.mp h).elim (fun h' => hx h'.symm) ha, rfl⟩

theorem decDigit_dot : decDigit dot = none := by decide
theorem decDigit_colon : decDigit colon = none := by decide
theorem hexDigit_dot : hexDigit dot = none := by decide
theorem hexDigit_colon : hexDigit colon = none := by decide

theorem hexDigit_of_decDigit (h : (decDigit c).isSome = true) : (hexDigit c).isSome = true := by
  unfold decDigit at h
  unfold hexDigit
  split at h
  · next hc => rw [if_pos hc]; rfl
  · cases h

theorem hexDigit_lt (c : UInt8) : (hexDigit c).getD 0 < 16 := by
  unfold hexDigit
  simp only [UInt8.le_iff_toNat_le]
  repeat' split
  all_goals simp only [Option.getD_some, Option.getD_none]
  · next h => have := h.2; simp at this; omega
  · next h => have := h.2; simp at this; omega
  · next h => have := h.2; simp at this; omega
  · omega

theorem notMem_of_digits {f : UInt8 → Option Nat} {t : List UInt8} (hc : f c = none)
    (h : ∀ d ∈ t, (f d).isSome = true) : c ∉ t := fun hm => by
  have := h c hm
  rw [hc] at this
  cases this

theorem DecOctet.dot_notMem (h : DecOctet t v) : dot ∉ t := notMem_of_digits decDigit_dot h.digits
theorem HexGroup.dot_notMem (h : HexGroup t v) : dot ∉ t := notMem_of_digits hexDigit_dot h.digits
theorem HexGroup.colon_notMem (h : HexGroup t v) : colon ∉ t :=
  notMem_of_digits hexDigit_colon h.digits

theorem decValue_append (s t : List UInt8) :
    decValue (s ++ t) = t.foldl (fun n c => n * 10 + (decDigit c).getD 0) (decValue s) :=
  List.foldl_append

theorem le_foldl_dec (t : List UInt8) (n : Nat) :
    n ≤ t.foldl (fun n c => n * 10 + (decDigit c).getD 0) n := by
  induction t generalizing n with
  | nil => exact Nat.le_refl n
  | cons c t ih =>
    have hstep : n ≤ n * 10 + (decDigit c).getD 0 := by omega
    exact Nat.le_trans hstep (ih _)

theorem decValue_le_append (s t : List UInt8) : decValue s ≤ decValue (s ++ t) := by
  rw [decValue_append]
  exact le_foldl_dec t _

theorem DecOctet.value_le (h : DecOctet t v) : decValue t ≤ 255 := by
  have hv := v.toNat_lt
  rw [h.value]
  omega

theorem decOctet_of_digits (hne : t ≠ []) (hshort : t.length ≤ 3)
    (hdigits : ∀ c ∈ t, (decDigit c).isSome = true) (hle : decValue t ≤ 255) :
    DecOctet t (UInt8.ofNat (decValue t)) :=
  ⟨hne, hshort, hdigits, by rw [UInt8.toNat_ofNat']; omega⟩

theorem DecOctet.eq_ofNat (h : DecOctet t v) : v = UInt8.ofNat (decValue t) := by
  rw [h.value, UInt8.ofNat_toNat]

theorem Dotted.first (h : Dotted k t os) :
    ∃ t₁ v, DecOctet t₁ v ∧ (t = t₁ ∨ ∃ rest, t = t₁ ++ dot :: rest) := by
  cases h with
  | last h => exact ⟨_, _, h, .inl rfl⟩
  | cons h _ => exact ⟨_, _, h, .inr ⟨_, rfl⟩⟩

theorem Dotted.prefix_first (h : Dotted k (p ++ s) os) (hp : ∀ c ∈ p, (decDigit c).isSome = true) :
    p.length ≤ 3 ∧ decValue p ≤ 255 := by
  obtain ⟨t₁, v, ht, hor⟩ := h.first
  have hpre : p <+: t₁ := by
    rcases hor with heq | ⟨rest, heq⟩
    · exact ⟨s, heq⟩
    · have hdot := notMem_of_digits decDigit_dot hp
      rcases List.append_eq_append_iff.mp heq with ⟨a, ha, -⟩ | ⟨a, ha, hrest⟩
      · exact ⟨a, ha.symm⟩
      · cases a with
        | nil => rw [List.append_nil] at ha; exact ⟨[], by rw [ha, List.append_nil]⟩
        | cons x a =>
          obtain ⟨rfl, -⟩ := List.cons.inj hrest
          exact absurd (ha ▸ List.mem_append_right _ List.mem_cons_self) hdot
  obtain ⟨u, rfl⟩ := hpre
  have hlen := ht.short
  rw [List.length_append] at hlen
  exact ⟨by omega, Nat.le_trans (decValue_le_append p u) ht.value_le⟩

theorem Dotted.chars (h : Dotted k t os) : ∀ c ∈ t, (decDigit c).isSome = true ∨ c = dot := by
  induction h with
  | last h => exact fun c hc => .inl (h.digits c hc)
  | cons h _ ih =>
    intro c hc
    rcases List.mem_append.mp hc with hc | hc
    · exact .inl (h.digits c hc)
    · rcases List.mem_cons.mp hc with rfl | hc
      · exact .inr rfl
      · exact ih c hc

theorem Dotted.colon_notMem (h : Dotted k t os) : colon ∉ t := fun hm => by
  rcases h.chars colon hm with hd | hd
  · rw [decDigit_colon] at hd
    cases hd
  · cases hd

theorem Dotted.length_eq (h : Dotted k t os) : os.length = k := by
  induction h with
  | last => rfl
  | cons _ _ ih => rw [List.length_cons, ih]

theorem Dotted.pos (h : Dotted k t os) : 0 < k := by cases h <;> omega

theorem dotted_of_notMem (hdot : dot ∉ t) :
    Dotted k t os ↔ k = 1 ∧ ∃ v, DecOctet t v ∧ os = [v] := by
  constructor
  · intro h
    cases h with
    | last h => exact ⟨rfl, _, h, rfl⟩
    | cons => exact absurd (List.mem_append_right _ List.mem_cons_self) hdot
  · rintro ⟨rfl, v, h, rfl⟩
    exact .last h

theorem dotted_at_dot (hdot : dot ∉ t) : Dotted k (t ++ dot :: rest) os ↔
    ∃ j v os', k = j + 1 ∧ DecOctet t v ∧ Dotted j rest os' ∧ os = v :: os' := by
  constructor
  · intro h
    generalize hs : t ++ dot :: rest = s at h
    cases h with
    | last h => exact absurd (hs ▸ List.mem_append_right _ List.mem_cons_self) h.dot_notMem
    | cons h hrest =>
      obtain ⟨rfl, rfl⟩ := split_unique hdot h.dot_notMem hs
      exact ⟨_, _, _, rfl, h, hrest, rfl⟩
  · rintro ⟨j, v, os', rfl, h, hrest, rfl⟩
    exact .cons h hrest

theorem HexGroup.lt (h : HexGroup t v) : v < 65536 := by
  have hle : ∀ (s : List UInt8) n m, n < 16 ^ m →
      s.foldl (fun n c => n * 16 + (hexDigit c).getD 0) n < 16 ^ (m + s.length) := by
    intro s
    induction s with
    | nil => exact fun n m hn => hn
    | cons c s ih =>
      intro n m hn
      have hc := hexDigit_lt c
      have hn' : n * 16 + (hexDigit c).getD 0 < 16 ^ (m + 1) := by rw [Nat.pow_succ]; omega
      have := ih _ (m + 1) hn'
      rw [List.length_cons]
      rwa [Nat.add_right_comm, Nat.add_assoc] at this
  have hlt := hle t 0 0 (by decide)
  rw [Nat.zero_add] at hlt
  have hpow : 16 ^ t.length ≤ 16 ^ 4 := Nat.pow_le_pow_right (by decide) h.short
  rw [← h.value]
  exact Nat.lt_of_lt_of_le hlt hpow

theorem Groups.ne_nil (h : Groups t os q) : t ≠ [] := by
  cases h with
  | group h => exact h.ne_nil
  | quad h =>
    cases h with
    | cons h _ => exact fun hnil => List.cons_ne_nil _ _ (List.append_eq_nil_iff.mp hnil).2
  | cons => exact fun hnil => List.cons_ne_nil _ _ (List.append_eq_nil_iff.mp hnil).2

theorem Groups.head_ne (h : Groups (c :: t) os q) : c ≠ colon := by
  rintro rfl
  generalize hs : colon :: t = s at h
  cases h with
  | group h => exact h.colon_notMem (hs ▸ List.mem_cons_self)
  | quad h => exact h.colon_notMem (hs ▸ List.mem_cons_self)
  | @cons t' v rest os q h _ =>
    cases t' with
    | nil => exact h.ne_nil rfl
    | cons x t' =>
      obtain ⟨rfl, -⟩ := List.cons.inj hs
      exact h.colon_notMem List.mem_cons_self

theorem groups_of_notMem (hcolon : colon ∉ t) : Groups t os q ↔
    (∃ v, HexGroup t v ∧ os = groupOctets v ∧ q = false) ∨ Quad t os ∧ q = true := by
  constructor
  · intro h
    cases h with
    | group h => exact .inl ⟨_, h, rfl, rfl⟩
    | quad h => exact .inr ⟨h, rfl⟩
    | cons => exact absurd (List.mem_append_right _ List.mem_cons_self) hcolon
  · rintro (⟨v, h, rfl, rfl⟩ | ⟨h, rfl⟩)
    · exact .group h
    · exact .quad h

theorem groups_at_colon (hcolon : colon ∉ t) : Groups (t ++ colon :: rest) os q ↔
    ∃ v os', HexGroup t v ∧ Groups rest os' q ∧ os = groupOctets v ++ os' := by
  constructor
  · intro h
    generalize hs : t ++ colon :: rest = s at h
    cases h with
    | group h => exact absurd (hs ▸ List.mem_append_right _ List.mem_cons_self) h.colon_notMem
    | quad h => exact absurd (hs ▸ List.mem_append_right _ List.mem_cons_self) h.colon_notMem
    | cons h hrest =>
      obtain ⟨rfl, rfl⟩ := split_unique hcolon h.colon_notMem hs
      exact ⟨_, _, h, hrest, rfl⟩
  · rintro ⟨v, os', h, hrest, rfl⟩
    exact .cons h hrest

/-!
## Parsing a quad

The loop is followed over the text that is left: it returns the octets of a dotted quad, or throws.
-/

/-- The octets written so far, and zeros after them. -/
structure Filled (octets : Octets) (done : List UInt8) : Prop where
  toList : octets.toList = done ++ List.replicate (16 - done.length) 0
  length_le : done.length ≤ 16

theorem filled_nil : Filled (Vector.replicate 16 0) [] := ⟨by simp, Nat.zero_le _⟩

theorem Filled.take (h : Filled octets done) : octets.toList.take done.length = done := by
  rw [h.toList, List.take_left]

theorem writeAll_ok (octets : Octets) (k : Nat) (vs : List UInt8) (h : k + vs.length ≤ 16) :
    ∃ octets', writeAll octets k vs = .ok octets' ∧
      octets'.toList = octets.toList.take k ++ vs ++ octets.toList.drop (k + vs.length) := by
  induction vs generalizing octets k with
  | nil => exact ⟨octets, rfl, by simp⟩
  | cons v vs ih =>
    rw [List.length_cons] at h
    have hk : k < 16 := by omega
    obtain ⟨octets', hwrite, hlist⟩ := ih (octets.set k v) (k + 1) (by omega)
    refine ⟨octets', ?_, ?_⟩
    · rw [writeAll, write, dif_pos hk]
      exact hwrite
    · have hlen : k < octets.toList.length := by rw [Vector.length_toList]; exact hk
      rw [hlist, Vector.toList_set, List.take_add_one, List.getElem?_set_self hlen,
        List.take_set_of_le (Nat.le_refl k), List.drop_set_of_lt (by omega), List.length_cons,
        Nat.add_right_comm, Nat.add_assoc]
      simp

theorem writeAll_singleton (octets : Octets) (k : Nat) (v : UInt8) :
    writeAll octets k [v] = write octets k v := by
  rw [writeAll]
  cases write octets k v <;> rfl

theorem writeAll_overflow {octets : Octets} (h : 16 < k + vs.length) (hk : k ≤ 16) :
    writeAll octets k vs = .error .outOfBounds := by
  induction vs generalizing octets k with
  | nil => rw [List.length_nil] at h; omega
  | cons v vs ih =>
    rw [List.length_cons] at h
    rw [writeAll, write]
    by_cases hlt : k < 16
    · rw [dif_pos hlt]
      exact ih (by omega) (by omega)
    · rw [dif_neg hlt]
      rfl

theorem Filled.writeAll {octets : Octets} (hf : Filled octets done) (vs : List UInt8)
    (h : done.length + vs.length ≤ 16) :
    ∃ octets', Net.writeAll octets done.length vs = .ok octets' ∧ Filled octets' (done ++ vs) := by
  obtain ⟨octets', hwrite, hlist⟩ := writeAll_ok octets done.length vs h
  refine ⟨octets', hwrite, ⟨?_, by rw [List.length_append]; exact h⟩⟩
  rw [hlist, hf.take, hf.toList, List.drop_append, List.drop_eq_nil_of_le (by omega),
    List.drop_replicate, List.length_append, List.nil_append]
  congr 2
  omega

theorem read_of_drop {b : List UInt8} (h : b.drop i = c :: s) :
    i < b.length ∧ byteAt b i = .ok c ∧ b.drop (i + 1) = s := by
  have hi : i < b.length := by
    by_contra hle
    rw [List.drop_eq_nil_of_le (by omega)] at h
    cases h
  rw [List.drop_eq_getElem_cons hi] at h
  obtain ⟨rfl, hs⟩ := List.cons.inj h
  exact ⟨hi, by rw [byteAt, List.getElem?_eq_getElem hi]; rfl, hs⟩

theorem length_le_of_drop {b : List UInt8} (h : b.drop i = []) : b.length ≤ i :=
  List.drop_eq_nil_iff.mp h

/-! ## IPv4 -/

/-- The quad is complete. -/
def endV4 (last : Nat) (st : V4State) : Parse IpAddress :=
  if st.digits = 0 then malformed "IPv4 address ends without a final octet" last
  else if st.octet ≠ 3 then malformed "IPv4 address needs exactly four octets" last
  else do
    let octets ← write st.octets 3 (UInt8.ofNat st.value)
    return { family := .v4, octets }

theorem parseV4_eq (b : List UInt8) (begin last : Nat) :
    parseV4 b begin last = parseV4Loop b last begin {} >>= endV4 last := rfl

def Malformed (x : Parse α) : Prop := ∃ reason position, x = malformed reason position

theorem Malformed.bind {x : Parse α} (h : Malformed x) (f : α → Parse β) : Malformed (x >>= f) := by
  obtain ⟨reason, position, rfl⟩ := h
  exact ⟨reason, position, rfl⟩

theorem malformed_intro (reason : String) (position : Int) :
    Malformed (malformed reason position : Parse α) := ⟨reason, position, rfl⟩

/-- The octets `done` are written, and the digits `cur` of the next one are read. -/
structure V4State.Holds (st : V4State) (done cur : List UInt8) : Prop where
  octet : st.octet = done.length
  filled : Filled st.octets done
  value : st.value = decValue cur
  digits : st.digits = cur.length
  chars : ∀ c ∈ cur, (decDigit c).isSome = true
  few : done.length ≤ 3
  short : cur.length ≤ 3
  small : decValue cur ≤ 255

/-- What comes of the rest `t` of a quad, of which `done` is written. -/
def V4Outcome (done t : List UInt8) (x : Parse IpAddress) : Prop :=
  (∃ os a, Dotted (4 - done.length) t os ∧ x = .ok a ∧ a.family = .v4 ∧
    a.octets.toList = done ++ os ++ List.replicate 12 0) ∨
  (∀ os, ¬Dotted (4 - done.length) t os) ∧ Malformed x

theorem endV4_outcome {st : V4State} (h : st.Holds done cur) :
    V4Outcome done cur (endV4 last st) := by
  have hdot := notMem_of_digits decDigit_dot h.chars
  unfold endV4
  rw [h.digits, h.octet]
  split
  · next hnil =>
    refine .inr ⟨fun os hd => ?_, malformed_intro _ _⟩
    obtain ⟨-, v, hv, -⟩ := (dotted_of_notMem hdot).mp hd
    exact hv.ne_nil (List.length_eq_zero_iff.mp hnil)
  · next hne =>
    split
    · next hfew =>
      refine .inr ⟨fun os hd => ?_, malformed_intro _ _⟩
      have hk := ((dotted_of_notMem hdot).mp hd).1
      have := h.few
      omega
    · next hthree =>
      have hlen : done.length = 3 := not_not.mp hthree
      have hv := decOctet_of_digits (fun hnil => hne (by rw [hnil]; rfl)) h.short h.chars h.small
      obtain ⟨octets, hwrite, hlist⟩ :=
        writeAll_ok st.octets 3 [UInt8.ofNat st.value] (by simp)
      rw [writeAll_singleton] at hwrite
      refine .inl ⟨[UInt8.ofNat (decValue cur)], { family := .v4, octets := octets }, ?_,
        ?_, rfl, ?_⟩
      · rw [hlen]
        exact .last hv
      · rw [hwrite]
        rfl
      · rw [hlist, h.filled.toList, h.value]
        rw [List.take_append_of_le_length (by omega), List.take_of_length_le (by omega),
          List.drop_append, List.drop_eq_nil_of_le (by rw [List.length_singleton]; omega),
          List.drop_replicate, hlen]
        rfl

theorem parseV4Loop_outcome {b : List UInt8} {st : V4State} (hs : b.drop i = s)
    (h : st.Holds done cur) :
    V4Outcome done (cur ++ s) (parseV4Loop b b.length i st >>= endV4 b.length) := by
  induction s generalizing i st done cur with
  | nil =>
    have hi := length_le_of_drop hs
    rw [parseV4Loop, if_neg (by omega), List.append_nil]
    exact endV4_outcome h
  | cons c s ih =>
    obtain ⟨hi, hread, hrest⟩ := read_of_drop hs
    rw [parseV4Loop, if_pos hi, hread]
    change V4Outcome done (cur ++ c :: s) (((st.read i c) >>= fun st =>
      parseV4Loop b b.length (i + 1) st) >>= endV4 b.length)
    unfold V4State.read
    cases hd : decDigit c with
    | some d =>
      have hchars : ∀ x ∈ cur ++ [c], (decDigit x).isSome = true := by
        intro x hx
        rcases List.mem_append.mp hx with hx | hx
        · exact h.chars x hx
        · rw [List.mem_singleton.mp hx, hd]
          rfl
      have hvalue : st.value * 10 + d = decValue (cur ++ [c]) := by
        rw [decValue_append, h.value, List.foldl_cons, List.foldl_nil, hd]
        rfl
      have happend : cur ++ c :: s = (cur ++ [c]) ++ s := by simp
      simp only [V4State.digit, hvalue]
      rw [h.digits]
      split
      · next hbad =>
        refine .inr ⟨fun os hd => ?_, (malformed_intro _ _).bind _ |>.bind _⟩
        rw [happend] at hd
        have hpre := hd.prefix_first hchars
        rw [List.length_append] at hpre
        exact hbad.elim (fun h => absurd hpre.1 (by simp; omega)) fun h => by omega
      · next hok =>
        rw [not_or] at hok
        rw [happend]
        refine ih hrest ⟨h.octet, h.filled, rfl, ?_, hchars, h.few, ?_, by omega⟩
        · rw [List.length_append]; rfl
        · rw [List.length_append, List.length_singleton]; omega
    | none =>
      by_cases hc : c = dot
      · subst hc
        simp only [if_true]
        have hdot := notMem_of_digits decDigit_dot h.chars
        unfold V4State.next
        rw [h.digits, h.octet]
        split
        · next hnil =>
          refine .inr ⟨fun os hd => ?_, (malformed_intro _ _).bind _ |>.bind _⟩
          obtain ⟨_, _, _, -, hv, -⟩ := (dotted_at_dot hdot).mp hd
          exact hv.ne_nil (List.length_eq_zero_iff.mp hnil)
        · next hne =>
          split
          · next hmany =>
            refine .inr ⟨fun os hd => ?_, (malformed_intro _ _).bind _ |>.bind _⟩
            obtain ⟨j, _, _, hj, -, hrest, -⟩ := (dotted_at_dot hdot).mp hd
            have := hrest.pos
            omega
          · next hfew =>
            have hv := decOctet_of_digits (fun hnil => hne (by rw [hnil]; rfl)) h.short h.chars
              h.small
            obtain ⟨octets, hwrite, hfilled⟩ := h.filled.writeAll [UInt8.ofNat st.value]
              (by rw [List.length_singleton]; omega)
            rw [writeAll_singleton] at hwrite
            rw [hwrite]
            have hholds : V4State.Holds { octet := done.length + 1, octets }
                (done ++ [UInt8.ofNat st.value]) [] :=
              ⟨by simp, hfilled, rfl, rfl, by simp, by simp; omega, by simp, by decide⟩
            have hnext := ih hrest hholds
            rw [List.nil_append] at hnext
            rcases hnext with ⟨os, a, hos, hok, hfam, hlist⟩ | ⟨hno, hbad⟩
            · refine .inl ⟨_, a, (dotted_at_dot hdot).mpr ⟨_, _, os, ?_, hv, hos, rfl⟩, hok,
                hfam, ?_⟩
              · rw [List.length_append, List.length_singleton]; omega
              · rw [hlist, h.value]; simp
            · refine .inr ⟨fun os hd => ?_, hbad⟩
              obtain ⟨j, v, os', hj, -, hrest', -⟩ := (dotted_at_dot hdot).mp hd
              refine hno os' ?_
              rw [List.length_append, List.length_singleton]
              convert hrest' using 1
              omega
      · simp only [if_neg hc]
        refine .inr ⟨fun os hdot => ?_, (malformed_intro _ _).bind _ |>.bind _⟩
        rcases hdot.chars c (by simp) with h' | h'
        · rw [hd] at h'; cases h'
        · exact hc h'

theorem parseV4_outcome {b : List UInt8} (begin : Nat) :
    V4Outcome [] (b.drop begin) (parseV4 b begin b.length) := by
  have hholds : V4State.Holds {} [] [] :=
    ⟨rfl, filled_nil, rfl, rfl, by simp, by simp, by simp, by decide⟩
  have hs : b.drop begin = b.drop begin := rfl
  have h := parseV4Loop_outcome hs hholds
  rw [List.nil_append] at h
  rw [parseV4_eq]
  exact h

end Cajeta.Net
