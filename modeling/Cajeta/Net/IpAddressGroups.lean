import Cajeta.Net.IpAddressGrammar

/-!
# Parsing groups

The loop of an IPv6 text, followed over the text that is left. It gathers the octets before and
after a `::` as the text gives them, or throws; where a quad comes after seven or eight groups it
writes outside its buffer.
-/

namespace Cajeta.Net

/-! ## What is left of an IPv6 text -/

/-- The rest `s` of a text gives the octets `os`, and `tl` after a `::` that it contains. After one
`::` there is no other. -/
inductive Reads : Bool → List UInt8 → List UInt8 → Option (List UInt8) → Bool → Prop where
  | plain : Side s os q → Reads saw s os none q
  | double : Groups h os false → Side l ls q →
      Reads false (h ++ colon :: colon :: l) os (some ls) q

theorem Side.of_cons (h : Side (c :: t) os q) : Groups (c :: t) os q := by
  rcases h with ⟨hnil, -⟩ | h
  · cases hnil
  · exact h

theorem side_of_ne_nil (hne : t ≠ []) : Side t os q ↔ Groups t os q :=
  ⟨fun h => h.resolve_left fun h' => hne h'.1, .inr⟩

theorem not_reads_colon : ¬Reads saw (colon :: s) os tl q := by
  intro h
  generalize ht : colon :: s = t at h
  cases h with
  | plain h =>
    subst ht
    exact h.of_cons.head_ne rfl
  | @double h _ _ _ _ hh _ =>
    cases h with
    | nil => exact hh.ne_nil rfl
    | cons c h =>
      obtain ⟨rfl, -⟩ := List.cons.inj ht
      exact hh.head_ne rfl

theorem reads_of_notMem (hne : t ≠ []) (hcolon : colon ∉ t) : Reads saw t os tl q ↔
    tl = none ∧ ((∃ v, HexGroup t v ∧ os = groupOctets v ∧ q = false) ∨ Quad t os ∧ q = true) := by
  constructor
  · intro h
    cases h with
    | plain h => exact ⟨rfl, (groups_of_notMem hcolon).mp ((side_of_ne_nil hne).mp h)⟩
    | double => exact absurd (List.mem_append_right _ List.mem_cons_self) hcolon
  · rintro ⟨rfl, h⟩
    exact .plain (.inr ((groups_of_notMem hcolon).mpr h))

theorem reads_at_colon (hcolon : colon ∉ t) (hc : c ≠ colon) :
    Reads saw (t ++ colon :: c :: rest) os tl q ↔
      ∃ v os', HexGroup t v ∧ Reads saw (c :: rest) os' tl q ∧ os = groupOctets v ++ os' := by
  constructor
  · intro h
    generalize hs : t ++ colon :: c :: rest = s at h
    cases h with
    | plain h =>
      have hne : s ≠ [] := by rw [← hs]; simp
      rw [side_of_ne_nil hne, ← hs, groups_at_colon hcolon] at h
      obtain ⟨v, os', hv, hrest, rfl⟩ := h
      exact ⟨v, os', hv, .plain (.inr hrest), rfl⟩
    | @double h os l ls q hh hl =>
      rcases exists_split colon h with hno | ⟨a, b, ha, rfl⟩
      · obtain ⟨-, htail⟩ := split_unique hcolon hno hs
        exact absurd (List.cons.inj htail).1 hc
      · rw [List.append_assoc, List.cons_append] at hs
        obtain ⟨rfl, htail⟩ := split_unique hcolon ha hs
        obtain ⟨v, os', hv, hrest, rfl⟩ := (groups_at_colon ha).mp hh
        exact ⟨v, os', hv, htail ▸ .double hrest hl, rfl⟩
  · rintro ⟨v, os', hv, hrest, rfl⟩
    generalize hs : c :: rest = s at hrest
    cases hrest with
    | plain h =>
      have hne : s ≠ [] := by rw [← hs]; simp
      exact .plain (.inr (.cons hv ((side_of_ne_nil hne).mp h)))
    | @double h _ l _ _ hh hl =>
      have := Reads.double (.cons hv hh) hl
      rwa [List.append_assoc, List.cons_append] at this

theorem reads_at_colons (hcolon : colon ∉ t) : Reads saw (t ++ colon :: colon :: l) os tl q ↔
    saw = false ∧ ∃ v ls, HexGroup t v ∧ os = groupOctets v ∧ tl = some ls ∧ Side l ls q := by
  constructor
  · intro h
    generalize hs : t ++ colon :: colon :: l = s at h
    cases h with
    | plain h =>
      have hne : s ≠ [] := by rw [← hs]; simp
      rw [side_of_ne_nil hne, ← hs, groups_at_colon hcolon] at h
      obtain ⟨_, _, -, hrest, -⟩ := h
      exact absurd rfl hrest.head_ne
    | @double h os l' ls q hh hl =>
      rcases exists_split colon h with hno | ⟨a, b, ha, rfl⟩
      · obtain ⟨rfl, htail⟩ := split_unique hcolon hno hs
        obtain rfl := (List.cons.inj htail).2
        obtain ⟨v, hv, rfl, -⟩ | ⟨-, hq⟩ := (groups_of_notMem hcolon).mp hh
        · exact ⟨rfl, v, ls, hv, rfl, rfl, hl⟩
        · cases hq
      · rw [List.append_assoc, List.cons_append] at hs
        obtain ⟨rfl, htail⟩ := split_unique hcolon ha hs
        obtain ⟨_, _, -, hb, -⟩ := (groups_at_colon ha).mp hh
        cases b with
        | nil => exact absurd rfl hb.ne_nil
        | cons c b => exact absurd (List.cons.inj htail).1.symm hb.head_ne
  · rintro ⟨rfl, v, ls, hv, rfl, rfl, hl⟩
    exact .double (.group hv) hl

theorem not_reads_last_colon (hcolon : colon ∉ t) : ¬Reads saw (t ++ [colon]) os tl q := by
  intro h
  generalize hs : t ++ [colon] = s at h
  cases h with
  | plain h =>
    have hne : s ≠ [] := by rw [← hs]; simp
    rw [side_of_ne_nil hne, ← hs, groups_at_colon hcolon] at h
    obtain ⟨_, _, -, hrest, -⟩ := h
    exact hrest.ne_nil rfl
  | @double h _ l _ _ hh _ =>
    rcases exists_split colon h with hno | ⟨a, b, ha, rfl⟩
    · obtain ⟨-, htail⟩ := split_unique hcolon hno hs
      cases htail
    · rw [List.append_assoc, List.cons_append] at hs
      obtain ⟨-, htail⟩ := split_unique hcolon ha hs
      cases b <;> cases htail

theorem Reads.first_group (h : Reads saw (a ++ colon :: b) os tl q) (ha : colon ∉ a) :
    ∃ v, HexGroup a v := by
  cases b with
  | nil => exact absurd h (not_reads_last_colon ha)
  | cons c b =>
    by_cases hc : c = colon
    · subst hc
      obtain ⟨-, v, -, hv, -⟩ := (reads_at_colons ha).mp h
      exact ⟨v, hv⟩
    · obtain ⟨v, -, hv, -⟩ := (reads_at_colon ha hc).mp h
      exact ⟨v, hv⟩

theorem reads_at_dot (hp : ∀ c ∈ p, (hexDigit c).isSome = true) :
    Reads saw (p ++ dot :: r) os tl q ↔ tl = none ∧ Quad (p ++ dot :: r) os ∧ q = true := by
  refine ⟨fun h => ?_, fun ⟨htl, hquad, hq⟩ => ?_⟩
  · have hpc := notMem_of_digits hexDigit_colon hp
    have hfirst : ∀ a, (∃ b, p ++ dot :: r = a ++ colon :: b) → dot ∈ a := by
      rintro a ⟨b, hab⟩
      rcases List.append_eq_append_iff.mp hab with ⟨x, hx, htail⟩ | ⟨x, hx, htail⟩
      · cases x with
        | nil => cases htail
        | cons y x =>
          obtain ⟨rfl, -⟩ := List.cons.inj htail
          exact hx ▸ List.mem_append_right _ List.mem_cons_self
      · cases x with
        | nil => cases htail
        | cons y x =>
          obtain ⟨rfl, -⟩ := List.cons.inj htail
          exact absurd (hx ▸ List.mem_append_right _ List.mem_cons_self) hpc
    rcases exists_split colon (p ++ dot :: r) with hno | ⟨a, b, ha, hab⟩
    · obtain ⟨rfl, ⟨v, hv, -⟩ | ⟨hquad, rfl⟩⟩ := (reads_of_notMem (by simp) hno).mp h
      · exact absurd (List.mem_append_right _ List.mem_cons_self) hv.dot_notMem
      · exact ⟨rfl, hquad, rfl⟩
    · have hdot := hfirst a ⟨b, hab⟩
      rw [hab] at h
      obtain ⟨v, hv⟩ := h.first_group ha
      exact absurd hdot hv.dot_notMem
  · subst htl hq
    exact .plain (.inr (.quad hquad))

/-! ## One group -/

theorem hexValue_append (s : List UInt8) (h : hexDigit c = some d) :
    hexValue (s ++ [c]) = (hexValue s <<< 4) ||| d := by
  have hlt := hexDigit_lt c
  rw [h, Option.getD_some] at hlt
  rw [← Nat.shiftLeft_add_eq_or_of_lt hlt, Nat.shiftLeft_eq, hexValue, List.foldl_append,
    List.foldl_cons, List.foldl_nil, h]
  rfl

/-- A text that starts with digits, up to its end or to a separator. -/
structure Scanned (t p r : List UInt8) : Prop where
  eq : t = p ++ r
  digits : ∀ c ∈ p, (hexDigit c).isSome = true
  short : p.length ≤ 4

theorem scanGroup_outcome {b : List UInt8} (groupStart : Nat) (hs : b.drop i = s)
    (hcur : ∀ c ∈ cur, (hexDigit c).isSome = true) (hshort : cur.length ≤ 4) :
    (∃ p r j, Scanned (cur ++ s) p r ∧ b.drop j = r ∧
      (r = [] ∨ (∃ r', r = colon :: r') ∨ ∃ r', r = dot :: r') ∧
      scanGroup b b.length groupStart i (hexValue cur) cur.length =
        .ok ⟨j, hexValue p, p.length, r.head? = some dot⟩) ∨
    (∀ p r, Scanned (cur ++ s) p r → r ≠ [] ∧ r.head? ≠ some colon ∧ r.head? ≠ some dot) ∧
      Malformed (scanGroup b b.length groupStart i (hexValue cur) cur.length) := by
  induction s generalizing i cur with
  | nil =>
    have hi := length_le_of_drop hs
    refine .inl ⟨cur, [], i, ⟨rfl, hcur, hshort⟩, hs, .inl rfl, ?_⟩
    rw [scanGroup, if_neg (by omega)]
    rfl
  | cons c s ih =>
    obtain ⟨hi, hread, hrest⟩ := read_of_drop hs
    rw [scanGroup, if_pos hi, hread, Except.ok_bind]
    by_cases hc : c = colon
    · subst hc
      exact .inl ⟨cur, colon :: s, i, ⟨rfl, hcur, hshort⟩, hs, .inr (.inl ⟨s, rfl⟩), rfl⟩
    by_cases hd : c = dot
    · subst hd
      exact .inl ⟨cur, dot :: s, i, ⟨rfl, hcur, hshort⟩, hs, .inr (.inr ⟨s, rfl⟩), rfl⟩
    rw [if_neg hc, if_neg hd]
    -- a text scanned beyond `cur` has `c` among its digits
    have hbeyond : ∀ p r, Scanned (cur ++ c :: s) p r →
        (r = [] ∨ r.head? = some colon ∨ r.head? = some dot) → cur ++ [c] <+: p := by
      intro p r hscan hr
      rcases List.append_eq_append_iff.mp hscan.eq with ⟨x, hx, htail⟩ | ⟨x, hx, htail⟩
      · cases x with
        | nil =>
          rw [List.nil_append] at htail
          rw [← htail] at hr
          rcases hr with hr | hr | hr
          · cases hr
          · exact absurd (Option.some.inj hr) hc
          · exact absurd (Option.some.inj hr) hd
        | cons y x =>
          obtain ⟨rfl, -⟩ := List.cons.inj htail
          exact ⟨x, by rw [hx, List.append_assoc]; rfl⟩
      · cases x with
        | nil =>
          rw [List.nil_append] at htail
          rw [htail] at hr
          rcases hr with hr | hr | hr
          · cases hr
          · exact absurd (Option.some.inj hr) hc
          · exact absurd (Option.some.inj hr) hd
        | cons y x =>
          rw [htail] at hr
          have hy : y ∈ cur := hx ▸ List.mem_append_right p List.mem_cons_self
          obtain ⟨z, hz⟩ := Option.isSome_iff_exists.mp (hcur y hy)
          rcases hr with hr | hr | hr
          · cases hr
          · obtain rfl := Option.some.inj hr
            rw [hexDigit_colon] at hz
            cases hz
          · obtain rfl := Option.some.inj hr
            rw [hexDigit_dot] at hz
            cases hz
    cases hh : hexDigit c with
    | none =>
      refine .inr ⟨fun p r hscan => ?_, malformed_intro _ _⟩
      rw [← not_or, ← not_or]
      intro hr
      obtain ⟨u, hu⟩ := hbeyond p r hscan hr
      have := hscan.digits c (by rw [← hu]; simp)
      rw [hh] at this
      cases this
    | some d =>
      dsimp only
      split
      · next hlong =>
        refine .inr ⟨fun p r hscan => ?_, malformed_intro _ _⟩
        rw [← not_or, ← not_or]
        intro hr
        have hlen := (hbeyond p r hscan hr).length_le
        have := hscan.short
        rw [List.length_append, List.length_singleton] at hlen
        omega
      · next hfits =>
        have hchars : ∀ x ∈ cur ++ [c], (hexDigit x).isSome = true := by
          intro x hx
          rcases List.mem_append.mp hx with hx | hx
          · exact hcur x hx
          · rw [List.mem_singleton.mp hx, hh]
            rfl
        have hnext := ih hrest hchars (by rw [List.length_append, List.length_singleton]; omega)
        rw [hexValue_append cur hh, List.length_append, List.length_singleton,
          List.append_assoc] at hnext
        exact hnext

/-- `hs` is gathered before the `::` and `ls` after it. -/
structure V6State.Holds (st : V6State) (hs ls : List UInt8) : Prop where
  head : Filled st.head hs
  tail : Filled st.tail ls
  headLen : st.headLen = hs.length
  tailLen : st.tailLen = ls.length
  inTail : st.inTail = st.sawDoubleColon
  first : st.sawDoubleColon = false → ls = []

theorem V6State.Holds.at (h : V6State.Holds st hs ls) (i : Nat) : { st with i := i }.Holds hs ls :=
  ⟨h.head, h.tail, h.headLen, h.tailLen, h.inTail, h.first⟩

/-- How much is gathered on the side that is being filled. -/
def gathered (saw : Bool) (hs ls : List UInt8) : Nat := if saw then ls.length else hs.length

/-- What is gathered when `os` is read, and `tl` after a `::`. -/
def collected (saw : Bool) (hs ls os : List UInt8) : Option (List UInt8) → List UInt8 × List UInt8
  | none => if saw then (hs, ls ++ os) else (hs ++ os, ls)
  | some ts => (hs ++ os, ts)

theorem V6State.Holds.put (h : V6State.Holds st hs ls)
    (hfit : gathered st.sawDoubleColon hs ls + vs.length ≤ 16) :
    ∃ st', st.put vs = .ok st' ∧ st'.Holds (collected st.sawDoubleColon hs ls vs none).1
      (collected st.sawDoubleColon hs ls vs none).2 ∧ st'.sawDoubleColon = st.sawDoubleColon := by
  have hin := h.inTail
  unfold V6State.put
  cases hsaw : st.sawDoubleColon with
  | true =>
    rw [hsaw] at hfit hin
    obtain ⟨tail, hwrite, hfilled⟩ := h.tail.writeAll vs hfit
    refine ⟨{ st with tail, tailLen := st.tailLen + vs.length }, ?_, ⟨h.head, hfilled, h.headLen,
      by simp [h.tailLen, collected], h.inTail, fun hf => ?_⟩, hsaw⟩
    · rw [if_pos hin, h.tailLen, hwrite, hsaw]
      rfl
    · exact absurd (hsaw.symm.trans hf) (by decide)
  | false =>
    rw [hsaw] at hfit hin
    obtain ⟨head, hwrite, hfilled⟩ := h.head.writeAll vs hfit
    refine ⟨{ st with head, headLen := st.headLen + vs.length }, ?_, ⟨hfilled, h.tail,
      by simp [h.headLen, collected], h.tailLen, h.inTail, h.first⟩, hsaw⟩
    rw [if_neg (by rw [hin]; decide), h.headLen, hwrite, hsaw]
    rfl

theorem V6State.Holds.put_overflow (h : V6State.Holds st hs ls)
    (hover : 16 < gathered st.sawDoubleColon hs ls + vs.length) :
    st.put vs = .error .outOfBounds := by
  have hin := h.inTail
  unfold V6State.put
  cases hsaw : st.sawDoubleColon with
  | true =>
    rw [hsaw] at hover hin
    have hover' : 16 < ls.length + vs.length := hover
    rw [if_pos hin, h.tailLen, writeAll_overflow hover' h.tail.length_le]
    rfl
  | false =>
    rw [hsaw] at hover hin
    have hover' : 16 < hs.length + vs.length := hover
    rw [if_neg (by rw [hin]; decide), h.headLen, writeAll_overflow hover' h.head.length_le]
    rfl

theorem V6State.Holds.gathered_le (h : V6State.Holds st hs ls) (saw : Bool) :
    gathered saw hs ls ≤ 16 := by
  cases saw
  · exact h.head.length_le
  · exact h.tail.length_le

/-! ## The loop -/

/-- The octets fit the buffers. -/
def Fits (n : Nat) (os : List UInt8) (tl : Option (List UInt8)) : Prop :=
  n + os.length ≤ 16 ∧ ∀ ts, tl = some ts → ts.length ≤ 16

/-- The groups before a quad fit the buffer it goes to, the quad does not. -/
def Spills (n : Nat) (os : List UInt8) (q : Bool) : Option (List UInt8) → Prop
  | none => q = true ∧ 16 < n + os.length ∧ n + os.length ≤ 20
  | some ts => q = true ∧ n + os.length ≤ 16 ∧ 16 < ts.length ∧ ts.length ≤ 20

/-- What comes of the rest `s` of a text. -/
def LoopOutcome (saw : Bool) (hs ls s : List UInt8) (x : Parse V6State) : Prop :=
  (∃ os tl q st, Reads saw s os tl q ∧ Fits (gathered saw hs ls) os tl ∧ x = .ok st ∧
    st.Holds (collected saw hs ls os tl).1 (collected saw hs ls os tl).2 ∧
    st.sawDoubleColon = (saw || tl.isSome)) ∨
  (∃ os tl q, Reads saw s os tl q ∧ Spills (gathered saw hs ls) os q tl ∧
    x = .error .outOfBounds) ∨
  Malformed x ∧ ∀ os tl q, Reads saw s os tl q →
    ¬Fits (gathered saw hs ls) os tl ∧ ¬Spills (gathered saw hs ls) os q tl

theorem colonAt_eq {b : List UInt8} (hs : b.drop i = s) :
    colonAt b b.length i = .ok (s.head? = some colon) := by
  unfold colonAt
  cases s with
  | nil => rw [if_neg (by have := length_le_of_drop hs; omega)]; rfl
  | cons c s =>
    obtain ⟨hi, hread, -⟩ := read_of_drop hs
    rw [if_pos hi, hread, Except.ok_bind]
    simp [pure, Except.pure]

theorem loop_done {b : List UInt8} {st : V6State} (h : b.length ≤ st.i) (fuel : Nat) :
    parseV6Loop b b.length fuel st = .ok st := by
  cases fuel <;> rw [parseV6Loop, if_neg (by omega)] <;> rfl

theorem groupOctets_eq (h : v < 65536) :
    [UInt8.ofNat ((v >>> 8) &&& 0xff), UInt8.ofNat (v &&& 0xff)] = groupOctets v := by
  have hhi : v >>> 8 &&& 255 = v / 256 := by
    rw [Nat.shiftRight_eq_div_pow, Nat.and_two_pow_sub_one_eq_mod _ 8]
    omega
  have hlo : v &&& 255 = v % 256 := Nat.and_two_pow_sub_one_eq_mod _ 8
  rw [groupOctets, hhi, hlo]

theorem collected_append (saw : Bool) (hs ls a b : List UInt8) (tl : Option (List UInt8))
    (htl : saw = true → tl = none) :
    collected saw (collected saw hs ls a none).1 (collected saw hs ls a none).2 b tl =
      collected saw hs ls (a ++ b) tl := by
  cases saw with
  | true =>
    rw [htl rfl]
    simp [collected]
  | false => cases tl <;> simp [collected]

theorem gathered_collected (saw : Bool) (hs ls os : List UInt8) :
    gathered saw (collected saw hs ls os none).1 (collected saw hs ls os none).2 =
      gathered saw hs ls + os.length := by
  cases saw <;> simp [collected, gathered]

theorem Reads.tail_none (h : Reads true s os tl q) : tl = none := by
  cases h
  rfl

theorem Reads.scanned (h : Reads saw s os tl q) (hne : s ≠ []) :
    ∃ p r, Scanned s p r ∧ (r = [] ∨ r.head? = some colon ∨ r.head? = some dot) := by
  rcases exists_split colon s with hno | ⟨a, b, ha, rfl⟩
  · obtain ⟨-, ⟨v, hv, -⟩ | ⟨hquad, -⟩⟩ := (reads_of_notMem hne hno).mp h
    · exact ⟨s, [], ⟨(List.append_nil s).symm, hv.digits, hv.short⟩, .inl rfl⟩
    · cases hquad with
      | @cons t v k rest os ht _ =>
        have hshort := ht.short
        exact ⟨t, dot :: rest, ⟨rfl, fun c hc => hexDigit_of_decDigit (ht.digits c hc), by omega⟩,
          .inr (.inr rfl)⟩
  · obtain ⟨v, hv⟩ := h.first_group ha
    exact ⟨a, colon :: b, ⟨rfl, hv.digits, hv.short⟩, .inr (.inl rfl)⟩

theorem quad_outcome {b : List UInt8} {st : V6State} (hs : b.drop st.i = p ++ dot :: r)
    (hp : ∀ c ∈ p, (hexDigit c).isSome = true) (h : st.Holds hd ts) (fuel : Nat) :
    LoopOutcome st.sawDoubleColon hd ts (p ++ dot :: r)
      (((parseV4 b st.i b.length) >>= fun v4 => st.put (v4.octets.toList.take 4) >>= fun st =>
        .ok { st with i := b.length }) >>= parseV6Loop b b.length fuel) := by
  have hquad := parseV4_outcome (b := b) st.i
  rw [hs] at hquad
  rcases hquad with ⟨os, a, hos, hok, -, hlist⟩ | ⟨hno, hbad⟩
  · have hlen : os.length = 4 := hos.length_eq
    have hfour : a.octets.toList.take 4 = os := by
      rw [hlist, List.nil_append, ← hlen]
      exact List.take_left
    rw [hok, Except.ok_bind, hfour]
    have hread : Reads st.sawDoubleColon (p ++ dot :: r) os none true :=
      (reads_at_dot hp).mpr ⟨rfl, hos, rfl⟩
    have hle := h.gathered_le st.sawDoubleColon
    by_cases hfit : gathered st.sawDoubleColon hd ts + os.length ≤ 16
    · obtain ⟨st', hput, hholds, hsaw⟩ := h.put hfit
      refine .inl ⟨os, none, true, { st' with i := b.length }, hread, ⟨hfit, by simp⟩, ?_,
        hholds.at _, ?_⟩
      · rw [hput]
        exact loop_done (Nat.le_refl _) fuel
      · rw [Option.isSome_none, Bool.or_false]
        exact hsaw
    · refine .inr (.inl ⟨os, none, true, hread, ⟨rfl, by omega, by omega⟩, ?_⟩)
      rw [h.put_overflow (by omega)]
      rfl
  · refine .inr (.inr ⟨(hbad.bind _).bind _, fun os tl q hread => ?_⟩)
    exact absurd ((reads_at_dot hp).mp hread).2.1 (hno os)

/-- What the loop makes of a text that is no longer than its fuel. -/
def LoopSpec (b : List UInt8) (fuel : Nat) : Prop :=
  ∀ (st : V6State) (s hd ts : List UInt8), b.drop st.i = s → st.Holds hd ts →
    (st.sawDoubleColon = false → s ≠ [] ∧ s.head? ≠ some colon) → s.length ≤ fuel →
    LoopOutcome st.sawDoubleColon hd ts s (parseV6Loop b b.length fuel st)

theorem groupOctets_length (v : Nat) : (groupOctets v).length = 2 := rfl

theorem Groups.quad_le (h : Groups t os true) : 4 ≤ os.length := by
  generalize hq : true = q at h
  induction h with
  | group => cases hq
  | quad h => exact Nat.le_of_eq h.length_eq.symm
  | cons _ _ ih =>
    have := ih hq
    rw [List.length_append]
    omega

theorem fits_append : Fits n (groupOctets v ++ os) tl ↔ Fits (n + 2) os tl := by
  unfold Fits
  rw [List.length_append, groupOctets_length, Nat.add_assoc]

theorem spills_append : Spills n (groupOctets v ++ os) q tl ↔ Spills (n + 2) os q tl := by
  cases tl <;> simp only [Spills, List.length_append, groupOctets_length, Nat.add_assoc]

theorem endGroup_outcome {b : List UInt8} {st : V6State} (hspec : LoopSpec b fuel)
    (hv : HexGroup p v) (hj : b.drop j = r) (hr : r = [] ∨ ∃ r', r = colon :: r')
    (hlen : (p ++ r).length ≤ fuel + 1)
    (h : st.Holds (collected st.sawDoubleColon hd ts (groupOctets v) none).1
      (collected st.sawDoubleColon hd ts (groupOctets v) none).2)
    (hts : st.sawDoubleColon = false → ts = [])
    (hfit : gathered st.sawDoubleColon hd ts + 2 ≤ 16) :
    LoopOutcome st.sawDoubleColon hd ts (p ++ r)
      (endGroup b b.length j st >>= parseV6Loop b b.length fuel) := by
  have hcolon := hv.colon_notMem
  have hpos : 0 < p.length := List.length_pos_iff.mpr hv.ne_nil
  rw [List.length_append] at hlen
  unfold endGroup
  rw [colonAt_eq hj, Except.ok_bind]
  rcases hr with rfl | ⟨r', rfl⟩
  · -- the text ends with the group
    rw [List.append_nil]
    refine .inl ⟨groupOctets v, none, false, { st with i := j }, ?_, ⟨hfit, by simp⟩, ?_,
      h.at j, ?_⟩
    · exact (reads_of_notMem hv.ne_nil hcolon).mpr ⟨rfl, .inl ⟨v, hv, rfl, rfl⟩⟩
    · exact loop_done (length_le_of_drop hj) fuel
    · rw [Option.isSome_none, Bool.or_false]
  · have hj' := (read_of_drop hj).2.2
    rw [List.head?_cons]
    simp only [decide_true, if_true]
    rw [colonAt_eq hj', Except.ok_bind]
    cases r' with
    | nil =>
      have hend := length_le_of_drop hj'
      simp only [List.head?_nil, reduceCtorEq, decide_false, Bool.false_eq_true, if_false]
      rw [if_pos hend]
      exact .inr (.inr ⟨(malformed_intro _ _).bind _, fun os tl q hread =>
        absurd hread (not_reads_last_colon hcolon)⟩)
    | cons c l =>
      obtain ⟨hlt, -, hl⟩ := read_of_drop hj'
      by_cases hc : c = colon
      · subst hc
        simp only [List.head?_cons, decide_true, if_true]
        unfold V6State.compress
        cases hsaw : st.sawDoubleColon with
        | true =>
          refine .inr (.inr ⟨(malformed_intro _ _).bind _, fun os tl q hread => ?_⟩)
          exact absurd ((reads_at_colons hcolon).mp hread).1 (by decide)
        | false =>
          have htsn := hts hsaw
          subst htsn
          rw [hsaw] at h hfit
          have hnext := hspec { st with sawDoubleColon := true, inTail := true, i := j + 2 } l
            (hd ++ groupOctets v) [] hl
            ⟨h.head, h.tail, h.headLen, h.tailLen, rfl, fun hf => by cases hf⟩
            (fun hf => by cases hf) (by simp at hlen; omega)
          rcases hnext with ⟨os, tl, q, st', hread, hfits, hok, hholds, hsaw'⟩ |
            ⟨os, tl, q, hread, hspill, hoob⟩ | ⟨hbad, hno⟩
          · obtain rfl := hread.tail_none
            cases hread with
            | plain hside =>
              refine .inl ⟨groupOctets v, some os, q, st',
                (reads_at_colons hcolon).mpr ⟨rfl, v, os, hv, rfl, rfl, hside⟩,
                ⟨hfit, fun ts hts' => ?_⟩, hok, hholds, hsaw'⟩
              cases hts'
              simpa [gathered] using hfits.1
          · obtain rfl := hread.tail_none
            cases hread with
            | plain hside =>
              refine .inr (.inl ⟨groupOctets v, some os, q,
                (reads_at_colons hcolon).mpr ⟨rfl, v, os, hv, rfl, rfl, hside⟩,
                ⟨hspill.1, hfit, ?_, ?_⟩, hoob⟩)
              · simpa [gathered] using hspill.2.1
              · simpa [gathered] using hspill.2.2
          · refine .inr (.inr ⟨hbad, fun os tl q hread => ?_⟩)
            obtain ⟨-, v', ls, hv', rfl, rfl, hside⟩ := (reads_at_colons hcolon).mp hread
            obtain ⟨hnofit, hnospill⟩ := hno ls none q (.plain hside)
            refine ⟨fun hf => hnofit ⟨by simpa [gathered] using hf.2 ls rfl, by simp⟩,
              fun hs => hnospill ⟨hs.1, ?_, ?_⟩⟩
            · simpa [gathered] using hs.2.2.1
            · simpa [gathered] using hs.2.2.2
      · have hhead : ¬(some c = some colon) := fun hh => hc (Option.some.inj hh)
        simp only [List.head?_cons, hhead, decide_false, Bool.false_eq_true, if_false]
        rw [if_neg (by omega)]
        have hnext := hspec { st with i := j + 1 } (c :: l) _ _ hj' (h.at (j + 1))
          (fun _ => ⟨List.cons_ne_nil _ _, hhead⟩) (by simp at hlen ⊢; omega)
        simp only [LoopOutcome, gathered_collected, groupOctets_length] at hnext
        rcases hnext with ⟨os, tl, q, st', hread, hfits, hok, hholds, hsaw'⟩ |
          ⟨os, tl, q, hread, hspill, hoob⟩ | ⟨hbad, hno⟩
        · have htl : st.sawDoubleColon = true → tl = none := fun hsaw => by
            rw [hsaw] at hread
            exact hread.tail_none
          rw [collected_append _ _ _ _ _ _ htl] at hholds
          exact .inl ⟨groupOctets v ++ os, tl, q, st',
            (reads_at_colon hcolon hc).mpr ⟨v, os, hv, hread, rfl⟩, fits_append.mpr hfits, hok,
            hholds, hsaw'⟩
        · exact .inr (.inl ⟨groupOctets v ++ os, tl, q,
            (reads_at_colon hcolon hc).mpr ⟨v, os, hv, hread, rfl⟩, spills_append.mpr hspill, hoob⟩)
        · refine .inr (.inr ⟨hbad, fun os tl q hread => ?_⟩)
          obtain ⟨v', os', hv', hrest, rfl⟩ := (reads_at_colon hcolon hc).mp hread
          rw [fits_append, spills_append]
          exact hno os' tl q hrest

theorem reads_group_first (h : Reads saw (p ++ r) os tl q) (hp : HexGroup p v)
    (hr : r = [] ∨ ∃ r', r = colon :: r') (hroom : 16 < n + 2) :
    ¬Fits n os tl ∧ ¬Spills n os q tl := by
  have hcolon := hp.colon_notMem
  have hlong : 2 ≤ os.length ∧ (tl = none → q = true → 6 ≤ os.length) := by
    rcases hr with rfl | ⟨r', rfl⟩
    · rw [List.append_nil] at h
      obtain ⟨-, ⟨v', -, rfl, hq⟩ | ⟨hquad, -⟩⟩ := (reads_of_notMem hp.ne_nil hcolon).mp h
      · exact ⟨Nat.le_refl 2, fun _ hq' => by rw [hq] at hq'; cases hq'⟩
      · cases hquad with
        | cons => exact absurd (List.mem_append_right _ List.mem_cons_self) hp.dot_notMem
    · cases r' with
      | nil => exact absurd h (not_reads_last_colon hcolon)
      | cons c l =>
        by_cases hc : c = colon
        · subst hc
          obtain ⟨-, v', ls, -, rfl, htl, -⟩ := (reads_at_colons hcolon).mp h
          exact ⟨Nat.le_refl 2, fun hn => by rw [hn] at htl; cases htl⟩
        · obtain ⟨v', os', -, hrest, rfl⟩ := (reads_at_colon hcolon hc).mp h
          rw [List.length_append, groupOctets_length]
          refine ⟨by omega, fun htl hq => ?_⟩
          subst htl hq
          generalize hs : c :: l = s at hrest
          cases hrest with
          | plain hside =>
            subst hs
            have := hside.of_cons.quad_le
            omega
  refine ⟨fun hf => ?_, fun hs => ?_⟩
  · have := hf.1
    omega
  · cases tl with
    | none =>
      have := hlong.2 rfl hs.1
      have := hs.2.2
      omega
    | some ts =>
      have := hs.2.1
      omega

theorem V6State.Holds.gathered_eq (h : V6State.Holds st hs ls) :
    (if st.inTail then st.tailLen else st.headLen) = gathered st.sawDoubleColon hs ls := by
  rw [h.inTail, h.headLen, h.tailLen, gathered]

theorem group_outcome {b : List UInt8} {st : V6State} {s : List UInt8} (hspec : LoopSpec b fuel)
    (hscan : Scanned s p r) (hj : b.drop j = r) (hr : r = [] ∨ ∃ r', r = colon :: r')
    (hs : b.drop st.i = p ++ r) (h : st.Holds hd ts)
    (hstart : st.sawDoubleColon = false → p ++ r ≠ [] ∧ (p ++ r).head? ≠ some colon)
    (hlen : (p ++ r).length ≤ fuel + 1) (hne : p ++ r ≠ []) :
    LoopOutcome st.sawDoubleColon hd ts (p ++ r)
      ((if p.length = 0 then colonAt b b.length j >>= fun here =>
          if here = true then st.compress j 1 else malformed "empty IPv6 group" st.i
        else st.putGroup st.i (hexValue p) >>= fun st => endGroup b b.length j st) >>=
        parseV6Loop b b.length fuel) := by
  cases p with
  | nil =>
    obtain ⟨r', rfl⟩ := hr.resolve_left hne
    have hsaw : st.sawDoubleColon = true := by
      by_contra hno
      exact (hstart (by simpa using hno)).2 rfl
    rw [List.length_nil, if_pos rfl, colonAt_eq hj, Except.ok_bind]
    simp only [List.head?_cons, decide_true, if_true, V6State.compress, hsaw]
    exact .inr (.inr ⟨(malformed_intro _ _).bind _, fun os tl q hread =>
      absurd hread not_reads_colon⟩)
  | cons c p =>
    have hv : HexGroup (c :: p) (hexValue (c :: p)) :=
      ⟨List.cons_ne_nil _ _, hscan.short, hscan.digits, rfl⟩
    rw [if_neg (by simp), V6State.putGroup, h.gathered_eq]
    split
    · next hroom =>
      exact .inr (.inr ⟨((malformed_intro _ _).bind _).bind _, fun os tl q hread =>
        reads_group_first hread hv hr hroom⟩)
    · next hroom =>
      rw [groupOctets_eq hv.lt]
      have hfit : gathered st.sawDoubleColon hd ts +
        (groupOctets (hexValue (c :: p))).length ≤ 16 := by
        rw [groupOctets_length]
        omega
      obtain ⟨st', hput, hholds, hsaw⟩ := h.put hfit
      rw [hput, Except.ok_bind]
      rw [← hsaw] at hholds ⊢
      exact endGroup_outcome hspec hv hj hr hlen hholds (fun hf => h.first (hsaw ▸ hf))
        (by rw [hsaw]; omega)

theorem outcome_nil {b : List UInt8} {st : V6State} (hs : b.drop st.i = []) (h : st.Holds hd ts)
    (fuel : Nat) : LoopOutcome st.sawDoubleColon hd ts [] (parseV6Loop b b.length fuel st) := by
  refine .inl ⟨[], none, false, st, .plain (.inl ⟨rfl, rfl, rfl⟩),
    ⟨h.gathered_le st.sawDoubleColon, by simp⟩, loop_done (length_le_of_drop hs) fuel, ?_, ?_⟩
  · cases hsaw : st.sawDoubleColon <;> simpa [collected] using h
  · rw [Option.isSome_none, Bool.or_false]

/-- **The loop**, over all that is left of a text. -/
theorem parseV6Loop_spec (b : List UInt8) (fuel : Nat) : LoopSpec b fuel := by
  induction fuel with
  | zero =>
    intro st s hd ts hs h _ hlen
    obtain rfl := List.length_eq_zero_iff.mp (Nat.le_zero.mp hlen)
    exact outcome_nil hs h 0
  | succ fuel ih =>
    intro st s hd ts hs h hstart hlen
    cases s with
    | nil => exact outcome_nil hs h (fuel + 1)
    | cons c s =>
      rw [parseV6Loop, if_pos (read_of_drop hs).1]
      unfold parseGroup
      rcases scanGroup_outcome st.i hs (fun x (hx : x ∈ []) => nomatch hx) (Nat.zero_le 4) with
        ⟨p, r, j, hscan, hj, hr, hok⟩ | ⟨hno, hbad⟩
      · rw [List.nil_append] at hscan
        rw [show scanGroup b b.length st.i st.i 0 0 = _ from hok, Except.ok_bind]
        have heq := hscan.eq
        have hne : p ++ r ≠ [] := heq ▸ List.cons_ne_nil c s
        rw [heq] at hs hlen hstart ⊢
        rcases hr with rfl | ⟨r', rfl⟩ | ⟨r', rfl⟩
        · exact group_outcome ih hscan hj (.inl rfl) hs h hstart hlen hne
        · exact group_outcome ih hscan hj (.inr ⟨r', rfl⟩) hs h hstart hlen hne
        · exact quad_outcome hs hscan.digits h fuel
      · refine .inr (.inr ⟨(Malformed.bind hbad _).bind _, fun os tl q hread => ?_⟩)
        obtain ⟨p, r, hscan, hr⟩ := hread.scanned (List.cons_ne_nil _ _)
        obtain ⟨h₁, h₂, h₃⟩ := hno p r hscan
        exact absurd hr (by simp [h₁, h₂, h₃])

end Cajeta.Net
