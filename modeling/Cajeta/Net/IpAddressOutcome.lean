import Cajeta.Net.IpAddressGroups

/-!
# What parsing an address returns

A text denotes at most one address. A parse returns the address its text denotes, or throws; where
a quad comes after seven or eight groups it writes outside its buffer.
-/

namespace Cajeta.Net

theorem DecOctet.unique (h : DecOctet t v) (h' : DecOctet t w) : v = w :=
  h.eq_ofNat.trans h'.eq_ofNat.symm

theorem Dotted.unique (h : Dotted k t os) (h' : Dotted k t os') : os = os' := by
  induction h generalizing os' with
  | last h =>
    obtain ⟨-, w, hw, rfl⟩ := (dotted_of_notMem h.dot_notMem).mp h'
    rw [h.unique hw]
  | cons h _ ih =>
    obtain ⟨j, w, os₂, hj, hw, hrest, rfl⟩ := (dotted_at_dot h.dot_notMem).mp h'
    obtain rfl := Nat.succ.inj hj
    rw [h.unique hw, ih hrest]

theorem Dotted.dot_mem (h : Dotted k t os) (hk : k ≠ 1) : dot ∈ t := by
  cases h with
  | last => exact absurd rfl hk
  | cons => exact List.mem_append_right _ List.mem_cons_self

theorem HexGroup.unique (h : HexGroup t v) (h' : HexGroup t w) : v = w :=
  h.value.symm.trans h'.value

theorem reads_nil (h : Reads saw s os tl q) (hs : s = []) : os = [] ∧ tl = none ∧ q = false := by
  cases h with
  | plain h =>
    rcases h with ⟨-, rfl, rfl⟩ | h
    · exact ⟨rfl, rfl, rfl⟩
    · exact absurd hs h.ne_nil
  | double => exact absurd hs (by simp)

theorem Reads.unique (h : Reads saw s os tl q) (h' : Reads saw s os' tl' q') :
    os = os' ∧ tl = tl' ∧ q = q' := by
  induction hn : s.length using Nat.strongRecOn generalizing saw s os tl q os' tl' q' with
  | ind n ih =>
    by_cases hne : s = []
    · obtain ⟨rfl, rfl, rfl⟩ := reads_nil h hne
      obtain ⟨rfl, rfl, rfl⟩ := reads_nil h' hne
      exact ⟨rfl, rfl, rfl⟩
    rcases exists_split colon s with hno | ⟨a, b, ha, rfl⟩
    · obtain ⟨rfl, hor⟩ := (reads_of_notMem hne hno).mp h
      obtain ⟨rfl, hor'⟩ := (reads_of_notMem hne hno).mp h'
      rcases hor with ⟨v, hv, rfl, rfl⟩ | ⟨hq, rfl⟩
      · rcases hor' with ⟨w, hw, rfl, rfl⟩ | ⟨hq', -⟩
        · exact ⟨by rw [hv.unique hw], rfl, rfl⟩
        · exact absurd (hq'.dot_mem (by decide)) hv.dot_notMem
      · rcases hor' with ⟨w, hw, -⟩ | ⟨hq', rfl⟩
        · exact absurd (hq.dot_mem (by decide)) hw.dot_notMem
        · exact ⟨hq.unique hq', rfl, rfl⟩
    · rw [List.length_append, List.length_cons] at hn
      cases b with
      | nil => exact absurd h (not_reads_last_colon ha)
      | cons c l =>
        rw [List.length_cons] at hn
        by_cases hc : c = colon
        · subst hc
          obtain ⟨rfl, v, ls, hv, rfl, rfl, hl⟩ := (reads_at_colons ha).mp h
          obtain ⟨-, w, ls', hw, rfl, rfl, hl'⟩ := (reads_at_colons ha).mp h'
          have hread : Reads true l ls none q := .plain hl
          have hread' : Reads true l ls' none q' := .plain hl'
          obtain ⟨rfl, -, rfl⟩ := ih l.length (by omega) hread hread' rfl
          exact ⟨by rw [hv.unique hw], rfl, rfl⟩
        · obtain ⟨v, os₁, hv, hrest, rfl⟩ := (reads_at_colon ha hc).mp h
          obtain ⟨w, os₂, hw, hrest', rfl⟩ := (reads_at_colon ha hc).mp h'
          obtain ⟨rfl, rfl, rfl⟩ :=
            ih (c :: l).length (by rw [List.length_cons]; omega) hrest hrest' rfl
          exact ⟨by rw [hv.unique hw], rfl, rfl⟩

/-! ## A whole IPv6 text -/

theorem ipv6Text_iff (hstart : t.head? ≠ some colon) (hne : t ≠ []) : IPv6Text t os ↔
    (∃ q, Reads false t os none q ∧ os.length = 16) ∨
    ∃ hs ls q, Reads false t hs (some ls) q ∧ hs.length + ls.length < 16 ∧
      os = hs ++ List.replicate (16 - (hs.length + ls.length)) 0 ++ ls := by
  constructor
  · intro h
    cases h with
    | full h hlen => exact .inl ⟨_, .plain (.inr h), hlen⟩
    | compressed hh hl hlen =>
      rcases hh with ⟨rfl, rfl, -⟩ | hh
      · exact absurd rfl hstart
      · exact .inr ⟨_, _, _, .double hh hl, hlen, rfl⟩
  · rintro (⟨q, h, hlen⟩ | ⟨hs, ls, q, h, hlen, rfl⟩)
    · cases h with
      | plain h => exact .full ((side_of_ne_nil hne).mp h) hlen
    · cases h with
      | double hh hl => exact .compressed (.inr hh) hl hlen

theorem not_groups_colon : ¬Groups (colon :: t) os q := fun h => h.head_ne rfl

theorem side_before_colon (h : Side h₁ hs q) (heq : h₁ ++ colon :: s = colon :: t) :
    h₁ = [] ∧ hs = [] := by
  rcases h with ⟨rfl, rfl, -⟩ | h
  · exact ⟨rfl, rfl⟩
  · cases h₁ with
    | nil => exact absurd rfl h.ne_nil
    | cons c h₁ =>
      obtain ⟨rfl, -⟩ := List.cons.inj heq
      exact absurd h not_groups_colon

theorem ipv6Text_colons : IPv6Text (colon :: colon :: l) os ↔
    ∃ ls q, Reads true l ls none q ∧ ls.length < 16 ∧
      os = List.replicate (16 - ls.length) 0 ++ ls := by
  constructor
  · intro h
    generalize ht : colon :: colon :: l = t at h
    cases h with
    | full h => exact absurd (ht ▸ h) not_groups_colon
    | @compressed h hs l' ls q hh hl hlen =>
      obtain ⟨rfl, rfl⟩ := side_before_colon hh ht.symm
      obtain rfl : l = l' := (List.cons.inj (List.cons.inj ht).2).2
      rw [List.length_nil, Nat.zero_add] at hlen
      exact ⟨ls, q, .plain hl, hlen, by simp⟩
  · rintro ⟨ls, q, h, hlen, rfl⟩
    cases h with
    | plain hl =>
      have := IPv6Text.compressed (.inl ⟨rfl, rfl, rfl⟩) hl (by rw [List.length_nil]; omega)
      simpa using this

theorem not_ipv6Text_colon (h : s.head? ≠ some colon) : ¬IPv6Text (colon :: s) os := by
  intro ht
  generalize hc : colon :: s = t at ht
  cases ht with
  | full ht => exact absurd (hc ▸ ht) not_groups_colon
  | compressed hh =>
    obtain ⟨rfl, -⟩ := side_before_colon hh hc.symm
    rw [List.nil_append] at hc
    exact h (by rw [(List.cons.inj hc).2]; rfl)

theorem IPv6Text.unique (h : IPv6Text t os) (h' : IPv6Text t os') : os = os' := by
  by_cases hne : t = []
  · subst hne
    generalize ht : ([] : List UInt8) = t at h
    cases h with
    | full h => exact absurd ht.symm h.ne_nil
    | compressed => exact absurd ht.symm (by simp)
  by_cases hstart : t.head? = some colon
  · obtain ⟨s, rfl⟩ : ∃ s, t = colon :: s := by
      cases t with
      | nil => cases hstart
      | cons c s => exact ⟨s, by rw [Option.some.inj hstart]⟩
    by_cases hs : s.head? = some colon
    · obtain ⟨l, rfl⟩ : ∃ l, s = colon :: l := by
        cases s with
        | nil => cases hs
        | cons d l => exact ⟨l, by rw [Option.some.inj hs]⟩
      obtain ⟨ls, q, hread, -, rfl⟩ := ipv6Text_colons.mp h
      obtain ⟨ls', q', hread', -, rfl⟩ := ipv6Text_colons.mp h'
      obtain ⟨rfl, -⟩ := hread.unique hread'
      rfl
    · exact absurd h (not_ipv6Text_colon hs)
  · rcases (ipv6Text_iff hstart hne).mp h with ⟨q, hread, -⟩ | ⟨hs, ls, q, hread, -, rfl⟩ <;>
      rcases (ipv6Text_iff hstart hne).mp h' with ⟨q', hread', -⟩ | ⟨hs', ls', q', hread',
        -, rfl⟩ <;>
      obtain ⟨rfl, htl, -⟩ := hread.unique hread' <;> cases htl <;> rfl

theorem overfull_iff (hstart : t.head? ≠ some colon) :
    Overfull t ↔ ∃ os tl q, Reads false t os tl q ∧ Spills 0 os q tl := by
  constructor
  · rintro ⟨l, ls, hl, hmin, hmax, rfl | ⟨h, hs, hh, hlen, rfl⟩⟩
    · exact ⟨ls, none, true, .plain (.inr hl), rfl, by omega, by omega⟩
    · rcases hh with ⟨rfl, rfl, -⟩ | hh
      · exact absurd rfl hstart
      · exact ⟨hs, some ls, true, .double hh (.inr hl), rfl, by omega, hmin, hmax⟩
  · rintro ⟨os, tl, q, h, hspill⟩
    cases h with
    | plain h =>
      obtain ⟨rfl, hmin, hmax⟩ := hspill
      rcases h with ⟨-, -, hq⟩ | h
      · cases hq
      · exact ⟨_, _, h, by omega, by omega, .inl rfl⟩
    | double hh hl =>
      obtain ⟨rfl, hlen, hmin, hmax⟩ := hspill
      rcases hl with ⟨-, -, hq⟩ | hl
      · cases hq
      · exact ⟨_, _, hl, hmin, hmax, .inr ⟨_, _, .inr hh, by omega, rfl⟩⟩

theorem overfull_colons : Overfull (colon :: colon :: l) ↔
    ∃ os q, Reads true l os none q ∧ Spills 0 os q none := by
  constructor
  · rintro ⟨l', ls, hl, hmin, hmax, heq | ⟨h, hs, hh, -, heq⟩⟩
    · exact absurd (heq ▸ hl) not_groups_colon
    · obtain ⟨rfl, rfl⟩ := side_before_colon hh heq.symm
      obtain rfl : l = l' := (List.cons.inj (List.cons.inj heq).2).2
      exact ⟨ls, true, .plain (.inr hl), rfl, by omega, by omega⟩
  · rintro ⟨os, q, h, rfl, hmin, hmax⟩
    cases h with
    | plain h =>
      rcases h with ⟨-, -, hq⟩ | h
      · cases hq
      · exact ⟨l, os, h, by omega, by omega, .inr ⟨[], [], .inl ⟨rfl, rfl, rfl⟩, by simp, rfl⟩⟩

theorem not_overfull_colon (h : s.head? ≠ some colon) : ¬Overfull (colon :: s) := by
  rintro ⟨l, ls, hl, -, -, heq | ⟨h₁, hs, hh, -, heq⟩⟩
  · exact not_groups_colon (heq ▸ hl)
  · obtain ⟨rfl, -⟩ := side_before_colon hh heq.symm
    rw [List.nil_append] at heq
    exact h (by rw [(List.cons.inj heq).2]; rfl)

/-! ## Parsing IPv6 -/

theorem assemble_ok {st : V6State} (h : st.Holds hs ls) (hlen : hs.length + ls.length ≤ 16)
    (hsaw : st.sawDoubleColon = true → hs.length + ls.length < 16)
    (hall : st.sawDoubleColon = false → hs.length + ls.length = 16) (begin last : Nat) :
    ∃ a, assemble st begin last = .ok a ∧ a.family = .v6 ∧
      a.octets.toList = hs ++ List.replicate (16 - (hs.length + ls.length)) 0 ++ ls := by
  unfold assemble
  dsimp only
  rw [h.headLen, h.tailLen, if_neg (by rintro ⟨hs, hge⟩; have := hsaw hs; omega),
    if_neg (by rintro ⟨hs, hne⟩; exact hne (hall (by simpa using hs))), h.head.take, h.tail.take]
  obtain ⟨o, hwrite, hfilled⟩ := filled_nil.writeAll hs (by simpa using h.head.length_le)
  obtain ⟨o', hwrite', hlist⟩ := writeAll_ok o (16 - ls.length) ls (by omega)
  rw [List.length_nil] at hwrite
  rw [hwrite, Except.ok_bind, hwrite', Except.ok_bind]
  refine ⟨_, rfl, rfl, ?_⟩
  rw [hlist, hfilled.toList, List.nil_append, List.drop_eq_nil_of_le (by simp; omega),
    List.append_nil, List.take_append, List.take_of_length_le (by omega), List.take_replicate]
  congr 3
  omega

theorem assemble_malformed {st : V6State} (h : st.Holds hs ls)
    (hbad : ¬((st.sawDoubleColon = true → hs.length + ls.length < 16) ∧
      (st.sawDoubleColon = false → hs.length + ls.length = 16))) (begin last : Nat) :
    Malformed (assemble st begin last) := by
  unfold assemble
  dsimp only
  rw [h.headLen, h.tailLen]
  split
  · exact malformed_intro _ _
  · next h₁ =>
    split
    · exact malformed_intro _ _
    · next h₂ =>
      refine absurd ⟨fun hs => ?_, fun hs => ?_⟩ hbad
      · by_contra hge
        exact h₁ ⟨hs, by omega⟩
      · by_contra hne
        exact h₂ ⟨by rw [hs]; decide, hne⟩

/-- What comes of an IPv6 text. -/
def V6Outcome (t : List UInt8) (x : Parse IpAddress) : Prop :=
  (∃ os a, IPv6Text t os ∧ ¬Overfull t ∧ x = .ok a ∧ a.family = .v6 ∧ a.octets.toList = os) ∨
  (Overfull t ∧ x = .error .outOfBounds) ∨
  Malformed x ∧ (∀ os, ¬IPv6Text t os) ∧ ¬Overfull t

theorem Fits.not_spills (h : Fits n os tl) : ¬Spills n os q tl := fun hs => by
  cases tl with
  | none =>
    have := hs.2.1
    have := h.1
    omega
  | some ts =>
    have := hs.2.2.1
    have := h.2 ts rfl
    omega

theorem v6Outcome_start {x : Parse V6State} (hstart : t.head? ≠ some colon) (hne : t ≠ [])
    (h : LoopOutcome false [] [] t x) (begin last : Nat) :
    V6Outcome t (x >>= fun st => assemble st begin last) := by
  have hgathered : gathered false [] [] = 0 := rfl
  rw [LoopOutcome, hgathered] at h
  rcases h with ⟨os, tl, q, st, hread, hfits, rfl, hholds, hsaw⟩ | ⟨os, tl, q, hread, hspill, rfl⟩ |
    ⟨hbad, hno⟩
  · have hover : ¬Overfull t := by
      rw [overfull_iff hstart]
      rintro ⟨os', tl', q', hread', hspill⟩
      obtain ⟨rfl, rfl, rfl⟩ := hread.unique hread'
      exact hfits.not_spills hspill
    rw [Except.ok_bind]
    rw [Bool.false_or] at hsaw
    by_cases hgood : (st.sawDoubleColon = true →
        (collected false [] [] os tl).1.length + (collected false [] [] os tl).2.length < 16) ∧
      (st.sawDoubleColon = false →
        (collected false [] [] os tl).1.length + (collected false [] [] os tl).2.length = 16)
    · have hlen : (collected false [] [] os tl).1.length +
          (collected false [] [] os tl).2.length ≤ 16 := by
        cases hb : st.sawDoubleColon with
        | true => exact Nat.le_of_lt (hgood.1 hb)
        | false => exact Nat.le_of_eq (hgood.2 hb)
      obtain ⟨a, hok, hfam, hlist⟩ := assemble_ok hholds hlen hgood.1 hgood.2 begin last
      refine .inl ⟨_, a, ?_, hover, hok, hfam, rfl⟩
      rw [ipv6Text_iff hstart hne, hlist]
      cases tl with
      | none =>
        have hall := hgood.2 (by rw [hsaw]; rfl)
        simp only [collected, Bool.false_eq_true, if_false, List.nil_append, List.length_nil,
          Nat.add_zero] at hall ⊢
        exact .inl ⟨q, by simpa [hall] using hread, by simp [hall]⟩
      | some ts =>
        have hlt := hgood.1 (by rw [hsaw]; rfl)
        exact .inr ⟨os, ts, q, hread, hlt, rfl⟩
    · refine .inr (.inr ⟨assemble_malformed hholds hgood begin last,
        fun os' htext => hgood ?_, hover⟩)
      rcases (ipv6Text_iff hstart hne).mp htext with ⟨q', hread', hlen⟩ |
        ⟨hs, ls, q', hread', hlen, -⟩
      · obtain ⟨rfl, rfl, -⟩ := hread.unique hread'
        refine ⟨fun hb => ?_, fun _ => by simpa [collected] using hlen⟩
        rw [hsaw] at hb
        cases hb
      · obtain ⟨rfl, rfl, -⟩ := hread.unique hread'
        refine ⟨fun _ => by simpa [collected] using hlen, fun hb => ?_⟩
        rw [hsaw] at hb
        cases hb
  · exact .inr (.inl ⟨(overfull_iff hstart).mpr ⟨os, tl, q, hread, hspill⟩, rfl⟩)
  · refine .inr (.inr ⟨hbad.bind _, fun os htext => ?_, fun hover => ?_⟩)
    · rcases (ipv6Text_iff hstart hne).mp htext with ⟨q, hread, hlen⟩ | ⟨hs, ls, q, hread, hlen, -⟩
      · exact (hno _ _ _ hread).1 ⟨by omega, by simp⟩
      · exact (hno _ _ _ hread).1 ⟨by omega, fun ts hts => by cases hts; omega⟩
    · obtain ⟨os, tl, q, hread, hspill⟩ := (overfull_iff hstart).mp hover
      exact (hno _ _ _ hread).2 hspill

theorem v6Outcome_colons {x : Parse V6State} (h : LoopOutcome true [] [] l x) (begin last : Nat) :
    V6Outcome (colon :: colon :: l) (x >>= fun st => assemble st begin last) := by
  have hgathered : gathered true [] [] = 0 := rfl
  rw [LoopOutcome, hgathered] at h
  rcases h with ⟨os, tl, q, st, hread, hfits, rfl, hholds, hsaw⟩ | ⟨os, tl, q, hread, hspill, rfl⟩ |
    ⟨hbad, hno⟩
  · obtain rfl := hread.tail_none
    have hover : ¬Overfull (colon :: colon :: l) := by
      rw [overfull_colons]
      rintro ⟨os', q', hread', hspill⟩
      obtain ⟨rfl, -, rfl⟩ := hread.unique hread'
      exact hfits.not_spills hspill
    rw [Except.ok_bind]
    by_cases hlt : os.length < 16
    · obtain ⟨a, hok, hfam, hlist⟩ := assemble_ok hholds (by simp [collected]; omega)
        (fun _ => by simpa [collected] using hlt)
          (fun hb => by rw [hsaw] at hb; cases hb) begin last
      refine .inl ⟨_, a, ipv6Text_colons.mpr ⟨os, q, hread, hlt, ?_⟩, hover, hok, hfam, rfl⟩
      rw [hlist]
      simp [collected]
    · refine .inr (.inr ⟨assemble_malformed hholds (fun hgood => ?_) begin last,
        fun os' htext => ?_,
        hover⟩)
      · exact hlt (by simpa [collected] using hgood.1 (by rw [hsaw]; rfl))
      · obtain ⟨ls, q', hread', hlen, -⟩ := ipv6Text_colons.mp htext
        obtain ⟨rfl, -, -⟩ := hread.unique hread'
        exact hlt hlen
  · obtain rfl := hread.tail_none
    exact .inr (.inl ⟨overfull_colons.mpr ⟨os, q, hread, hspill⟩, rfl⟩)
  · refine .inr (.inr ⟨hbad.bind _, fun os htext => ?_, fun hover => ?_⟩)
    · obtain ⟨ls, q, hread, hlen, -⟩ := ipv6Text_colons.mp htext
      exact (hno _ _ _ hread).1 ⟨by omega, by simp⟩
    · obtain ⟨os, q, hread, hspill⟩ := overfull_colons.mp hover
      exact (hno _ _ _ hread).2 hspill

theorem holds_nil (i : Nat) (saw : Bool) :
    V6State.Holds { i := i, sawDoubleColon := saw, inTail := saw } [] [] :=
  ⟨filled_nil, filled_nil, rfl, rfl, rfl, fun _ => rfl⟩

theorem parseV6_outcome {t : List UInt8} (hne : t ≠ []) : V6Outcome t (parseV6 t 0 t.length) := by
  unfold parseV6 leadingColons
  have h0 : t.drop 0 = t := rfl
  rw [colonAt_eq h0]
  cases t with
  | nil => exact absurd rfl hne
  | cons c s =>
    have h1 : (c :: s).drop (0 + 1) = s := rfl
    rw [colonAt_eq h1]
    by_cases hc : c = colon
    · subst hc
      by_cases hs : s.head? = some colon
      · obtain ⟨l, rfl⟩ : ∃ l, s = colon :: l := by
          cases s with
          | nil => cases hs
          | cons d l => exact ⟨l, by rw [Option.some.inj hs]⟩
        have hspec := parseV6Loop_spec (colon :: colon :: l) ((colon :: colon :: l).length - 0)
          { i := 2, sawDoubleColon := true, inTail := true } l [] [] rfl (holds_nil 2 true)
          (fun hf => by cases hf) (by simp; omega)
        exact v6Outcome_colons hspec 0 _
      · simp only [List.head?_cons, decide_true, Except.ok_bind, if_true, hs, decide_false,
          Bool.false_eq_true, if_false]
        exact .inr (.inr ⟨(malformed_intro _ _).bind _, fun os => not_ipv6Text_colon hs,
          not_overfull_colon hs⟩)
    · have hhead : (c :: s).head? ≠ some colon := fun h => hc (Option.some.inj h)
      have hspec := parseV6Loop_spec (c :: s) ((c :: s).length - 0) { i := 0 } (c :: s) [] [] rfl
        (holds_nil 0 false) (fun _ => ⟨hne, hhead⟩) (Nat.le_refl _)
      simp only [hhead, decide_false, Except.ok_bind, Bool.false_eq_true, if_false]
      exact v6Outcome_start hhead hne hspec 0 _

/-! ## Parsing -/

theorem detect_eq {b : List UInt8} (hs : b.drop i = s) (firstColon firstDot : Option Nat) :
    ∃ x y, detect b b.length i firstColon firstDot = .ok (x, y) ∧
      (x.isSome = true ↔ firstColon.isSome = true ∨ colon ∈ s) ∧
      (y.isSome = true ↔ firstDot.isSome = true ∨ dot ∈ s) := by
  induction s generalizing i firstColon firstDot with
  | nil =>
    have hi := length_le_of_drop hs
    refine ⟨firstColon, firstDot, ?_, by simp, by simp⟩
    rw [detect, if_neg (by omega)]
    rfl
  | cons c s ih =>
    obtain ⟨hi, hread, hrest⟩ := read_of_drop hs
    rw [detect, if_pos hi, hread, Except.ok_bind]
    obtain ⟨x, y, hxy, hx, hy⟩ := ih hrest (if c = colon ∧
      firstColon.isNone then some i else firstColon)
      (if c = dot ∧ firstDot.isNone then some i else firstDot)
    refine ⟨x, y, hxy, hx.trans ?_, hy.trans ?_⟩
    · cases firstColon <;> by_cases hc : c = colon <;> simp [hc, eq_comm]
    · cases firstDot <;> by_cases hc : c = dot <;> simp [hc, eq_comm]

theorem IPv6Text.colon_mem (h : IPv6Text t os) : colon ∈ t := by
  cases h with
  | full h hlen =>
    by_contra hno
    rcases (groups_of_notMem hno).mp h with ⟨v, -, rfl, -⟩ | ⟨hq, -⟩
    · rw [groupOctets_length] at hlen
      cases hlen
    · rw [hq.length_eq] at hlen
      cases hlen
  | compressed => exact List.mem_append_right _ List.mem_cons_self

theorem Overfull.colon_mem (h : Overfull t) : colon ∈ t := by
  obtain ⟨l, ls, hl, hmin, -, rfl | ⟨h, hs, -, -, rfl⟩⟩ := h
  · by_contra hno
    rcases (groups_of_notMem hno).mp hl with ⟨v, -, -, hq⟩ | ⟨hq, -⟩
    · cases hq
    · rw [hq.length_eq] at hmin
      omega
  · exact List.mem_append_right _ List.mem_cons_self

theorem IPv6Text.not_overfull (h : IPv6Text t os) : ¬Overfull t := by
  have hne : t ≠ [] := List.ne_nil_of_mem h.colon_mem
  by_cases hstart : t.head? = some colon
  · obtain ⟨s, rfl⟩ : ∃ s, t = colon :: s := by
      cases t with
      | nil => cases hstart
      | cons c s => exact ⟨s, by rw [Option.some.inj hstart]⟩
    by_cases hs : s.head? = some colon
    · obtain ⟨l, rfl⟩ : ∃ l, s = colon :: l := by
        cases s with
        | nil => cases hs
        | cons d l => exact ⟨l, by rw [Option.some.inj hs]⟩
      obtain ⟨ls, q, hread, hlen, -⟩ := ipv6Text_colons.mp h
      rw [overfull_colons]
      rintro ⟨os', q', hread', -, hmin, -⟩
      obtain ⟨rfl, -⟩ := hread.unique hread'
      omega
    · exact not_overfull_colon hs
  · rw [overfull_iff hstart]
    rintro ⟨os', tl, q', hread', hspill⟩
    rcases (ipv6Text_iff hstart hne).mp h with ⟨q, hread, hlen⟩ | ⟨hs, ls, q, hread, hlen, -⟩
    · obtain ⟨rfl, rfl, -⟩ := hread.unique hread'
      have := hspill.2.1
      omega
    · obtain ⟨rfl, rfl, -⟩ := hread.unique hread'
      have := hspill.2.2.1
      omega

theorem Denotes.not_overfull (h : Denotes t a) : ¬Overfull t := by
  cases h with
  | v4 hq => exact fun hover => hq.colon_notMem hover.colon_mem
  | v6 htext => exact htext.not_overfull

/-- Every text denotes an address, is too full, or is refused. -/
def ParseOutcome (t : List UInt8) (x : Parse IpAddress) : Prop :=
  (∃ a, Denotes t a ∧ ¬Overfull t ∧ x = .ok a) ∨
  (Overfull t ∧ x = .error .outOfBounds) ∨
  Malformed x ∧ (∀ a, ¬Denotes t a) ∧ ¬Overfull t

theorem V6Outcome.parse (h : V6Outcome t x) (hcolon : colon ∈ t) : ParseOutcome t x := by
  rcases h with ⟨os, a, htext, hover, rfl, hfam, hlist⟩ | hover | ⟨hbad, hno, hover⟩
  · exact .inl ⟨a, .v6 htext hfam hlist, hover, rfl⟩
  · exact .inr (.inl hover)
  · refine .inr (.inr ⟨hbad, fun a ha => ?_, hover⟩)
    cases ha with
    | v4 hq => exact hq.colon_notMem hcolon
    | v6 htext => exact hno _ htext

theorem parse_outcome (t : List UInt8) : ParseOutcome t (IpAddress.parse (some t)) := by
  unfold IpAddress.parse
  dsimp only
  by_cases hne : t = []
  · subst hne
    refine .inr (.inr ⟨malformed_intro _ _, fun a ha => ?_, fun h => absurd h.colon_mem (by simp)⟩)
    cases ha with
    | v4 hq => exact absurd (hq.dot_mem (by decide)) (by simp)
    | v6 htext => exact absurd htext.colon_mem (by simp)
  rw [if_neg fun h => hne (List.length_eq_zero_iff.mp h)]
  have h0 : t.drop 0 = t := rfl
  obtain ⟨x, y, hxy, hx, hy⟩ := detect_eq h0 none none
  rw [hxy, Except.ok_bind]
  simp only [Option.isSome_none, Bool.false_eq_true, false_or] at hx hy
  dsimp only
  by_cases hcolon : colon ∈ t
  · rw [if_pos (hx.mpr hcolon)]
    exact (parseV6_outcome hne).parse hcolon
  · rw [if_neg fun h => hcolon (hx.mp h)]
    have hnot : ∀ a, Denotes t a → ∃ os, Quad t os ∧ a.family = .v4 ∧
        a.octets.toList = os ++ List.replicate 12 0 := by
      intro a ha
      cases ha with
      | v4 hq hfam hlist => exact ⟨_, hq, hfam, hlist⟩
      | v6 htext => exact absurd htext.colon_mem hcolon
    by_cases hdot : dot ∈ t
    · rw [if_pos (hy.mpr hdot)]
      rcases parseV4_outcome (b := t) 0 with ⟨os, a, hos, hok, hfam, hlist⟩ | ⟨hno, hbad⟩
      · exact .inl ⟨a, .v4 hos hfam (by simpa using hlist), fun h => hcolon h.colon_mem, hok⟩
      · refine .inr (.inr ⟨hbad, fun a ha => ?_, fun h => hcolon h.colon_mem⟩)
        obtain ⟨os, hq, -⟩ := hnot a ha
        exact hno os hq
    · rw [if_neg fun h => hdot (hy.mp h)]
      refine .inr (.inr ⟨malformed_intro _ _, fun a ha => ?_, fun h => hcolon h.colon_mem⟩)
      obtain ⟨os, hq, -⟩ := hnot a ha
      exact hdot (hq.dot_mem (by decide))

theorem Denotes.unique (h : Denotes t a) (h' : Denotes t a') : a = a' := by
  have hext : ∀ {a a' : IpAddress}, a.family = a'.family → a.octets.toList = a'.octets.toList →
      a = a' := by
    rintro ⟨f, o⟩ ⟨f', o'⟩ hf ho
    obtain rfl : f = f' := hf
    obtain rfl : o = o' := Vector.toList_inj.mp ho
    rfl
  cases h with
  | v4 hq hf ho =>
    cases h' with
    | v4 hq' hf' ho' => exact hext (hf.trans hf'.symm) (by rw [ho, ho', hq.unique hq'])
    | v6 htext => exact absurd htext.colon_mem hq.colon_notMem
  | v6 htext hf ho =>
    cases h' with
    | v4 hq => exact absurd htext.colon_mem hq.colon_notMem
    | v6 htext' hf' ho' => exact hext (hf.trans hf'.symm) (by rw [ho, ho', htext.unique htext'])

end Cajeta.Net
