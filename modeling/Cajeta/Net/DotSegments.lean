import Cajeta.Net.UriReads
import Cajeta.Net.UriRecompose
import Mathlib.Data.List.Induction

/-!
# Dot segments

RFC 3986 removes dot segments with an input and an output buffer, and five cases of which the first
that fits rewrites them. What is left has no dot segments, so that removing them again changes
nothing.
-/

namespace Cajeta.Net.Uri

/-- A segment ends here: the path ends, or a slash follows. -/
def Ends (rest : List UInt8) : Prop := rest = [] ∨ rest.head? = some slash

def IsDots (d : List UInt8) : Prop := d = [dot] ∨ d = [dot, dot]

def StartsDotted (s : List UInt8) : Prop :=
  ∃ d rest, IsDots d ∧ Ends rest ∧ (s = d ++ rest ∨ s = slash :: (d ++ rest))

/-- A segment, with the slash before it if there is one. -/
def Segment (seg : List UInt8) : Prop :=
  seg ≠ [] ∧ (slash ∉ seg ∨ ∃ body, seg = slash :: body ∧ slash ∉ body)

/-- The output loses its last segment and the slash before that, if any. -/
inductive DropsSegment : List UInt8 → List UInt8 → Prop where
  | whole : slash ∉ out → DropsSegment out []
  | segment : slash ∉ seg → DropsSegment (out ++ slash :: seg) out

/-- The five cases, in their order. -/
inductive Rewrite : List UInt8 → List UInt8 → List UInt8 → List UInt8 → Prop where
  | up : Rewrite (dot :: dot :: slash :: rest) out rest out
  | here : Rewrite (dot :: slash :: rest) out rest out
  | slashHere : Rewrite (slash :: dot :: slash :: rest) out (slash :: rest) out
  | slashHereEnd : Rewrite [slash, dot] out [slash] out
  | slashUp : DropsSegment out out' →
      Rewrite (slash :: dot :: dot :: slash :: rest) out (slash :: rest) out'
  | slashUpEnd : DropsSegment out out' → Rewrite [slash, dot, dot] out [slash] out'
  | dots : IsDots d → Rewrite d out [] out
  | move : ¬StartsDotted (seg ++ rest) → Segment seg → Ends rest →
      Rewrite (seg ++ rest) out rest (out ++ seg)

/-- Rewriting until the input is used up. -/
inductive Removes : List UInt8 → List UInt8 → List UInt8 → Prop where
  | done : Removes [] out out
  | step : Rewrite s out s' out' → Removes s' out' r → Removes s out r

theorem exists_dropsSegment (out : List UInt8) : ∃ out', DropsSegment out out' := by
  rcases exists_last_split slash out with hno | ⟨a, seg, hseg, rfl⟩
  · exact ⟨[], .whole hno⟩
  · exact ⟨a, .segment hseg⟩

theorem Ends.cases (h : Ends rest) : rest = [] ∨ ∃ r, rest = slash :: r := by
  rcases h with h | h
  · exact .inl h
  · cases rest with
    | nil => cases h
    | cons c r => exact .inr ⟨r, by rw [Option.some.inj h]⟩

theorem ends_cons (r : List UInt8) : Ends (slash :: r) := .inr rfl

theorem exists_segment (s : List UInt8) (hs : s ≠ []) :
    ∃ seg rest, s = seg ++ rest ∧ Segment seg ∧ Ends rest := by
  have hbody : ∀ t : List UInt8, ∃ body rest, t = body ++ rest ∧ slash ∉ body ∧ Ends rest := by
    intro t
    rcases exists_split slash t with hno | ⟨body, rest, hbody, rfl⟩
    · exact ⟨t, [], by simp, hno, .inl rfl⟩
    · exact ⟨body, slash :: rest, rfl, hbody, ends_cons rest⟩
  cases s with
  | nil => exact absurd rfl hs
  | cons c t =>
    by_cases hc : c = slash
    · obtain ⟨body, rest, rfl, hno, hrest⟩ := hbody t
      subst hc
      exact ⟨slash :: body, rest, rfl, ⟨by simp, .inr ⟨body, rfl, hno⟩⟩, hrest⟩
    · obtain ⟨body, rest, heq, hno, hrest⟩ := hbody (c :: t)
      refine ⟨body, rest, heq, ⟨?_, .inl hno⟩, hrest⟩
      rintro rfl
      rcases hrest.cases with rfl | ⟨r, rfl⟩
      · cases heq
      · exact hc (List.cons.inj heq).1

theorem length_slash (r : List UInt8) : (slash :: r).length = r.length + 1 := rfl

theorem exists_rewrite (s out : List UInt8) (hs : s ≠ []) :
    ∃ s' out', Rewrite s out s' out' ∧ s'.length < s.length := by
  by_cases hdots : StartsDotted s
  · obtain ⟨out', hout'⟩ := exists_dropsSegment out
    obtain ⟨d, rest, hd, hrest, rfl | rfl⟩ := hdots
    · rcases hrest.cases with rfl | ⟨r, rfl⟩
      · refine ⟨[], out, .dots (by simpa using hd), ?_⟩
        rcases hd with rfl | rfl <;> simp
      · rcases hd with rfl | rfl
        · exact ⟨r, out, .here, by rw [List.length_append, length_slash]; omega⟩
        · exact ⟨r, out, .up, by rw [List.length_append, length_slash]; omega⟩
    · rcases hrest.cases with rfl | ⟨r, rfl⟩ <;> rcases hd with rfl | rfl
      · exact ⟨_, out, .slashHereEnd, by simp⟩
      · exact ⟨_, out', .slashUpEnd hout', by simp⟩
      · exact ⟨_, out, .slashHere, by simp⟩
      · exact ⟨_, out', .slashUp hout', by simp⟩
  · obtain ⟨seg, rest, rfl, hseg, hrest⟩ := exists_segment s hs
    refine ⟨rest, out ++ seg, .move hdots hseg hrest, ?_⟩
    rw [List.length_append]
    have := List.length_pos_iff.mpr hseg.1
    omega

theorem exists_removes (s out : List UInt8) : ∃ r, Removes s out r := by
  induction hn : s.length using Nat.strongRecOn generalizing s out with
  | ind n ih =>
    by_cases hs : s = []
    · exact ⟨out, hs ▸ .done⟩
    · obtain ⟨s', out', hstep, hlt⟩ := exists_rewrite s out hs
      obtain ⟨r, hr⟩ := ih s'.length (hn ▸ hlt) s' out' rfl
      exact ⟨r, .step hstep hr⟩

/-! ## No dot segment is left -/

def NoDots (s : List UInt8) : Prop := ∀ seg ∈ s.splitOn slash, ¬IsDots seg

theorem IsDots.slash_notMem (h : IsDots d) : slash ∉ d := by
  rcases h with rfl | rfl <;> decide

theorem not_isDots_nil : ¬IsDots [] := by
  rintro (h | h) <;> cases h

theorem noDots_nil : NoDots [] := by
  intro seg hseg
  rw [List.splitOn_nil, List.mem_singleton] at hseg
  exact hseg ▸ not_isDots_nil

theorem noDots_of_notMem (h : slash ∉ s) : NoDots s ↔ ¬IsDots s := by
  rw [NoDots, List.splitOn_eq_singleton h]
  simp

theorem noDots_append (x y : List UInt8) : NoDots (x ++ slash :: y) ↔ NoDots x ∧ NoDots y := by
  simp only [NoDots, List.splitOn_append_cons_self, List.mem_append]
  exact ⟨fun h => ⟨fun seg hs => h seg (.inl hs), fun seg hs => h seg (.inr hs)⟩,
    fun h seg hs => hs.elim (h.1 seg) (h.2 seg)⟩

theorem noDots_cons (y : List UInt8) : NoDots (slash :: y) ↔ NoDots y := by
  have h := noDots_append [] y
  rw [List.nil_append] at h
  rw [h]
  exact and_iff_right noDots_nil

theorem NoDots.not_startsDotted (h : NoDots s) : ¬StartsDotted s := by
  have hfirst : ∀ d rest, IsDots d → Ends rest → ¬NoDots (d ++ rest) := by
    intro d rest hd hrest hno
    rcases hrest.cases with rfl | ⟨r, rfl⟩
    · rw [List.append_nil, noDots_of_notMem hd.slash_notMem] at hno
      exact hno hd
    · rw [noDots_append, noDots_of_notMem hd.slash_notMem] at hno
      exact hno.1 hd
  rintro ⟨d, rest, hd, hrest, rfl | rfl⟩
  · exact hfirst d rest hd hrest h
  · exact hfirst d rest hd hrest ((noDots_cons _).mp h)

theorem NoDots.dropsSegment (h : NoDots out) (hdrop : DropsSegment out out') : NoDots out' := by
  cases hdrop with
  | whole => exact noDots_nil
  | segment => exact ((noDots_append _ _).mp h).1

/-- Nothing dotted is written, and what follows something written starts with a slash. -/
structure Clean (s out : List UInt8) : Prop where
  noDots : NoDots out
  ends : out ≠ [] → Ends s

theorem clean_start (s : List UInt8) : Clean s [] := ⟨noDots_nil, fun h => absurd rfl h⟩

theorem NoDots.move (h : NoDots out) (hseg : Segment seg) (hrest : Ends rest)
    (hdots : ¬StartsDotted (seg ++ rest)) (hends : out ≠ [] → Ends (seg ++ rest)) :
    NoDots (out ++ seg) := by
  obtain ⟨hne, hno | ⟨body, rfl, hbody⟩⟩ := hseg
  · have hnil : out = [] := by
      by_contra hout
      rcases (hends hout).cases with heq | ⟨r, heq⟩
      · exact hne (List.append_eq_nil_iff.mp heq).1
      · obtain ⟨c, t, rfl⟩ := List.exists_cons_of_ne_nil hne
        obtain ⟨rfl, -⟩ := List.cons.inj heq
        exact hno List.mem_cons_self
    rw [hnil, List.nil_append, noDots_of_notMem hno]
    exact fun hd => hdots ⟨seg, rest, hd, hrest, .inl rfl⟩
  · rw [noDots_append, noDots_of_notMem hbody]
    exact ⟨h, fun hd => hdots ⟨body, rest, hd, hrest, .inr rfl⟩⟩

theorem Clean.rewrite (h : Clean s out) (hstep : Rewrite s out s' out') : Clean s' out' := by
  have hnil : ∀ r, s = dot :: r → out = [] := by
    rintro r rfl
    by_contra hout
    rcases (h.ends hout).cases with heq | ⟨r', heq⟩
    · cases heq
    · exact absurd (List.cons.inj heq).1 (by decide)
  cases hstep with
  | up | here =>
    rw [hnil _ rfl]
    exact clean_start _
  | slashHere | slashHereEnd => exact ⟨h.noDots, fun _ => ends_cons _⟩
  | slashUp hdrop | slashUpEnd hdrop => exact ⟨h.noDots.dropsSegment hdrop, fun _ => ends_cons _⟩
  | dots => exact ⟨h.noDots, fun _ => .inl rfl⟩
  | move hdots hseg hrest => exact ⟨h.noDots.move hseg hrest hdots h.ends, fun _ => hrest⟩

theorem Clean.removes (h : Clean s out) (hrun : Removes s out r) : NoDots r := by
  induction hrun with
  | done => exact h.noDots
  | step hstep _ ih => exact ih (h.rewrite hstep)

theorem NoDots.removes (h : NoDots s) (out : List UInt8) : Removes s out (out ++ s) := by
  induction hn : s.length using Nat.strongRecOn generalizing s out with
  | ind n ih =>
    by_cases hs : s = []
    · subst hs
      rw [List.append_nil]
      exact .done
    · obtain ⟨seg, rest, rfl, hseg, hrest⟩ := exists_segment s hs
      have hrest' : NoDots rest := by
        rcases hrest.cases with rfl | ⟨r, rfl⟩
        · exact noDots_nil
        · rw [noDots_cons]
          exact ((noDots_append _ _).mp h).2
      have hpos := List.length_pos_iff.mpr hseg.1
      rw [List.length_append] at hn
      have hnext := ih rest.length (by omega) hrest' (out ++ seg) rfl
      rw [List.append_assoc] at hnext
      exact .step (.move h.not_startsDotted hseg hrest) hnext

theorem DropsSegment.isPrefix (h : DropsSegment out out') : out' <+: out := by
  cases h with
  | whole => exact List.nil_prefix
  | segment => exact List.prefix_append _ _

theorem Rewrite.mem (h : Rewrite s out s' out') (hc : c ∈ s' ∨ c ∈ out') : c ∈ s ∨ c ∈ out := by
  cases h with
  | up | here | slashHere =>
    rcases hc with hc | hc
    · exact .inl (by simp only [List.mem_cons] at hc ⊢; tauto)
    · exact .inr hc
  | slashHereEnd =>
    rcases hc with hc | hc
    · exact .inl (by simp only [List.mem_cons] at hc ⊢; tauto)
    · exact .inr hc
  | slashUp hdrop | slashUpEnd hdrop =>
    rcases hc with hc | hc
    · exact .inl (by simp only [List.mem_cons] at hc ⊢; tauto)
    · exact .inr (hdrop.isPrefix.subset hc)
  | dots =>
    rcases hc with hc | hc
    · cases hc
    · exact .inr hc
  | move =>
    simp only [List.mem_append] at hc ⊢
    tauto

theorem Removes.mem (h : Removes s out r) (hc : c ∈ r) : c ∈ s ∨ c ∈ out := by
  induction h with
  | done => exact .inr hc
  | step hstep _ ih => exact hstep.mem (ih hc)

theorem Rewrite.rooted (h : Rewrite s out s' out') (hroot : (out ++ s).head? = some slash) :
    (out' ++ s').head? = some slash := by
  have hhead : ∀ (x : List UInt8) t t', t.head? = t'.head? ∨ t'.head? = some slash →
      (x ++ t).head? = some slash → (x ++ t').head? = some slash := by
    intro x t t' ht hx
    cases x with
    | nil => exact ht.elim (fun h => h ▸ hx) id
    | cons d x => exact hx
  have hdots : ∀ x : List UInt8, ∀ t t', (x ++ dot :: t).head? = some slash →
      (x ++ t').head? = some slash := by
    intro x t t' hx
    cases x with
    | nil => exact absurd (Option.some.inj hx) (by decide)
    | cons d x => exact hx
  have hdrop : ∀ {x y t t' : List UInt8}, DropsSegment x y → (x ++ t).head? = some slash →
      t'.head? = some slash → (y ++ t').head? = some slash := by
    intro x y t t' hxy hx ht'
    obtain ⟨z, rfl⟩ := hxy.isPrefix
    cases y with
    | nil => exact ht'
    | cons d y => exact hx
  cases h with
  | up | here => exact hdots _ _ _ hroot
  | slashHere | slashHereEnd => exact hhead _ _ _ (.inr rfl) hroot
  | slashUp h | slashUpEnd h => exact hdrop h hroot rfl
  | dots h =>
    rcases h with rfl | rfl
    · exact hdots _ _ _ hroot
    · exact hdots _ _ _ hroot
  | move => rwa [List.append_assoc]

theorem Removes.rooted (h : Removes s out r) (hroot : (out ++ s).head? = some slash) :
    r.head? = some slash := by
  induction h with
  | done => rwa [List.append_nil] at hroot
  | step hstep _ ih => exact ih (hstep.rooted hroot)

/-!
## The loop that removes dot segments

The code moves an index over a copy of the path, which it edits, and fills an array of the same
size. It takes the steps of the algorithm, inside both arrays, and comes to an end.
-/

theorem matchesAt_span (p : List UInt8) {s : List UInt8} (h : Spans b i s last)
    (hlen : p.length ≤ s.length) : matchesAt b i p = .ok (decide (p <+: s)) := by
  induction p generalizing i s with
  | nil => simp [matchesAt]; rfl
  | cons c p ih =>
    cases s with
    | nil => rw [List.length_cons, List.length_nil] at hlen; omega
    | cons d s =>
      rw [List.length_cons, List.length_cons] at hlen
      rw [matchesAt, byteAt_span h, Except.ok_bind]
      by_cases hc : d = c
      · subst hc
        rw [if_pos rfl, ih h.tail (by omega)]
        simp
      · rw [if_neg hc]
        simp [List.cons_prefix_cons, Ne.symm hc]
        rfl

theorem startsAt_span (h : Spans b i s n) (a c d : UInt8) :
    startsAt b n i a c d = .ok (decide ([a, c, d] <+: s)) := by
  have hlast := h.last_eq
  unfold startsAt
  split
  · exact matchesAt_span _ h (by simp; omega)
  · rw [decide_eq_false fun hpre => ?_]
    · rfl
    · have := hpre.length_le
      simp at this
      omega

theorem startsAt2_span (h : Spans b i s n) (a c : UInt8) :
    startsAt2 b n i a c = .ok (decide ([a, c] <+: s)) := by
  have hlast := h.last_eq
  unfold startsAt2
  split
  · exact matchesAt_span _ h (by simp; omega)
  · rw [decide_eq_false fun hpre => ?_]
    · rfl
    · have := hpre.length_le
      simp at this
      omega

theorem restIs_span (h : Spans b i s n) (p : List UInt8) :
    restIs b n i p = .ok (decide (s = p)) := by
  have hlast := h.last_eq
  unfold restIs
  split
  · next hlen =>
    rw [matchesAt_span _ h (by omega)]
    congr 2
    rw [eq_iff_iff]
    exact ⟨fun hpre => (hpre.eq_of_length (by omega)).symm, fun heq => heq ▸ List.prefix_rfl⟩
  · next hlen =>
    rw [decide_eq_false fun heq => hlen (by rw [hlast, heq])]
    rfl

theorem isDot_span (h : Spans b i s n) :
    isDot b n i = .ok (decide (s = [dot]) || decide (s = [dot, dot])) := by
  rw [isDot, orM, restIs_span h, Except.ok_bind, restIs_span h]
  cases decide (s = [dot]) <;> rfl

theorem popSegment_append (x seg tail : List UInt8) (hseg : slash ∉ seg) :
    popSegment (x ++ (seg ++ tail)) (x.length + seg.length) =
      popSegment (x ++ (seg ++ tail)) x.length := by
  induction seg using List.reverseRecOn generalizing tail with
  | nil => rfl
  | append_singleton seg c ih =>
    have hc : c ≠ slash := fun hc => hseg (by simp [hc])
    have hread : byteAt (x ++ (seg ++ [c] ++ tail)) (x.length + seg.length) = .ok c := by
      rw [byteAt, List.getElem?_append_right (Nat.le_add_right _ _), Nat.add_sub_cancel_left,
        List.append_assoc, List.getElem?_append_right (Nat.le_refl _), Nat.sub_self]
      rfl
    rw [List.length_append, List.length_singleton, ← Nat.add_assoc, popSegment, hread,
      Except.ok_bind, if_pos hc, List.append_assoc seg]
    exact ih ([c] ++ tail) fun hm => hseg (List.mem_append_left _ hm)

theorem popSegment_drops (h : DropsSegment done done') (tail : List UInt8) :
    popSegment (done ++ tail) done.length = .ok done'.length := by
  cases h with
  | whole hno =>
    have hpop := popSegment_append [] done tail hno
    rw [List.nil_append, List.length_nil, Nat.zero_add] at hpop
    rw [hpop]
    rfl
  | @segment seg out hseg =>
    have hpop := popSegment_append (done' ++ [slash]) seg tail hseg
    have hread : byteAt (done' ++ [slash] ++ (seg ++ tail)) done'.length = .ok slash := by
      rw [byteAt, List.append_assoc, List.getElem?_append_right (Nat.le_refl _), Nat.sub_self]
      rfl
    rw [List.length_append, List.length_singleton, popSegment, hread, Except.ok_bind,
      if_neg (by simp)] at hpop
    have hlist : done' ++ slash :: seg ++ tail = done' ++ [slash] ++ (seg ++ tail) := by simp
    have hlength : (done' ++ slash :: seg).length = done'.length + 1 + seg.length := by
      rw [List.length_append, List.length_cons]
      omega
    rw [hlist, hlength, hpop]
    rfl

theorem moveRange_span (seg done tail : List UInt8) (h : Spans input k seg last)
    (hlen : seg.length ≤ tail.length) :
    moveRange input (done ++ tail) done.length k seg.length =
      .ok (done ++ seg ++ tail.drop seg.length, (done ++ seg).length) := by
  induction seg generalizing k done tail with
  | nil => simp [moveRange]; rfl
  | cons c seg ih =>
    cases tail with
    | nil => rw [List.length_cons, List.length_nil] at hlen; omega
    | cons x tail =>
      rw [List.length_cons, List.length_cons] at hlen
      have hnext := ih (done ++ [c]) tail h.tail (by omega)
      rw [List.append_assoc, List.singleton_append, List.length_append,
        List.length_singleton] at hnext
      rw [List.length_cons, moveRange, byteAt_span h, Except.ok_bind, store_append, Except.ok_bind,
        hnext]
      simp

/-! ## The code takes the steps of the algorithm -/

/-- The rest of the path is `s`, and `done` is written. -/
structure Dots.Holds (n : Nat) (st : Dots) (s done : List UInt8) : Prop where
  input : Spans st.input st.i s n
  inputSize : st.input.length = n
  out : ∃ tail, st.out = done ++ tail
  outSize : st.out.length = n
  olen : st.olen = done.length
  le : done.length ≤ st.i

theorem firstIn_ends (h : Spans b i (body ++ rest) n) (hbody : slash ∉ body) (hrest : Ends rest) :
    ∃ next, firstIn b slash i (n - i) = .ok next ∧ next.getD n = i + body.length := by
  rcases hrest.cases with rfl | ⟨r, rfl⟩
  · have hlast := h.last_eq
    rw [List.append_nil] at h hlast
    exact ⟨none, firstIn_none h hbody, hlast⟩
  · exact ⟨_, firstIn_some h hbody, rfl⟩

theorem moveSegment_holds {st : Dots} (h : st.Holds n (seg ++ rest) done) (hseg : Segment seg)
    (hrest : Ends rest) :
    ∃ st', moveSegment n st = .ok st' ∧ st'.Holds n rest (done ++ seg) ∧ st.i < st'.i := by
  obtain ⟨hne, hshape⟩ := hseg
  obtain ⟨c, t, rfl⟩ := List.exists_cons_of_ne_nil hne
  have hspan : Spans st.input st.i (c :: (t ++ rest)) n := h.input
  -- the search starts behind the slash, if there is one, and ends where the segment does
  have hsearch : ∃ next, firstIn st.input slash (if c = slash then st.i + 1 else st.i)
      (n - if c = slash then st.i + 1 else st.i) = .ok next ∧
        next.getD n = st.i + (c :: t).length := by
    by_cases hc : c = slash
    · have ht : slash ∉ t := by
        rcases hshape with hno | ⟨body, heq, hbody⟩
        · exact absurd (hc ▸ List.mem_cons_self) hno
        · obtain ⟨-, rfl⟩ := List.cons.inj heq
          exact hbody
      obtain ⟨next, hnext, hend⟩ := firstIn_ends hspan.tail ht hrest
      rw [if_pos hc]
      exact ⟨next, hnext, by rw [hend, List.length_cons]; omega⟩
    · have ht : slash ∉ c :: t := by
        rcases hshape with hno | ⟨body, heq, -⟩
        · exact hno
        · exact absurd (List.cons.inj heq).1 hc
      rw [if_neg hc]
      exact firstIn_ends h.input ht hrest
  obtain ⟨next, hnext, hend⟩ := hsearch
  obtain ⟨tail, hout⟩ := h.out
  have hroom : (c :: t).length ≤ tail.length := by
    have hn := h.outSize
    have hlast := h.input.last_eq
    have := h.le
    rw [hout, List.length_append] at hn
    rw [List.length_append] at hlast
    omega
  have hmove := moveRange_span (c :: t) done tail h.input.left hroom
  have hpos : 0 < (c :: t).length := Nat.succ_pos _
  refine ⟨⟨st.input, done ++ (c :: t) ++ tail.drop (c :: t).length, (done ++ (c :: t)).length,
    st.i + (c :: t).length⟩, ?_, ?_, by dsimp only; omega⟩
  · rw [moveSegment, byteAt_span hspan, Except.ok_bind]
    dsimp only
    rw [hnext, Except.ok_bind, hend, Nat.add_sub_cancel_left, hout, h.olen, hmove]
    rfl
  · refine ⟨h.input.right, h.inputSize, ⟨_, rfl⟩, ?_, rfl, ?_⟩
    · have hn := h.outSize
      rw [hout, List.length_append] at hn
      simp only [List.length_append, List.length_drop]
      omega
    · have := h.le
      rw [List.length_append]
      dsimp only
      omega

theorem prefix_three {s : List UInt8} : [a, c, d] <+: s ↔ ∃ t, s = a :: c :: d :: t := by
  constructor
  · rintro ⟨t, rfl⟩
    exact ⟨t, rfl⟩
  · rintro ⟨t, rfl⟩
    exact ⟨t, rfl⟩

theorem prefix_two {s : List UInt8} : [a, c] <+: s ↔ ∃ t, s = a :: c :: t := by
  constructor
  · rintro ⟨t, rfl⟩
    exact ⟨t, rfl⟩
  · rintro ⟨t, rfl⟩
    exact ⟨t, rfl⟩

theorem Dots.Holds.skip {st : Dots} (h : st.Holds n (x ++ s') done) (hx : x ≠ []) :
    ({ st with i := st.i + x.length } : Dots).Holds n s' done ∧ st.i < st.i + x.length :=
  ⟨⟨h.input.right, h.inputSize, h.out, h.outSize, h.olen, Nat.le_add_right_of_le h.le⟩,
    Nat.lt_add_of_pos_right (List.length_pos_iff.mpr hx)⟩

theorem Dots.Holds.pop {st : Dots} (h : st.Holds n s done) (hdrop : DropsSegment done done') :
    popSegment st.out st.olen = .ok done'.length ∧
      ({ st with olen := done'.length } : Dots).Holds n s done' := by
  obtain ⟨tail, hout⟩ := h.out
  obtain ⟨cut, hcut⟩ := hdrop.isPrefix
  refine ⟨by rw [hout, h.olen, popSegment_drops hdrop], h.input, h.inputSize,
    ⟨cut ++ tail, ?_⟩, h.outSize, rfl, ?_⟩
  · rw [hout, ← hcut, List.append_assoc]
  · exact Nat.le_trans hdrop.isPrefix.length_le h.le

theorem Dots.Holds.overwrite {st : Dots} (h : st.Holds n (x ++ [c]) done) (v : UInt8) :
    store st.input (st.i + x.length) v = .ok (st.input.set (st.i + x.length) v) ∧
      ({ st with input := st.input.set (st.i + x.length) v } : Dots).Holds n (x ++ [v]) done := by
  have hlast := h.input.last_eq
  rw [List.length_append, List.length_singleton] at hlast
  refine ⟨?_, h.input.set v, ?_, h.out, h.outSize, h.olen, h.le⟩
  · rw [store, if_pos (by rw [h.inputSize]; omega)]
  · rw [List.length_set, h.inputSize]

theorem dot_ne_slash : dot ≠ slash := by decide
theorem slash_ne_dot : slash ≠ dot := by decide

theorem not_startsDotted_tests (h : ¬StartsDotted s) :
    ¬[dot, dot, slash] <+: s ∧ ¬[dot, slash] <+: s ∧ ¬[slash, dot, slash] <+: s ∧
      s ≠ [slash, dot] ∧ s ≠ [slash, dot, dot] ∧ s ≠ [dot] ∧ s ≠ [dot, dot] ∧
        ∀ t, s ≠ slash :: dot :: dot :: slash :: t := by
  refine ⟨fun hp => ?_, fun hp => ?_, fun hp => ?_, ?_, ?_, ?_, ?_, fun t hs => ?_⟩
  · obtain ⟨t, rfl⟩ := prefix_three.mp hp
    exact h ⟨[dot, dot], slash :: t, .inr rfl, ends_cons t, .inl rfl⟩
  · obtain ⟨t, rfl⟩ := prefix_two.mp hp
    exact h ⟨[dot], slash :: t, .inl rfl, ends_cons t, .inl rfl⟩
  · obtain ⟨t, rfl⟩ := prefix_three.mp hp
    exact h ⟨[dot], slash :: t, .inl rfl, ends_cons t, .inr rfl⟩
  · rintro rfl
    exact h ⟨[dot], [], .inl rfl, .inl rfl, .inr rfl⟩
  · rintro rfl
    exact h ⟨[dot, dot], [], .inr rfl, .inl rfl, .inr rfl⟩
  · rintro rfl
    exact h ⟨[dot], [], .inl rfl, .inl rfl, .inl rfl⟩
  · rintro rfl
    exact h ⟨[dot, dot], [], .inr rfl, .inl rfl, .inl rfl⟩
  · subst hs
    exact h ⟨[dot, dot], slash :: t, .inr rfl, ends_cons t, .inr rfl⟩

theorem slashUpSlash_span (h : Spans b i s last) (hend : s ≠ [slash, dot, dot]) :
    (if decide ([slash, dot, dot] <+: s) = true then byteIs b (i + 3) slash else pure false) =
      (.ok (decide ([slash, dot, dot, slash] <+: s)) : Parse Bool) := by
  by_cases hp : [slash, dot, dot] <+: s
  · obtain ⟨t, rfl⟩ := prefix_three.mp hp
    cases t with
    | nil => exact absurd rfl hend
    | cons c t =>
      rw [if_pos (decide_eq_true hp), byteIs_span h.tail.tail.tail]
      simp [List.cons_prefix_cons, eq_comm]
  · rw [if_neg (by simpa using hp), decide_eq_false fun hfour => hp ?_]
    · rfl
    · obtain ⟨t, rfl⟩ := hfour
      exact ⟨slash :: t, rfl⟩

theorem dotStep_holds {st : Dots} (h : st.Holds n s done) (hstep : Rewrite s done s' done') :
    ∃ st', dotStep n st = .ok st' ∧ st'.Holds n s' done' ∧ st.i < st'.i := by
  have hlast := h.input.last_eq
  unfold dotStep
  simp only [startsAt_span h.input, startsAt2_span h.input, restIs_span h.input,
    isDot_span h.input, Except.ok_bind]
  cases hstep with
  | up =>
    rw [if_pos (by simp)]
    have hskip := h.skip (x := [dot, dot, slash]) (by simp)
    exact ⟨_, rfl, hskip⟩
  | here =>
    rw [if_neg (by simp [dot_ne_slash]), if_pos (by simp)]
    have hskip := h.skip (x := [dot, slash]) (by simp)
    exact ⟨_, rfl, hskip⟩
  | @slashHere rest _ =>
    rw [if_neg (by simp [dot_ne_slash]), if_neg (by simp [slash_ne_dot]), if_pos (by simp)]
    have hskip := h.skip (x := [slash, dot]) (by simp)
    exact ⟨_, rfl, hskip⟩
  | slashHereEnd =>
    rw [if_neg (by simp), if_neg (by simp [slash_ne_dot]), if_neg (by simp),
      if_pos (by simp)]
    obtain ⟨hstore, hover⟩ := h.overwrite (x := [slash]) slash
    have hskip := hover.skip (x := [slash]) (by simp)
    rw [List.length_singleton] at hstore
    rw [hstore]
    exact ⟨_, rfl, hskip⟩
  | slashUpEnd hdrop =>
    rw [if_neg (by simp [slash_ne_dot]), if_neg (by simp [slash_ne_dot]),
      if_neg (by simp [slash_ne_dot]), if_neg (by simp), if_pos (by simp [hlast])]
    obtain ⟨hstore, hover⟩ := h.overwrite (x := [slash, dot]) slash
    obtain ⟨hpop, hcut⟩ := hover.pop hdrop
    have hskip := hcut.skip (x := [slash, dot]) (by simp)
    simp only [List.length_cons, List.length_nil, Nat.zero_add] at hstore
    rw [hstore, Except.ok_bind, hpop]
    exact ⟨_, rfl, hskip⟩
  | @slashUp _ _ rest hdrop =>
    have hpast : st.i + 3 ≠ n := by
      simp only [List.length_cons] at hlast
      omega
    rw [if_neg (by simp [slash_ne_dot]), if_neg (by simp [slash_ne_dot]),
      if_neg (by simp [slash_ne_dot]), if_neg (by simp), if_neg (by simp [hpast]),
      slashUpSlash_span h.input (by simp), Except.ok_bind, if_pos (by simp)]
    obtain ⟨hpop, hcut⟩ := h.pop hdrop
    have hskip := hcut.skip (x := [slash, dot, dot]) (by simp)
    rw [hpop]
    exact ⟨_, rfl, hskip⟩
  | dots hd =>
    have hne : s ≠ [] := by rcases hd with rfl | rfl <;> simp
    have hskip : ({ st with i := st.i + s.length } : Dots).Holds n [] done ∧
        st.i < st.i + s.length := Dots.Holds.skip (by rwa [List.append_nil]) hne
    rw [← hlast] at hskip
    have hend : s ≠ [slash, dot, dot] := by rcases hd with rfl | rfl <;> simp [dot_ne_slash]
    rw [slashUpSlash_span h.input hend, Except.ok_bind]
    refine ⟨_, ?_, hskip⟩
    rcases hd with rfl | rfl <;> simp [dot_ne_slash] <;> rfl
  | @move seg _ _ hdots hseg hrest =>
    obtain ⟨h₁, h₂, h₃, h₄, h₅, h₆, h₇, h₈⟩ := not_startsDotted_tests hdots
    have hpast : ¬((decide ([slash, dot, dot] <+: seg ++ s') && decide (st.i + 3 = n)) = true) := by
      rw [Bool.and_eq_true, decide_eq_true_eq, decide_eq_true_eq]
      rintro ⟨hp, hn⟩
      obtain ⟨t, ht⟩ := prefix_three.mp hp
      rw [ht] at hlast h₅
      simp only [List.length_cons] at hlast
      have ht : t = [] := List.length_eq_zero_iff.mp (by omega)
      exact h₅ (by rw [ht])
    have hfour : ¬[slash, dot, dot, slash] <+: seg ++ s' := fun ⟨t, ht⟩ => h₈ t ht.symm
    rw [if_neg (by simpa using h₁), if_neg (by simpa using h₂), if_neg (by simpa using h₃),
      if_neg (by simpa using h₄), if_neg hpast, slashUpSlash_span h.input h₅, Except.ok_bind,
      if_neg (by simpa using hfour), if_neg (by simp [h₆, h₇])]
    exact moveSegment_holds h hseg hrest

theorem Rewrite.ne_nil (h : Rewrite s out s' out') : s ≠ [] := by
  cases h with
  | dots hd => rcases hd with rfl | rfl <;> simp
  | move _ hseg =>
    intro hnil
    exact hseg.1 (List.append_eq_nil_iff.mp hnil).1
  | _ => simp

theorem dotLoop_holds (hrun : Removes s done r) : ∀ {st : Dots} {fuel : Nat}, st.Holds n s done →
    n - st.i ≤ fuel → ∃ st', dotLoop n fuel st = .ok st' ∧ st'.Holds n [] r := by
  induction hrun with
  | done =>
    intro st fuel h _
    have hend := mt h.input.lt_iff.mp (fun hne => hne rfl)
    cases fuel with
    | zero => exact ⟨st, by rw [dotLoop, if_neg hend]; rfl, h⟩
    | succ fuel => exact ⟨st, by rw [dotLoop, if_neg hend]; rfl, h⟩
  | step hstep _ ih =>
    intro st fuel h hfuel
    have hlt := h.input.lt_iff.mpr hstep.ne_nil
    cases fuel with
    | zero => omega
    | succ fuel =>
      obtain ⟨st₁, hrun₁, h₁, hi⟩ := dotStep_holds h hstep
      obtain ⟨st', hrun', h'⟩ := @ih st₁ fuel h₁ (by omega)
      exact ⟨st', by rw [dotLoop, if_pos hlt, hrun₁, Except.ok_bind, hrun'], h'⟩

theorem removeDotSegments_of_removes {path : List UInt8} (h : Removes path [] r) :
    removeDotSegments path = .ok r := by
  have hstart : Dots.Holds path.length { input := path, out := List.replicate path.length 0 }
      path [] :=
    ⟨Spans.whole path, rfl, ⟨_, rfl⟩, List.length_replicate, rfl, Nat.le_refl 0⟩
  obtain ⟨st, hrun, hend⟩ := dotLoop_holds h hstart (Nat.sub_le _ _)
  obtain ⟨tail, hout⟩ := hend.out
  have hspan : Spans st.out 0 r st.olen :=
    ⟨⟨[], tail, by rw [hout]; rfl, rfl⟩, by rw [hend.olen, Nat.zero_add]⟩
  rw [removeDotSegments, hrun, Except.ok_bind, slice_span hspan]

end Cajeta.Net.Uri
