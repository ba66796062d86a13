import Cajeta.Net.IpAddressOutcome
import Mathlib.Data.List.Induction

/-!
# The printed form of an address

Four decimal octets, or eight groups in lowercase hex without leading zeros, where the first of the
longest runs of two or more zero groups is collapsed.
-/

namespace Cajeta.Net

/-! ## Octets and groups -/

theorem decDigit_ofNat (d : Nat) (h : d < 10) : decDigit (UInt8.ofNat (48 + d)) = some d := by
  have hall : ∀ d < 10, decDigit (UInt8.ofNat (48 + d)) = some d := by decide
  exact hall d h

theorem decOctet_map {ds : List Nat} {v : UInt8} (hne : ds ≠ []) (hlen : ds.length ≤ 3)
    (hlt : ∀ d ∈ ds, d < 10) (hvalue : ds.foldl (fun n d => n * 10 + d) 0 = v.toNat) :
    DecOctet (ds.map fun d => UInt8.ofNat (48 + d)) v where
  ne_nil := by simpa using hne
  short := by simpa using hlen
  digits c hc := by
    obtain ⟨d, hd, rfl⟩ := List.mem_map.mp hc
    rw [decDigit_ofNat d (hlt d hd)]
    rfl
  value := by
    rw [decValue, List.foldl_map, ← hvalue]
    refine List.foldl_ext _ _ _ fun n d hd => ?_
    rw [decDigit_ofNat d (hlt d hd), Option.getD_some]

theorem decOctet_writeDecimal (v : UInt8) : DecOctet (writeDecimal v.toNat) v := by
  have hv := v.toNat_lt
  unfold writeDecimal
  split
  · have hspec : DecOctet ([v.toNat / 100, v.toNat / 10 % 10, v.toNat % 10].map _) v :=
      decOctet_map (by simp) (by simp) (by simp; omega) (by simp; omega)
    exact hspec
  · split
    · have hspec : DecOctet ([v.toNat / 10, v.toNat % 10].map _) v :=
        decOctet_map (by simp) (by simp) (by simp; omega) (by simp; omega)
      exact hspec
    · have hspec : DecOctet ([v.toNat].map _) v :=
        decOctet_map (by simp) (by simp) (by simp; omega) (by simp)
      exact hspec

/-- A group in lowercase hex, without leading zeros. -/
structure Shortest (t : List UInt8) (v : Nat) : Prop where
  group : HexGroup t v
  lower : ∀ c ∈ t, ¬(65 ≤ c ∧ c ≤ 70)
  unpadded : t.head? = some 48 → t = [48]

theorem hexChar_spec (n : Nat) (h : n < 16) : hexDigit (hexChar n) = some n ∧
    ¬(65 ≤ hexChar n ∧ hexChar n ≤ 70) ∧ (hexChar n = 48 → n = 0) := by
  have hall : ∀ n < 16, hexDigit (hexChar n) = some n ∧
      ¬(65 ≤ hexChar n ∧ hexChar n ≤ 70) ∧ (hexChar n = 48 → n = 0) := by decide
  exact hall n h

/-- The nibbles of a group, most significant first. -/
def nibbles (v : Nat) : List Nat := [v / 4096, v / 256 % 16, v / 16 % 16, v % 16]

theorem writeGroup_eq (h : v < 65536) :
    writeGroup v = (if v < 16 then [v % 16]
      else if v < 256 then [v / 16 % 16, v % 16]
      else if v < 4096 then [v / 256 % 16, v / 16 % 16, v % 16] else nibbles v).map hexChar := by
  have h0 : v >>> 12 &&& 15 = v / 4096 := by
    rw [Nat.shiftRight_eq_div_pow, Nat.and_two_pow_sub_one_eq_mod _ 4]
    omega
  have h1 : v >>> 8 &&& 15 = v / 256 % 16 := by
    rw [Nat.shiftRight_eq_div_pow, Nat.and_two_pow_sub_one_eq_mod _ 4]
  have h2 : v >>> 4 &&& 15 = v / 16 % 16 := by
    rw [Nat.shiftRight_eq_div_pow, Nat.and_two_pow_sub_one_eq_mod _ 4]
  have h3 : v &&& 15 = v % 16 := Nat.and_two_pow_sub_one_eq_mod _ 4
  unfold writeGroup
  simp only [h0, h1, h2, h3]
  by_cases h16 : v < 16
  · rw [if_pos h16, if_neg (by omega), if_neg (by omega), if_neg (by omega)]
    simp only [List.nil_append, List.map_cons, List.map_nil]
  by_cases h256 : v < 256
  · rw [if_neg h16, if_pos h256, if_neg (by omega), if_neg (by omega), if_pos (by omega)]
    simp only [List.nil_append, List.cons_append, List.map_cons, List.map_nil]
  by_cases h4096 : v < 4096
  · rw [if_neg h16, if_neg h256, if_pos h4096, if_neg (by omega), if_pos (by omega),
      if_pos (by omega)]
    simp only [List.nil_append, List.cons_append, List.map_cons, List.map_nil]
  · rw [if_neg h16, if_neg h256, if_neg h4096, if_pos (by omega), if_pos (by omega),
      if_pos (by omega)]
    simp only [nibbles, List.cons_append, List.nil_append, List.map_cons, List.map_nil]

theorem shortest_hexChars {ns : List Nat} (hne : ns ≠ []) (hlen : ns.length ≤ 4)
    (hlt : ∀ n ∈ ns, n < 16) (hfirst : ns.head? = some 0 → ns = [0]) :
    Shortest (ns.map hexChar) (ns.foldl (fun a n => a * 16 + n) 0) where
  group := by
    refine ⟨by simpa using hne, by simpa using hlen, fun c hc => ?_, ?_⟩
    · obtain ⟨n, hn, rfl⟩ := List.mem_map.mp hc
      rw [(hexChar_spec n (hlt n hn)).1]
      rfl
    · rw [hexValue, List.foldl_map]
      refine List.foldl_ext _ _ _ fun a n hn => ?_
      rw [(hexChar_spec n (hlt n hn)).1]
      rfl
  lower c hc := by
    obtain ⟨n, hn, rfl⟩ := List.mem_map.mp hc
    exact (hexChar_spec n (hlt n hn)).2.1
  unpadded h := by
    cases ns with
    | nil => exact absurd rfl hne
    | cons n ns =>
      have hn := (hexChar_spec n (hlt n List.mem_cons_self)).2.2 (Option.some.inj h)
      subst hn
      rw [hfirst rfl]
      rfl

theorem shortest_writeGroup (h : v < 65536) : Shortest (writeGroup v) v := by
  rw [writeGroup_eq h]
  have hspec : ∀ ns : List Nat, ns ≠ [] → ns.length ≤ 4 → (∀ n ∈ ns, n < 16) →
      (ns.head? = some 0 → ns = [0]) → ns.foldl (fun a n => a * 16 + n) 0 = v →
      Shortest (ns.map hexChar) v := by
    rintro ns hne hlen hlt hfirst rfl
    exact shortest_hexChars hne hlen hlt hfirst
  split
  · refine hspec _ (by simp) (by simp) (by simp; omega) (fun h0 => ?_) (by simp; omega)
    rw [List.head?_cons, Option.some.injEq] at h0
    rw [h0]
  · split
    · exact hspec _ (by simp) (by simp) (by simp; omega) (by simp; omega) (by simp; omega)
    · split
      · exact hspec _ (by simp) (by simp) (by simp; omega) (by simp; omega) (by simp; omega)
      · exact hspec _ (by simp [nibbles]) (by simp [nibbles]) (by simp [nibbles]; omega)
          (by simp [nibbles]; omega) (by simp [nibbles]; omega)

/-! ## The run to collapse -/

/-- From `s` on, `l` groups are zero. -/
def ZeroRunAt (zeros : List Bool) (s l : Nat) : Prop :=
  ∀ i, s ≤ i → i < s + l → zeros[i]? = some true

structure FirstLongest (zeros : List Bool) (start len : Nat) : Prop where
  run : ZeroRunAt zeros start len
  longest : ∀ s l, ZeroRunAt zeros s l → l ≤ len
  first : ∀ s l, ZeroRunAt zeros s l → s < start → l < len

theorem zeroRunAt_append {zeros : List Bool} (h : ZeroRunAt (zeros ++ [b]) s l) :
    l = 0 ∨ ZeroRunAt zeros s l ∨
      b = true ∧ s + l = zeros.length + 1 ∧ ZeroRunAt zeros s (l - 1) := by
  have hin : ∀ i, i < zeros.length → (zeros ++ [b])[i]? = zeros[i]? :=
    fun i hi => List.getElem?_append_left hi
  rcases Nat.eq_zero_or_pos l with rfl | hl
  · exact .inl rfl
  have hlast := h (s + l - 1) (by omega) (by omega)
  have hbound := (List.getElem?_eq_some_iff.mp hlast).1
  rw [List.length_append, List.length_singleton] at hbound
  by_cases hend : s + l ≤ zeros.length
  · exact .inr (.inl fun i hi hi' => by rw [← hin i (by omega)]; exact h i hi hi')
  · refine .inr (.inr ⟨?_, by omega, fun i hi hi' => ?_⟩)
    · rw [show s + l - 1 = zeros.length by omega, List.getElem?_concat_length] at hlast
      exact Option.some.inj hlast
    · rw [← hin i (by omega)]
      exact h i hi (by omega)

theorem ZeroRunAt.append {zeros : List Bool} (h : ZeroRunAt zeros s l) (b : Bool) :
    ZeroRunAt (zeros ++ [b]) s l := fun i hi hi' => by
  have hat := h i hi hi'
  rw [List.getElem?_append_left (List.getElem?_eq_some_iff.mp hat).1]
  exact hat

theorem ZeroRunAt.end_le {zeros : List Bool} (h : ZeroRunAt zeros s l) (hl : 0 < l) :
    s + l ≤ zeros.length := by
  have := (List.getElem?_eq_some_iff.mp (h (s + l - 1) (by omega) (by omega))).1
  omega

/-- What the loop over the groups knows of those it has read. -/
structure ZeroRun.Good (zeros : List Bool) (r : ZeroRun) : Prop where
  current : ∀ s l, s + l = zeros.length → ZeroRunAt zeros s l → l ≤ r.curLen
  open_ : ∀ s, r.curStart = some s → s + r.curLen = zeros.length ∧ ZeroRunAt zeros s r.curLen
  closed : r.curStart = none → r.curLen = 0
  longest : ∀ s l, ZeroRunAt zeros s l → l ≤ r.bestLen
  best : ∀ s, r.bestStart = some s →
    0 < r.bestLen ∧ ZeroRunAt zeros s r.bestLen ∧
      ∀ s' l, ZeroRunAt zeros s' l → s' < s → l < r.bestLen
  some_best : 0 < r.bestLen → r.bestStart.isSome = true

theorem ZeroRun.good_nil : ZeroRun.Good [] {} where
  current s l h _ := by rw [List.length_nil] at h; omega
  open_ s h := by cases h
  closed _ := rfl
  longest s l h := by
    by_contra hl
    have := h.end_le (by omega)
    rw [List.length_nil] at this
    omega
  best s h := by cases h
  some_best h := absurd h (Nat.lt_irrefl 0)

theorem ZeroRun.Good.read_false (h : ZeroRun.Good zeros r) :
    ZeroRun.Good (zeros ++ [false]) (r.read zeros.length false) where
  current s l hend hrun := by
    rcases zeroRunAt_append hrun with rfl | hrun' | ⟨hb, -⟩
    · exact Nat.zero_le _
    · rw [List.length_append, List.length_singleton] at hend
      rcases Nat.eq_zero_or_pos l with rfl | hl
      · exact Nat.zero_le _
      · have := hrun'.end_le hl
        omega
    · cases hb
  open_ s hs := by cases hs
  closed _ := rfl
  longest s l hrun := by
    rcases zeroRunAt_append hrun with rfl | hrun' | ⟨hb, -⟩
    · exact Nat.zero_le _
    · exact h.longest s l hrun'
    · cases hb
  best s hs := by
    obtain ⟨hpos, hrun, hfirst⟩ := h.best s hs
    refine ⟨hpos, hrun.append false, fun s' l hrun' hlt => ?_⟩
    rcases zeroRunAt_append hrun' with rfl | hrun' | ⟨hb, -⟩
    · exact hpos
    · exact hfirst s' l hrun' hlt
    · cases hb
  some_best := h.some_best

theorem ZeroRun.Good.prolong (h : ZeroRun.Good zeros r) :
    ∃ s, s + (r.curLen + 1) = zeros.length + 1 ∧ ZeroRunAt (zeros ++ [true]) s (r.curLen + 1) ∧
      r.read zeros.length true =
        if r.curLen + 1 > r.bestLen then
          { r with curStart := some s, curLen := r.curLen + 1, bestLen := r.curLen + 1,
                   bestStart := some s }
        else { r with curStart := some s, curLen := r.curLen + 1 } := by
  have hlast : (zeros ++ [true])[zeros.length]? = some true := List.getElem?_concat_length
  cases hc : r.curStart with
  | none =>
    have hzero := h.closed hc
    rw [hzero]
    refine ⟨zeros.length, by omega, fun i hi hi' => ?_, ?_⟩
    · rw [show i = zeros.length by omega]
      exact hlast
    · simp only [read, if_true, hc, Nat.zero_add]
  | some s =>
    obtain ⟨hend, hrun⟩ := h.open_ s hc
    refine ⟨s, by omega, fun i hi hi' => ?_, ?_⟩
    · by_cases hi'' : i < s + r.curLen
      · exact hrun.append true i hi hi''
      · rw [show i = zeros.length by omega]
        exact hlast
    · simp only [read, if_true, hc]

theorem ZeroRun.Good.read_true (h : ZeroRun.Good zeros r) :
    ZeroRun.Good (zeros ++ [true]) (r.read zeros.length true) := by
  obtain ⟨st, hend, hrun, heq⟩ := h.prolong
  -- a run that ends here is no longer than the one that is going on
  have hcurrent : ∀ s l, s + l = zeros.length + 1 → ZeroRunAt (zeros ++ [true]) s l →
      l ≤ r.curLen + 1 := by
    intro s l hsl hrun'
    rcases Nat.eq_zero_or_pos l with rfl | hl
    · exact Nat.zero_le _
    rcases zeroRunAt_append hrun' with rfl | hrun' | ⟨-, -, hrun'⟩
    · exact Nat.zero_le _
    · have := hrun'.end_le hl
      omega
    · have := h.current s (l - 1) (by omega) hrun'
      omega
  have hsplit : ∀ s l, ZeroRunAt (zeros ++ [true]) s l →
      ZeroRunAt zeros s l ∨ s + l = zeros.length + 1 ∧ l ≤ r.curLen + 1 ∨ l = 0 := by
    intro s l hrun'
    rcases zeroRunAt_append hrun' with rfl | hrun'' | ⟨-, hsl, -⟩
    · exact .inr (.inr rfl)
    · exact .inl hrun''
    · exact .inr (.inl ⟨hsl, hcurrent s l hsl hrun'⟩)
  rw [heq]
  split
  · next hbest =>
    refine ⟨fun s l hsl hrun' => ?_, fun s hs => ?_, fun hs => (by cases hs), fun s l hrun' => ?_,
      fun s hs => ?_, fun _ => rfl⟩
    · rw [List.length_append, List.length_singleton] at hsl
      exact hcurrent s l hsl hrun'
    · cases hs
      exact ⟨by rw [List.length_append, List.length_singleton]; exact hend, hrun⟩
    · rcases hsplit s l hrun' with hrun' | ⟨-, hl⟩ | rfl
      · have := h.longest s l hrun'
        dsimp only
        omega
      · exact hl
      · exact Nat.zero_le _
    · cases hs
      refine ⟨Nat.succ_pos _, hrun, fun s' l hrun' hlt => ?_⟩
      dsimp only
      rcases hsplit s' l hrun' with hrun' | ⟨hsl, hl⟩ | rfl
      · have := h.longest s' l hrun'
        omega
      · omega
      · exact Nat.succ_pos _
  · next hbest =>
    refine ⟨fun s l hsl hrun' => ?_, fun s hs => ?_, fun hs => (by cases hs), fun s l hrun' => ?_,
      fun s hs => ?_, h.some_best⟩
    · rw [List.length_append, List.length_singleton] at hsl
      exact hcurrent s l hsl hrun'
    · cases hs
      exact ⟨by rw [List.length_append, List.length_singleton]; exact hend, hrun⟩
    · dsimp only
      rcases hsplit s l hrun' with hrun' | ⟨-, hl⟩ | rfl
      · exact h.longest s l hrun'
      · omega
      · exact Nat.zero_le _
    · obtain ⟨hpos, hrunBest, hfirst⟩ := h.best s hs
      refine ⟨hpos, hrunBest.append true, fun s' l hrun' hlt => ?_⟩
      have hbound := hrunBest.end_le hpos
      dsimp only at hpos ⊢
      rcases hsplit s' l hrun' with hrun' | ⟨hsl, hl⟩ | rfl
      · exact hfirst s' l hrun' hlt
      · omega
      · exact hpos

theorem good_foldl (zeros : List Bool) :
    ZeroRun.Good zeros (zeros.zipIdx.foldl (fun r x => r.read x.2 x.1) {}) := by
  induction zeros using List.reverseRecOn with
  | nil => exact ZeroRun.good_nil
  | append_singleton zeros b ih =>
    rw [List.zipIdx_append, List.foldl_append]
    simp only [List.zipIdx_singleton, List.foldl_cons, List.foldl_nil, Nat.zero_add]
    cases b with
    | false => exact ih.read_false
    | true => exact ih.read_true

theorem collapsed_spec (zeros : List Bool) :
    (collapsed zeros = none ∧ ∀ s l, ZeroRunAt zeros s l → l < 2) ∨
    ∃ start len, collapsed zeros = some (start, len) ∧ 2 ≤ len ∧ FirstLongest zeros start len := by
  have h := good_foldl zeros
  unfold collapsed
  dsimp only
  split
  · next hshort =>
    refine .inl ⟨rfl, fun s l hrun => ?_⟩
    have := h.longest s l hrun
    omega
  · next hlong =>
    obtain ⟨st, hst⟩ := Option.isSome_iff_exists.mp (h.some_best (by omega))
    obtain ⟨-, hrun, hfirst⟩ := h.best st hst
    exact .inr ⟨st, _, by rw [hst]; rfl, by omega, hrun, h.longest, hfirst⟩

theorem joinWith_cons_cons (sep : UInt8) (x y : List UInt8) (xs : List (List UInt8)) :
    joinWith sep (x :: y :: xs) = x ++ sep :: joinWith sep (y :: xs) := by
  simp [joinWith]

theorem dotted_joinWith {vs : List UInt8} (hne : vs ≠ []) :
    Dotted vs.length (joinWith dot (vs.map fun v => writeDecimal v.toNat)) vs := by
  induction vs with
  | nil => exact absurd rfl hne
  | cons v vs ih =>
    cases vs with
    | nil => simpa [joinWith] using Dotted.last (decOctet_writeDecimal v)
    | cons w vs =>
      rw [List.map_cons, List.map_cons, joinWith_cons_cons]
      exact .cons (decOctet_writeDecimal v) (ih (by simp))

theorem groups_joinWith {vs : List Nat} (hne : vs ≠ []) (hlt : ∀ v ∈ vs, v < 65536) :
    Groups (joinWith colon (vs.map writeGroup)) (vs.flatMap groupOctets) false := by
  induction vs with
  | nil => exact absurd rfl hne
  | cons v vs ih =>
    have hv := (shortest_writeGroup (hlt v List.mem_cons_self)).group
    cases vs with
    | nil => simpa [joinWith] using Groups.group hv
    | cons w vs =>
      rw [List.map_cons, List.map_cons, joinWith_cons_cons, List.flatMap_cons]
      exact .cons hv (ih (by simp) fun x hx => hlt x (List.mem_cons_of_mem _ hx))

theorem side_joinWith {vs : List Nat} (hlt : ∀ v ∈ vs, v < 65536) :
    Side (joinWith colon (vs.map writeGroup)) (vs.flatMap groupOctets) false := by
  by_cases hne : vs = []
  · subst hne
    exact .inl ⟨rfl, rfl, rfl⟩
  · exact .inr (groups_joinWith hne hlt)

theorem forall₂_writeGroup {vs : List Nat} (hlt : ∀ v ∈ vs, v < 65536) :
    List.Forall₂ Shortest (vs.map writeGroup) vs := by
  induction vs with
  | nil => exact .nil
  | cons v vs ih =>
    exact .cons (shortest_writeGroup (hlt v List.mem_cons_self))
      (ih fun x hx => hlt x (List.mem_cons_of_mem _ hx))

theorem groupOctets_pair (hi lo : UInt8) :
    (hi.toNat <<< 8 ||| lo.toNat) < 65536 ∧ groupOctets (hi.toNat <<< 8 ||| lo.toNat) =
      [hi, lo] := by
  have hhi := hi.toNat_lt
  have hlo := lo.toNat_lt
  have heq : hi.toNat <<< 8 ||| lo.toNat = hi.toNat * 256 + lo.toNat := by
    rw [Nat.shiftLeft_eq, Nat.mul_comm]
    exact (Nat.two_pow_add_eq_or_of_lt hlo hi.toNat).symm
  refine ⟨by omega, ?_⟩
  rw [groupOctets, heq, show (hi.toNat * 256 + lo.toNat) / 256 = hi.toNat by omega,
    show (hi.toNat * 256 + lo.toNat) % 256 = lo.toNat by omega, UInt8.ofNat_toNat,
      UInt8.ofNat_toNat]

theorem groupsOf_spec (os : List UInt8) (heven : os.length % 2 = 0) :
    (groupsOf os).flatMap groupOctets = os ∧ (∀ v ∈ groupsOf os, v < 65536) ∧
      2 * (groupsOf os).length = os.length := by
  induction os using groupsOf.induct with
  | case1 hi lo rest ih =>
    rw [List.length_cons, List.length_cons] at heven
    obtain ⟨hflat, hlt, hlen⟩ := ih (by omega)
    obtain ⟨hpair, hoctets⟩ := groupOctets_pair hi lo
    rw [groupsOf]
    refine ⟨?_, fun v hv => ?_, ?_⟩
    · rw [List.flatMap_cons, hflat, hoctets]
      rfl
    · rcases List.mem_cons.mp hv with rfl | hv
      · exact hpair
      · exact hlt v hv
    · rw [List.length_cons, List.length_cons, List.length_cons]
      omega
  | case2 os hos =>
    cases os with
    | nil => exact ⟨rfl, by simp [groupsOf], rfl⟩
    | cons x os =>
      cases os with
      | nil => cases heven
      | cons y os => exact absurd rfl (hos x y os)

theorem length_flatMap_groupOctets (vs : List Nat) :
    (vs.flatMap groupOctets).length = 2 * vs.length := by
  induction vs with
  | nil => rfl
  | cons v vs ih =>
    rw [List.flatMap_cons, List.length_append, ih, List.length_cons]
    simp [groupOctets]
    omega

theorem flatMap_of_run {gs : List Nat} (h : ZeroRunAt (gs.map (· = 0)) start len) :
    ((gs.drop start).take len).flatMap groupOctets = List.replicate (2 * len) 0 := by
  induction len generalizing start with
  | zero => rfl
  | succ len ih =>
    have hat := h start (Nat.le_refl _) (by omega)
    rw [List.getElem?_map] at hat
    obtain ⟨g, hg, hzero⟩ := Option.map_eq_some_iff.mp hat
    obtain ⟨hlt, hget⟩ := List.getElem?_eq_some_iff.mp hg
    have hg0 : gs[start] = 0 := by rw [hget]; simpa using hzero
    have hrun : ZeroRunAt (gs.map (· = 0)) (start + 1) len :=
      fun i hi hi' => h i (by omega) (by omega)
    have hrest := ih hrun
    rw [List.drop_eq_getElem_cons hlt, List.take_succ_cons, List.flatMap_cons, hg0, hrest,
      Nat.mul_succ, Nat.add_comm, List.replicate_add]
    rfl

/-- The text that RFC 5952 gives for an address: the first longest run of zero groups is collapsed
when it has two groups or more, and every other group is as short as it can be. -/
inductive Canonical (gs : List Nat) : List UInt8 → Prop where
  | plain : (∀ s l, ZeroRunAt (gs.map (· = 0)) s l → l < 2) → List.Forall₂ Shortest ts gs →
      Canonical gs (joinWith colon ts)
  | collapsed : 2 ≤ len → FirstLongest (gs.map (· = 0)) start len →
      List.Forall₂ Shortest hs (gs.take start) → List.Forall₂ Shortest ls (gs.drop (start + len)) →
      Canonical gs (joinWith colon hs ++ [colon, colon] ++ joinWith colon ls)

/-- Printing eight groups gives their canonical text, which stands for their octets. -/
theorem formatV6_spec {gs : List Nat} (hlt : ∀ v ∈ gs, v < 65536) (hlen : gs.length = 8) :
    Canonical gs (formatV6 gs) ∧ IPv6Text (formatV6 gs) (gs.flatMap groupOctets) := by
  have htake : ∀ n, ∀ v ∈ gs.take n, v < 65536 := fun n v hv => hlt v (List.mem_of_mem_take hv)
  have hdrop : ∀ n, ∀ v ∈ gs.drop n, v < 65536 := fun n v hv => hlt v (List.mem_of_mem_drop hv)
  unfold formatV6
  rcases collapsed_spec (gs.map (· = 0)) with ⟨hnone, hshort⟩ | ⟨start, len, hsome, hlong, hbest⟩
  · rw [hnone]
    refine ⟨.plain hshort (forall₂_writeGroup hlt), .full (groups_joinWith ?_ hlt) ?_⟩
    · rintro rfl
      cases hlen
    · rw [length_flatMap_groupOctets, hlen]
  · rw [hsome]
    refine ⟨.collapsed hlong hbest (forall₂_writeGroup (htake _))
      (forall₂_writeGroup (hdrop _)), ?_⟩
    have hend := hbest.run.end_le (by omega)
    rw [List.length_map, hlen] at hend
    have hh : ((gs.take start).flatMap groupOctets).length = 2 * start := by
      rw [length_flatMap_groupOctets, List.length_take]
      omega
    have hl : ((gs.drop (start + len)).flatMap groupOctets).length = 16 - 2 * (start + len) := by
      rw [length_flatMap_groupOctets, List.length_drop]
      omega
    have htext := IPv6Text.compressed (side_joinWith (htake start))
      (side_joinWith (hdrop (start + len)))
      (by rw [hh, hl]; omega)
    have hgs : gs.flatMap groupOctets = (gs.take start).flatMap groupOctets ++
        List.replicate (2 * len) 0 ++ (gs.drop (start + len)).flatMap groupOctets := by
      rw [← flatMap_of_run hbest.run, ← List.flatMap_append, ← List.flatMap_append,
        ← List.drop_drop,
        List.append_assoc, List.take_append_drop, List.take_append_drop]
    rw [hh, hl, show 16 - (2 * start + (16 - 2 * (start + len))) = 2 * len by omega] at htext
    rw [hgs]
    simpa using htext

/-!
## What parsing and printing an address guarantee

A text that is not overfull is parsed exactly: the parse stays inside its buffers, and it succeeds
when the text denotes an address. Every address prints its canonical text, which parses back.
-/

/-- Parsing stays inside the text and the buffers, and accepts what denotes an address. -/
structure ExactlyParsed (t : List UInt8) : Prop where
  safe : IpAddress.parse (some t) ≠ .error .outOfBounds
  finished : IpAddress.parse (some t) ≠ .error .outOfFuel
  exact : ∀ a, IpAddress.parse (some t) = .ok a ↔ Denotes t a

theorem Malformed.ne_outOfBounds (h : Malformed x) : x ≠ .error .outOfBounds := by
  obtain ⟨reason, position, rfl⟩ := h
  intro heq
  cases heq

theorem Malformed.ne_outOfFuel (h : Malformed x) : x ≠ .error .outOfFuel := by
  obtain ⟨reason, position, rfl⟩ := h
  intro heq
  cases heq

theorem Malformed.ne_ok {x : Parse α} (h : Malformed x) (a : α) : x ≠ .ok a := by
  obtain ⟨reason, position, rfl⟩ := h
  intro heq
  cases heq

theorem exactlyParsed_iff (t : List UInt8) : ExactlyParsed t ↔ ¬Overfull t := by
  constructor
  · intro h hover
    rcases parse_outcome t with ⟨a, -, hno, -⟩ | ⟨-, hparse⟩ | ⟨-, -, hno⟩
    · exact hno hover
    · exact h.safe hparse
    · exact hno hover
  · intro hno
    rcases parse_outcome t with ⟨a, ha, -, hparse⟩ | ⟨hover, -⟩ | ⟨hbad, hnot, -⟩
    · refine ⟨?_, ?_, fun a' => ?_⟩
      · rw [hparse]
        intro heq
        cases heq
      · rw [hparse]
        intro heq
        cases heq
      · rw [hparse, Except.ok.injEq]
        exact ⟨fun heq => heq ▸ ha, fun ha' => ha.unique ha'⟩
    · exact absurd hover hno
    · exact ⟨hbad.ne_outOfBounds, hbad.ne_outOfFuel,
        fun a => ⟨fun h => absurd h (hbad.ne_ok a), fun h => absurd h (hnot a)⟩⟩

structure PrintsCanonically (a : IpAddress) : Prop where
  parsesBack : ∃ a', IpAddress.parse (some a.toString) = .ok a' ∧ a'.equals a = true
  quad : a.family = .v4 → Quad a.toString a.used
  canonical : a.family = .v6 → Canonical (groupsOf a.octets.toList) a.toString
  same : ∀ a', a.equals a' = true → a.toString = a'.toString

theorem used_v4 {a : IpAddress} (h : a.family = .v4) : a.used = a.octets.toList.take 4 := by
  rw [IpAddress.used, IpAddress.isV4, if_pos (by simpa using h)]

theorem used_v6 {a : IpAddress} (h : a.family = .v6) : a.used = a.octets.toList := by
  rw [IpAddress.used, IpAddress.isV4, if_neg (by rw [h]; decide),
    List.take_of_length_le (Nat.le_of_eq a.octets.length_toList)]

theorem toString_v4 {a : IpAddress} (h : a.family = .v4) : Quad a.toString a.used := by
  have hlen : a.used.length = 4 := by
    rw [used_v4 h, List.length_take, Vector.length_toList]
    rfl
  have hne : a.used ≠ [] := by
    rw [← List.length_pos_iff, hlen]
    decide
  have hquad := dotted_joinWith hne
  rw [hlen] at hquad
  rw [IpAddress.toString, IpAddress.isV4, if_pos (by simpa using h)]
  exact hquad

theorem toString_v6 {a : IpAddress} (h : a.family = .v6) :
    Canonical (groupsOf a.octets.toList) a.toString ∧ IPv6Text a.toString a.octets.toList := by
  obtain ⟨hflat, hlt, hlen⟩ := groupsOf_spec a.octets.toList (by rw [Vector.length_toList])
  rw [Vector.length_toList] at hlen
  have hspec := formatV6_spec hlt (by omega)
  rw [hflat] at hspec
  rw [IpAddress.toString, IpAddress.isV4, if_neg (by rw [h]; decide)]
  exact hspec

theorem denotes_toString (a : IpAddress) : ∃ a', Denotes a.toString a' ∧ a'.equals a = true := by
  cases hfam : a.family with
  | v4 =>
    have hlen : (a.used ++ List.replicate 12 0).toArray.size = 16 := by
      simp [used_v4 hfam]
    refine ⟨⟨.v4, ⟨(a.used ++ List.replicate 12 0).toArray, hlen⟩⟩,
      .v4 (toString_v4 hfam) rfl rfl, ?_⟩
    have hused : a.used.length = 4 := by simp [used_v4 hfam]
    rw [IpAddress.equals, used_v4 (a := ⟨.v4, _⟩) rfl, hfam]
    simp [Vector.toList, List.take_left' hused]
  | v6 =>
    exact ⟨a, .v6 (toString_v6 hfam).2 hfam rfl, by simp [IpAddress.equals]⟩

theorem printsCanonically (a : IpAddress) : PrintsCanonically a where
  parsesBack := by
    obtain ⟨a', ha', heq⟩ := denotes_toString a
    exact ⟨a', (((exactlyParsed_iff _).mpr ha'.not_overfull).exact a').mpr ha', heq⟩
  quad := toString_v4
  canonical h := (toString_v6 h).1
  same a' h := by
    rw [IpAddress.equals, Bool.and_eq_true, decide_eq_true_eq, decide_eq_true_eq] at h
    obtain ⟨hfam, hused⟩ := h
    cases hf : a.family with
    | v4 =>
      have hf' := hfam.symm.trans hf
      rw [IpAddress.toString, IpAddress.toString, IpAddress.isV4, IpAddress.isV4, hf, hf', hused]
      rfl
    | v6 =>
      have hf' := hfam.symm.trans hf
      rw [used_v6 hf, used_v6 hf'] at hused
      rw [IpAddress.toString, IpAddress.toString, IpAddress.isV4, IpAddress.isV4, hf, hf', hused]
      rfl

/-- Parsing is exact and safe, and printing is its inverse, for the texts that are not overfull. -/
theorem exact_and_canonical (t : List UInt8) (a : IpAddress) :
    ExactlyParsed t ∧ PrintsCanonically a ↔ ¬Overfull t :=
  ⟨fun h => (exactlyParsed_iff t).mp h.1, fun h => ⟨(exactlyParsed_iff t).mpr h,
    printsCanonically a⟩⟩

/-- The bytes of `1:2:3:4:5:6:7:1.2.3.4`. -/
def sevenGroupsAndQuad : List UInt8 :=
  [49, 58, 50, 58, 51, 58, 52, 58, 53, 58, 54, 58, 55, 58, 49, 46, 50, 46, 51, 46, 52]

/-- The quad after seven groups is written past the end of the sixteen octets. -/
theorem quad_after_seven_groups : ¬ExactlyParsed sevenGroupsAndQuad := by
  intro h
  have hgroup : ∀ c : UInt8, (hexDigit c).isSome = true → HexGroup [c] (hexValue [c]) :=
    fun c hc => ⟨by simp, by simp, by simpa using hc, rfl⟩
  have hoctet : ∀ c : UInt8, (decDigit c).isSome = true → decValue [c] ≤ 255 →
      DecOctet [c] (UInt8.ofNat (decValue [c])) :=
    fun c hc hle => decOctet_of_digits (by simp) (by simp) (by simpa using hc) hle
  have hquad : Quad ([49] ++ dot :: ([50] ++ dot :: ([51] ++ dot :: [52]))) _ :=
    .cons (hoctet 49 rfl (by decide)) (.cons (hoctet 50 rfl (by decide))
      (.cons (hoctet 51 rfl (by decide)) (.last (hoctet 52 rfl (by decide)))))
  have hgroups := Groups.cons (hgroup 49 rfl) (.cons (hgroup 50 rfl) (.cons (hgroup 51 rfl)
    (.cons (hgroup 52 rfl) (.cons (hgroup 53 rfl) (.cons (hgroup 54 rfl)
      (.cons (hgroup 55 rfl) (.quad hquad)))))))
  have hover : Overfull sevenGroupsAndQuad :=
    ⟨_, _, hgroups, by simp [groupOctets], by simp [groupOctets], .inl rfl⟩
  exact (exactlyParsed_iff _).mp h hover

end Cajeta.Net
