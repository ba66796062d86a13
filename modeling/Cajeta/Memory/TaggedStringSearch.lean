import Cajeta.Memory.TaggedStringText
import Cajeta.Lib.Substring
import Mathlib.Data.List.Infix

/-!
# Search and replacement in tagged strings

`index_of` looks for the first byte of the pattern, and then at the last one before it compares what
is between them. `replace` goes over the subject twice: to count the occurrences, which gives the
size of the buffer, and to fill the buffer.
-/

namespace Cajeta.Memory.TaggedString

/-- `memchr` over the `n` bytes at `p` -/
def memchr (h : Text) (p n : Nat) (c : UInt8) : Option Nat :=
  ((Bytes.slice h p n).findIdx? (· = c)).map (p + ·)

/-- The loop of `__cajeta_string_index_of` at `p`, up to the last place `lim` that has room for the
needle. -/
def searchFrom (h nd : Text) (first last : UInt8) (lim : Nat) : (fuel p : Nat) → Option Int
  | 0, _ => none
  | fuel + 1, p =>
    if p ≤ lim then
      match memchr h p (lim - p + 1) first with
      | none => some (-1)
      | some c => do
        let b ← h[c + nd.length - 1]?
        if b = last ∧ (nd.length ≤ 2 ∨
            Bytes.slice h (c + 1) (nd.length - 2) = Bytes.slice nd 1 (nd.length - 2)) then
          some c
        else searchFrom h nd first last lim fuel (c + 1)
    else some (-1)

/-- `__cajeta_string_index_of`, `none` if it reads outside of the strings. -/
def indexOf (m : Heap) (s : Layout) (n : Option Layout) (start : Int) : Option Int :=
  match n with
  | none => some (-1)
  | some n =>
    let start := if start < 0 then 0 else start
    if n.len = 0 then some (if start ≤ s.len then start else -1)
    else if (n.len : Int) > s.len - start then some (-1)
    else do
      let h ← s.read m 0 s.len
      let nd ← n.read m 0 n.len
      let first ← nd[0]?
      let last ← nd[n.len - 1]?
      searchFrom h nd first last (s.len - n.len) (s.len + 1) start.toNat

/-- The comparison in both passes, where there is room for the pattern. -/
def matchesAt (h fd : Text) (i : Nat) : Option Bool := do
  let b ← h[i]?
  let f ← fd[0]?
  return b = f ∧ Bytes.slice h i fd.length = fd

/-- The counting pass of `__cajeta_string_replace`. -/
def countFrom (h fd : Text) : (fuel i : Nat) → Option Nat
  | 0, _ => none
  | fuel + 1, i =>
    if i + fd.length ≤ h.length then do
      if ← matchesAt h fd i then
        let count ← countFrom h fd fuel (i + fd.length)
        return count + 1
      else countFrom h fd fuel (i + 1)
    else some 0

/-- The comparison in the filling pass, which looks for the room itself. -/
def hits (h fd : Text) (i : Nat) : Option Bool :=
  if i + fd.length ≤ h.length then matchesAt h fd i else some false

/-- `bytes` are written at `w`. -/
def put (dst : Text) (w : Nat) (bytes : Text) : Option Text :=
  if w + bytes.length ≤ dst.length then some (Bytes.patch dst w bytes) else none

/-- The filling pass of `__cajeta_string_replace`: the buffer, and how much was written. -/
def fillFrom (h fd rd : Text) : (fuel i w : Nat) → (dst : Text) → Option (Text × Nat)
  | 0, _, _, _ => none
  | fuel + 1, i, w, dst =>
    if i < h.length then do
      if ← hits h fd i then
        let dst ← put dst w rd
        fillFrom h fd rd fuel (i + fd.length) (w + rd.length) dst
      else
        let b ← h[i]?
        let dst ← put dst w [b]
        fillFrom h fd rd fuel (i + 1) (w + 1) dst
    else some (dst, w)

/-- An array header over `bytes`, with its count. -/
def Heap.newBuffer (m : Heap) (buf : Addr) (count : Int) (bytes : Text) : Heap :=
  ⟨Function.update m.roots buf (some ⟨BitVec.ofInt 64 count, bytes, none, false⟩)⟩

/-- `__cajeta_string_replace`: `some none` is NULL, no change. -/
def replace (env : Env) (m : Heap) (s : Layout) (f r : Option Layout) :
    Option (Option (Heap × Layout)) :=
  match f, r with
  | some f, some r =>
    if f.len = 0 then some none
    else do
      let h ← s.read m 0 s.len
      let fd ← f.read m 0 f.len
      let rd ← r.read m 0 r.len
      let count ← countFrom h fd (s.len + 1) 0
      if count = 0 then some none
      else
        let outLen : Int := s.len + count * (r.len - f.len)
        if outLen ≤ inlineCap then do
          let (dst, _) ← fillFrom h fd rd (s.len + 1) 0 0 (List.replicate inlineCap 0)
          let out ← Layout.setInline (dst.take outLen.toNat)
          return some (m, out)
        else do
          let (dst, _) ← fillFrom h fd rd (s.len + 1) 0 0 (List.replicate (outLen.toNat + 1) 0)
          return some (m.newBuffer env.buf outLen dst,
            .setWindow (BitVec.ofInt 32 outLen) 0 env.buf)
  | _, _ => some none

def OccursAt (text pat : Text) (i : Nat) : Prop := i ≤ text.length ∧ pat <+: text.drop i

/-- The least place at or after the start where the pattern occurs, or -1. -/
def IsIndex (text pat : Text) (start i : Int) : Prop :=
  (∃ p : Nat, i = p ∧ start ≤ p ∧ OccursAt text pat p ∧
    ∀ q < p, start ≤ (q : Nat) → ¬OccursAt text pat q) ∨
  i = -1 ∧ ∀ p : Nat, start ≤ p → ¬OccursAt text pat p

def Replaces (m : Heap) (text out : Text) : Option (Option (Heap × Layout)) → Prop
  | none => False
  | some none => out = text
  | some (some (m', s)) => m.Le m' ∧ Denotes m' s out

/-- The two passes agree on the size. -/
def SizesAgree (text pat repl : Text) : Prop :=
  ∃ count, countFrom text pat (text.length + 1) 0 = some count ∧
    ∀ dst : Text, (dst.length : Int) ≥ text.length + count * (repl.length - pat.length) →
      ∃ dst' w, fillFrom text pat repl (text.length + 1) 0 0 dst = some (dst', w) ∧
        (w : Int) = text.length + count * (repl.length - pat.length)

/-! ## Search -/

theorem slice_eq_iff_prefix {h nd : Text} : Bytes.slice h i nd.length = nd ↔ nd <+: h.drop i := by
  rw [Bytes.slice, List.prefix_iff_eq_take, eq_comm]

theorem memchr_none (hm : memchr h p n c = none) (hj : p ≤ j)
    (hjn : j < p + n) : h[j]? ≠ some c := by
  intro hc
  rw [memchr, Option.map_eq_none_iff, List.findIdx?_eq_none_iff] at hm
  have hmem : c ∈ Bytes.slice h p n := by
    refine List.mem_iff_getElem?.mpr ⟨j - p, ?_⟩
    rw [Bytes.slice, List.getElem?_take, if_pos (by omega), List.getElem?_drop,
      Nat.add_sub_cancel' hj, hc]
  have := hm c hmem
  simp at this

theorem memchr_some (hm : memchr h p n c = some i) :
    p ≤ i ∧ i < p + n ∧ h[i]? = some c ∧ ∀ j, p ≤ j → j < i → h[j]? ≠ some c := by
  obtain ⟨k, hk, rfl⟩ := Option.map_eq_some_iff.mp hm
  obtain ⟨hlt, hc, hbefore⟩ := List.findIdx?_eq_some_iff_getElem.mp hk
  have hlen := Bytes.length_slice_le h p n
  have hget : ∀ j, (hj : j < (Bytes.slice h p n).length) →
      h[p + j]? = some (Bytes.slice h p n)[j] := by
    intro j hj
    rw [← List.getElem?_eq_getElem hj, Bytes.slice, List.getElem?_take, if_pos (by omega),
      List.getElem?_drop]
  refine ⟨Nat.le_add_right .., by omega, ?_, fun j hpj hj hc' => ?_⟩
  · rw [hget k hlt]
    exact congrArg some (of_decide_eq_true hc)
  · have hb := hbefore (j - p) (by omega)
    have hj' := hget (j - p) (by omega)
    rw [Nat.add_sub_cancel' hpj, hc', Option.some.injEq] at hj'
    exact hb (decide_eq_true hj'.symm)

theorem occurs_iff {h nd : Text} (hfirst : nd[0]? = some first)
    (hlast : nd[nd.length - 1]? = some last)
    (hc : h[c]? = some first) :
    nd <+: h.drop c ↔ h[c + nd.length - 1]? = some last ∧ (nd.length ≤ 2 ∨
      Bytes.slice h (c + 1) (nd.length - 2) = Bytes.slice nd 1 (nd.length - 2)) := by
  have hpos : 0 < nd.length := (List.getElem?_eq_some_iff.mp hfirst).1
  rw [List.prefix_iff_getElem?]
  constructor
  · intro hp
    have hall : ∀ j, j < nd.length → h[c + j]? = nd[j]? := by
      intro j hj
      rw [← List.getElem?_drop, hp j hj, List.getElem?_eq_getElem hj]
    refine ⟨?_, .inr (List.ext_getElem? fun j => ?_)⟩
    · rw [← hlast, ← hall _ (by omega), Nat.add_sub_assoc hpos]
    · simp only [Bytes.slice, List.getElem?_take, List.getElem?_drop]
      split
      · rw [Nat.add_assoc, hall _ (by omega)]
      · rfl
  · rintro ⟨hl, hmid⟩ j hj
    rw [List.getElem?_drop, ← List.getElem?_eq_getElem hj]
    rcases Nat.eq_zero_or_pos j with rfl | hj0
    · rw [Nat.add_zero, hc, hfirst]
    · rcases Nat.lt_or_ge j (nd.length - 1) with hjl | hjl
      · rcases hmid with hshort | hmid
        · omega
        · have heq := congrArg (·[j - 1]?) hmid
          simp only [Bytes.slice, List.getElem?_take, List.getElem?_drop] at heq
          rw [if_pos (by omega), if_pos (by omega)] at heq
          rwa [show c + 1 + (j - 1) = c + j by omega, show 1 + (j - 1) = j by omega] at heq
      · obtain rfl : j = nd.length - 1 := by omega
        rw [hlast, ← hl, Nat.add_sub_assoc hpos]

theorem OccursAt.starts {h nd : Text} (hfirst : nd[0]? = some first) (ho : OccursAt h nd q) :
    h[q]? = some first ∧ q + nd.length ≤ h.length := by
  have hpos : 0 < nd.length := (List.getElem?_eq_some_iff.mp hfirst).1
  have hlen := ho.2.length_le
  rw [List.length_drop] at hlen
  have hq := List.prefix_iff_getElem?.mp ho.2 0 hpos
  rw [List.getElem?_drop, Nat.add_zero, ← List.getElem?_eq_getElem hpos, hfirst] at hq
  exact ⟨hq, by omega⟩

theorem IsIndex.skip {p p' : Nat} (hi : IsIndex text pat p' i) (hp : p ≤ p')
    (hnot : ∀ q, p ≤ q → q < p' → ¬OccursAt text pat q) : IsIndex text pat p i := by
  rcases hi with ⟨c, rfl, hc, ho, hleast⟩ | ⟨rfl, hnone⟩
  · refine .inl ⟨c, rfl, by omega, ho, fun q hq hpq => ?_⟩
    rcases Nat.lt_or_ge q p' with h | h
    · exact hnot q (by omega) h
    · exact hleast q hq (by omega)
  · refine .inr ⟨rfl, fun q hpq => ?_⟩
    rcases Nat.lt_or_ge q p' with h | h
    · exact hnot q (by omega) h
    · exact hnone q (by omega)

theorem searchFrom_isIndex {h nd : Text} (hfirst : nd[0]? = some first)
    (hlast : nd[nd.length - 1]? = some last) (hlim : lim + nd.length = h.length)
    (hfuel : lim + 1 < p + fuel) (hpos : 0 < fuel) :
    ∃ i, searchFrom h nd first last lim fuel p = some i ∧ IsIndex h nd p i := by
  have hnd : 0 < nd.length := (List.getElem?_eq_some_iff.mp hfirst).1
  induction fuel generalizing p with
  | zero => omega
  | succ fuel ih =>
    rw [searchFrom]
    split <;> rename_i hp
    · cases hm : memchr h p (lim - p + 1) first with
      | none =>
        refine ⟨-1, rfl, .inr ⟨rfl, fun q hq ho => ?_⟩⟩
        obtain ⟨hq', hroom⟩ := ho.starts hfirst
        exact memchr_none hm (by omega) (by omega) hq'
      | some c =>
        obtain ⟨hpc, hcl, hc, hbefore⟩ := memchr_some hm
        have hfit : c + nd.length ≤ h.length := by omega
        obtain ⟨b, hb⟩ : ∃ b, h[c + nd.length - 1]? = some b :=
          ⟨_, List.getElem?_eq_getElem (by omega)⟩
        have hiff := occurs_iff hfirst hlast hc
        rw [hb, Option.some.injEq] at hiff
        have hnot : ∀ q, p ≤ q → q < c → ¬OccursAt h nd q := fun q hpq hq ho =>
          hbefore q hpq hq (ho.starts hfirst).1
        simp only [hb, bind, Option.bind_some]
        split <;> rename_i hhit
        · exact ⟨c, rfl, .inl ⟨c, rfl, by omega, ⟨by omega, hiff.mpr hhit⟩, fun q hq hpq =>
            hnot q (by omega) hq⟩⟩
        · have hskip : ∀ q, p ≤ q → q < c + 1 → ¬OccursAt h nd q := by
            intro q hpq hq ho
            rcases Nat.lt_or_ge q c with hqc | hqc
            · exact hnot q hpq hqc ho
            · obtain rfl : q = c := by omega
              exact hhit (hiff.mp ho.2)
          obtain ⟨i, hi, hidx⟩ := ih (p := c + 1) (by omega) (by omega)
          exact ⟨i, hi, hidx.skip (by omega) hskip⟩
    · refine ⟨-1, rfl, .inr ⟨rfl, fun q hq ho => ?_⟩⟩
      obtain ⟨-, hroom⟩ := ho.starts hfirst
      omega

theorem Denotes.read_all {m : Heap} (h : Denotes m s text) : s.read m 0 s.len = some text := by
  have hread := h.read (b := 0) (n := s.len) (by rw [h.len]; omega)
  rw [h.len, slice_zero] at hread
  rwa [h.len]

theorem indexOf_isIndex {m : Heap} (hs : Denotes m s text) (hn : Denotes m n pat) (start : Int) :
    ∃ i, indexOf m s (some n) start = some i ∧ IsIndex text pat (max start 0) i := by
  have hmax : (if start < 0 then 0 else start) = max start 0 := by
    split <;> omega
  unfold indexOf
  simp only [hmax]
  have h0 : 0 ≤ max start 0 := Int.le_max_right ..
  generalize max start 0 = p at h0
  obtain ⟨p, rfl⟩ := Int.eq_ofNat_of_zero_le h0
  rw [hs.len, hn.len]
  split <;> rename_i hempty
  · obtain rfl : pat = [] := List.length_eq_zero_iff.mp hempty
    split <;> rename_i hle
    · exact ⟨p, rfl, .inl ⟨p, rfl, Int.le_refl _, ⟨by omega, List.nil_prefix⟩, fun q hq hpq => by
        omega⟩⟩
    · exact ⟨-1, rfl, .inr ⟨rfl, fun q hq ho => by have := ho.1; omega⟩⟩
  · have hfirst : pat[0]? = some pat[0] := List.getElem?_eq_getElem (by omega)
    have hlast : pat[pat.length - 1]? = some pat[pat.length - 1] :=
      List.getElem?_eq_getElem (by omega)
    split <;> rename_i hroom
    · refine ⟨-1, rfl, .inr ⟨rfl, fun q hq ho => ?_⟩⟩
      have := (ho.starts hfirst).2
      omega
    · have hhs := hs.read_all
      have hhn := hn.read_all
      rw [hs.len] at hhs
      rw [hn.len] at hhn
      simp only [hhs, hhn, hfirst, hlast, bind, Option.bind_some]
      exact searchFrom_isIndex hfirst hlast (by omega) (by simp; omega) (by omega)

/-! ## Replacement -/

open Substring

theorem matchesAt_eq {h fd : Text} (hne : fd ≠ []) (hfit : i + fd.length ≤ h.length) :
    matchesAt h fd i = some (decide (fd <+: h.drop i)) := by
  have hpos := List.length_pos_iff.mpr hne
  have hb : h[i]? = some h[i] := List.getElem?_eq_getElem (by omega)
  have hf : fd[0]? = some fd[0] := List.getElem?_eq_getElem hpos
  unfold matchesAt
  simp only [hb, hf, bind, Option.bind_some, pure]
  congr 1
  rw [decide_eq_decide, slice_eq_iff_prefix]
  refine ⟨fun h => h.2, fun hp => ⟨?_, hp⟩⟩
  have hi := List.prefix_iff_getElem?.mp hp 0 hpos
  rw [List.getElem?_drop, Nat.add_zero, hb] at hi
  exact Option.some.inj hi

theorem hits_eq {h fd : Text} (hne : fd ≠ []) (hi : i ≤ h.length) :
    hits h fd i = some (decide (fd <+: h.drop i)) := by
  unfold hits
  split <;> rename_i hfit
  · exact matchesAt_eq hne hfit
  · congr 1
    refine (decide_eq_false fun hp => ?_).symm
    have := hp.length_le
    rw [List.length_drop] at this
    omega

theorem drop_eq_cons {h : Text} (hi : i < h.length) : h.drop i = h[i] :: h.drop (i + 1) :=
  List.drop_eq_getElem_cons hi

theorem countFrom_eq {h fd : Text} (hne : fd ≠ []) (hi : i ≤ h.length)
    (hfuel : h.length < i + fuel) :
    countFrom h fd fuel i = some (occurrences fd (h.drop i)) := by
  have hpos := List.length_pos_iff.mpr hne
  induction fuel generalizing i with
  | zero => omega
  | succ fuel ih =>
    rw [countFrom]
    split <;> rename_i hfit
    · rw [matchesAt_eq hne hfit]
      simp only [bind, Option.bind_some]
      split <;> rename_i hp
      · have hp := of_decide_eq_true hp
        rw [ih hfit (by omega), occurrences_of_match hne hp, List.drop_drop]
        rfl
      · have hp : ¬fd <+: h.drop i := fun h' => hp (decide_eq_true h')
        rw [ih (by omega) (by omega)]
        rw [drop_eq_cons (i := i) (by omega)] at hp ⊢
        rw [occurrences_of_no_match hp]
    · rw [occurrences_of_short]
      rw [List.length_drop]
      omega

theorem put_append {done rest : Text} (h : bytes.length ≤ rest.length) :
    put (done ++ rest) done.length bytes =
      some (done ++ bytes ++ rest.drop bytes.length) := by
  rw [put, if_pos (by rw [List.length_append]; omega)]
  have hsplit : done ++ rest = done ++ rest.take bytes.length ++ rest.drop bytes.length := by
    rw [List.append_assoc, List.take_append_drop]
  rw [hsplit, Bytes.patch_append]
  rw [List.length_take, Nat.min_eq_left h]

/-- The filling pass writes the replaced text behind what is done, and nothing else. -/
theorem fillFrom_eq {h fd rd done rest : Text} (hne : fd ≠ []) (hi : i ≤ h.length)
    (hfuel : h.length < i + fuel) (hroom : (replaced fd rd (h.drop i)).length ≤ rest.length) :
    fillFrom h fd rd fuel i done.length (done ++ rest) =
      some (done ++ replaced fd rd (h.drop i) ++ rest.drop (replaced fd rd (h.drop i)).length,
        done.length + (replaced fd rd (h.drop i)).length) := by
  have hpos := List.length_pos_iff.mpr hne
  induction fuel generalizing i done rest with
  | zero => omega
  | succ fuel ih =>
    rw [fillFrom]
    split <;> rename_i hlt
    · rw [hits_eq hne (Nat.le_of_lt hlt)]
      simp only [bind, Option.bind_some]
      by_cases hp : fd <+: h.drop i
      · have hlen := hp.length_le
        rw [List.length_drop] at hlen
        rw [replaced_of_match rd hne hp, List.drop_drop, List.length_append] at hroom ⊢
        have hstep : fillFrom h fd rd fuel (i + fd.length) (done ++ rd).length
            (done ++ rd ++ rest.drop rd.length) = _ :=
          ih (by omega) (by omega) (by rw [List.length_drop]; omega)
        rw [if_pos (decide_eq_true hp), put_append (by omega)]
        rw [List.length_append] at hstep
        simp only [Option.bind_some]
        rw [hstep, List.drop_drop]
        simp only [List.append_assoc, Nat.add_assoc]
      · have hb : h[i]? = some h[i] := List.getElem?_eq_getElem hlt
        rw [drop_eq_cons hlt] at hp hroom ⊢
        rw [replaced_of_no_match rd hp, List.length_cons] at hroom ⊢
        have hstep : fillFrom h fd rd fuel (i + 1) (done ++ [h[i]]).length
            (done ++ [h[i]] ++ rest.drop 1) = _ :=
          ih (by omega) (by omega) (by rw [List.length_drop]; omega)
        rw [if_neg (by simpa using hp), hb]
        simp only [Option.bind_some]
        rw [put_append (by rw [List.length_singleton]; omega)]
        rw [List.length_append, List.length_singleton] at hstep
        simp only [Option.bind_some, List.length_singleton]
        rw [hstep, List.drop_drop]
        simp only [List.append_assoc, List.singleton_append, Nat.add_assoc, Nat.add_comm 1]
    · have hnil : h.drop i = [] := List.drop_eq_nil_of_le (by omega)
      simp [hnil]

theorem outLen_eq (text pat repl : Text) :
    (text.length : Int) + (occurrences pat text : Nat) * (repl.length - pat.length) =
      (replaced pat repl text).length := by
  have h := length_replaced pat repl text
  rw [Int.mul_sub]
  have hr : ((occurrences pat text : Nat) : Int) * repl.length =
    (occurrences pat text * repl.length : Nat) := (Int.natCast_mul ..).symm
  have hp : ((occurrences pat text : Nat) : Int) * pat.length =
    (occurrences pat text * pat.length : Nat) := (Int.natCast_mul ..).symm
  rw [hr, hp]
  omega

theorem fill_all {text pat : Text} (repl dst : Text) (hne : pat ≠ [])
    (hroom : (replaced pat repl text).length ≤ dst.length) :
    fillFrom text pat repl (text.length + 1) 0 0 dst =
      some (replaced pat repl text ++ dst.drop (replaced pat repl text).length,
        (replaced pat repl text).length) := by
  have h : fillFrom text pat repl (text.length + 1) 0 ([] : Text).length ([] ++ dst) = _ :=
    fillFrom_eq hne (Nat.zero_le _) (by omega) hroom
  simpa using h

theorem sizesAgree {text pat : Text} (repl : Text) (hne : pat ≠ []) : SizesAgree text pat repl := by
  refine ⟨occurrences pat text, countFrom_eq (i := 0) hne (Nat.zero_le _) (by omega),
    fun dst hdst => ?_⟩
  rw [outLen_eq] at hdst ⊢
  exact ⟨_, _, fill_all repl dst hne (by omega), rfl⟩

theorem newRoot_other {m : Heap} (h : a ≠ buf) : (m.newRoot buf text).roots a = m.roots a :=
  Function.update_of_ne h _ _

theorem newBuffer_eq (m : Heap) (buf : Addr) (text : Text) :
    m.newBuffer buf text.length (text ++ [0]) = m.newRoot buf text := by
  rw [Heap.newBuffer, Heap.newRoot, BitVec.ofInt_natCast]

theorem Denotes.fits {m : Heap} (h : Denotes m s text) : text.length ≤ 536870911 := by
  rw [← h.len]
  exact len_le_mask s

theorem replaces_iff {m : Heap} (hs : Denotes m s text) (hf : Denotes m f pat)
    (hr : Denotes m r repl) (hbuf : m.roots env.buf = none) (haddr : env.buf < 256 ^ 8) :
    Replaces m text (replaced pat repl text) (replace env m s (some f) (some r)) ↔
      (replaced pat repl text).length ≤ 536870911 := by
  have hsame : occurrences pat text = 0 →
      (Replaces m text (replaced pat repl text) (some none) ↔
        (replaced pat repl text).length ≤ 536870911) := by
    intro h
    rw [replaced_eq_self repl h]
    exact ⟨fun _ => hs.fits, fun _ => rfl⟩
  unfold replace
  dsimp only
  split <;> rename_i hempty
  · rw [hf.len] at hempty
    obtain rfl : pat = [] := List.length_eq_zero_iff.mp hempty
    exact hsame (occurrences_empty text)
  · rw [hf.len] at hempty
    have hne : pat ≠ [] := fun h => hempty (h ▸ rfl)
    have hcount : countFrom text pat (text.length + 1) 0 = some (occurrences pat text) :=
      countFrom_eq (i := 0) hne (Nat.zero_le _) (by omega)
    rw [hs.read_all, hf.read_all, hr.read_all, hs.len, hf.len, hr.len]
    simp only [bind, Option.bind_some, hcount, outLen_eq]
    split <;> rename_i hocc
    · exact hsame hocc
    · split <;> rename_i hshort
      · have hroom : (replaced pat repl text).length ≤
          (List.replicate inlineCap (0 : UInt8)).length := by
          rw [List.length_replicate]
          omega
        rw [fill_all repl _ hne hroom]
        simp only [Option.bind_some, Int.toNat_natCast, List.take_left]
        have h12 : (replaced pat repl text).length ≤ 12 := by
          rw [List.length_replicate] at hroom
          exact hroom
        obtain ⟨out, hout, hd⟩ := Denotes.setInline (m := m) h12
        rw [hout]
        exact ⟨fun _ => by omega, fun _ => ⟨.refl m, hd⟩⟩
      · rw [Int.toNat_natCast, fill_all repl _ hne (by rw [List.length_replicate]; omega)]
        rw [List.drop_replicate, Nat.add_sub_cancel_left, List.replicate_one]
        simp only [Option.bind_some, newBuffer_eq, BitVec.ofInt_natCast]
        have hlong : inlineCap < (replaced pat repl text).length := by omega
        exact ⟨fun h => h.2.fits, fun hmask => ⟨Heap.le_newRoot hbuf, .newRoot _ haddr hlong hmask⟩⟩

/-- Every search gives the specified index, the two passes of a replacement agree, and the
replacement is right if and only if its size fits into the 29 bits of a length. -/
theorem search_and_replace_iff {m : Heap} (hs : Denotes m s text) (hf : Denotes m f pat)
    (hr : Denotes m r repl) (hbuf : m.roots env.buf = none) (haddr : env.buf < 256 ^ 8) :
    ((∀ start, ∃ i, indexOf m s (some f) start = some i ∧ IsIndex text pat (max start 0) i) ∧
      (pat ≠ [] → SizesAgree text pat repl) ∧
      Replaces m text (replaced pat repl text) (replace env m s (some f) (some r))) ↔
    text.length + occurrences pat text * repl.length ≤
      536870911 + occurrences pat text * pat.length := by
  have hlen := length_replaced pat repl text
  rw [replaces_iff hs hf hr hbuf haddr]
  constructor
  · rintro ⟨-, -, hfit⟩
    omega
  · intro hfit
    exact ⟨fun start => indexOf_isIndex hs hf start, fun hne => sizesAgree repl hne, by omega⟩

/-- A pattern that overlaps itself, in a subject in which it occurs at two places. -/
theorem search_and_replace_overlapping :
    let m : Heap := ⟨fun _ => none⟩
    let s : Layout := ⟨3, [97, 97, 97, 0, 0, 0, 0, 0, 0, 0, 0, 0], rfl⟩
    let f : Layout := ⟨2, [97, 97, 0, 0, 0, 0, 0, 0, 0, 0, 0, 0], rfl⟩
    let r : Layout := ⟨1, [98, 0, 0, 0, 0, 0, 0, 0, 0, 0, 0, 0], rfl⟩
    Replaces m [97, 97, 97] (replaced [97, 97] [98] [97, 97, 97])
      (replace ⟨1, fun _ => false, true⟩ m s (some f) (some r)) := by
  intro m s f r
  have hs : Denotes m s [97, 97, 97] :=
    ⟨by decide, fun _ => by decide, fun h => absurd h (by decide)⟩
  have hf : Denotes m f [97, 97] := ⟨by decide, fun _ => by decide, fun h => absurd h (by decide)⟩
  have hr : Denotes m r [98] := ⟨by decide, fun _ => by decide, fun h => absurd h (by decide)⟩
  exact ((search_and_replace_iff hs hf hr rfl (by decide)).mpr
    (by simp [occurrences])).2.2

/-- Twice 2^28 bytes do not fit. -/
theorem doubled_garbled :
    let text : Text := List.replicate 268435456 97
    let m : Heap := Heap.newRoot ⟨fun _ => none⟩ 1 text
    let s : Layout := .setWindow (BitVec.ofNat 32 268435456) 0 1
    let f : Layout := ⟨1, [97, 0, 0, 0, 0, 0, 0, 0, 0, 0, 0, 0], rfl⟩
    let r : Layout := ⟨2, [97, 97, 0, 0, 0, 0, 0, 0, 0, 0, 0, 0], rfl⟩
    ¬Replaces m text (replaced [97] [97, 97] text)
      (replace ⟨2, fun _ => false, true⟩ m s (some f) (some r)) := by
  intro text m s f r
  have htext : text.length = 268435456 := List.length_replicate
  have hs : Denotes m s text := by
    have h : Denotes (Heap.newRoot ⟨fun _ => none⟩ 1 text) _ text :=
      Denotes.newRoot text (by decide) (by rw [htext]; decide) (by rw [htext]; decide)
    rwa [htext] at h
  have hf : Denotes m f [97] := ⟨by decide, fun _ => by decide, fun h => absurd h (by decide)⟩
  have hr : Denotes m r [97, 97] := ⟨by decide, fun _ => by decide, fun h => absurd h (by decide)⟩
  have hbuf : m.roots 2 = none := newRoot_other (by decide)
  have hiff : Replaces m text (replaced [97] [97, 97] text)
      (replace ⟨2, fun _ => false, true⟩ m s (some f) (some r)) ↔ _ :=
    replaces_iff hs hf hr hbuf (by decide)
  rw [hiff]
  have hlen := length_replaced [97] [97, 97] text
  have hocc : occurrences [97] text = 268435456 := occurrences_replicate ..
  rw [hocc, htext] at hlen
  simp only [List.length_cons, List.length_nil] at hlen
  omega

end Cajeta.Memory.TaggedString
