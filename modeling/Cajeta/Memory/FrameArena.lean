import Cajeta.Lib.Transition
import Mathlib.Data.Nat.Bitwise
import Mathlib.Tactic.Common

/-!
# The frame arena

One context bumps an offset through its reservation, packs offset and array count into a mark and
resets to marks in stack order. Sizes, offsets and marks are 64-bit words.
-/

namespace Cajeta.Memory

/-- The value of a 64-bit word that is given `x`. -/
def u64 (x : Nat) : Nat := x % 18446744073709551616

/-- `CAJETA_ARENA_RESERVE` -/
def arenaReserve : Nat := 4294967296

/-- `CAJETA_ARENA_TRIM_THRESHOLD` -/
def arenaTrimThreshold : Nat := 4194304

structure Arena where
  base : Option Nat
  bump : Nat
  retained : Nat
  count : Nat
  deriving DecidableEq

/-- The mapping that a first use gets, from the pool or from the system. -/
structure ArenaMapping where
  base : Nat
  retained : Nat

namespace Arena

def fresh : Arena := ⟨none, 0, 0, 0⟩

/-- `(n + 7u) & ~7` -/
def align8 (n : Nat) : Nat := u64 (n + 7) - u64 (n + 7) % 8

def init (a : Arena) (m : ArenaMapping) : Arena :=
  { a with base := some m.base, bump := 0, retained := m.retained }

/-- The arena behind the allocation, and the pointer. Without it the program is aborted. -/
def bumpFrom (a : Arena) (base size : Nat) : Option (Arena × Nat) :=
  let n := align8 size
  if u64 (a.bump + n) > arenaReserve then none
  else
    let bump := u64 (a.bump + n)
    some ({ a with bump, retained := if bump > a.retained then bump else a.retained },
      base + a.bump)

/-- `__cajeta_arena_bump`; without a mapping, a first use aborts the program. -/
def bumpBy (mapping : Option ArenaMapping) (a : Arena) (size : Nat) : Option (Arena × Nat) :=
  match a.base with
  | some base => a.bumpFrom base size
  | none =>
    match mapping with
    | some m => (a.init m).bumpFrom m.base size
    | none => none

/-- `__cajeta_new_array_header_arena`; an array of no bytes is the null pointer. -/
def newArrayHeader (mapping : Option ArenaMapping) (a : Arena)
    (headerSize elemSize count : Nat) : Option (Arena × Option Nat) :=
  if elemSize ≠ 0 ∧ count > (18446744073709551615 - headerSize) / elemSize then none
  else
    let total := u64 (headerSize + u64 (count * elemSize))
    if total = 0 then some (a, none)
    else
      match bumpBy mapping a total with
      | none => none
      | some (a, hdr) => some ({ a with count := u64 (a.count + 1) }, some hdr)

/-- `__cajeta_arena_mark` -/
def mark (a : Arena) : Nat := u64 (a.count <<< 40) ||| a.bump

/-- `__cajeta_arena_reset` -/
def reset (a : Arena) (mark : Nat) : Arena :=
  let m := mark &&& (2 ^ 40 - 1)
  { a with
    count := mark >>> 40
    bump := m
    retained := if a.base.isSome ∧ a.retained > m + arenaTrimThreshold then m else a.retained }

end Arena

/-- What an allocation asked for, and where it was given. -/
structure ArenaRegion where
  start : Nat
  size : Nat
  deriving DecidableEq

/-- A mark, with what held when it was taken; only the word is there for the program. -/
structure ArenaMark where
  word : Nat
  bump : Nat
  count : Nat
  live : List ArenaRegion
  deriving DecidableEq

/-- The arena of a context, the regions that have not been reset, the latest first, and the marks
that have not been passed by a reset, the latest first. -/
structure ArenaRun where
  arena : Arena
  live : List ArenaRegion
  marks : List ArenaMark
  deriving DecidableEq

inductive ArenaOp where
  | mark
  | alloc (size : UInt64)
  | newArray (headerSize elemSize count : UInt64)
  /-- A reset to the mark with `k` marks taken after it. -/
  | reset (k : Nat)

namespace ArenaRun

def new : ArenaRun := ⟨.fresh, [], []⟩

def taken (c : ArenaRun) : ArenaMark := ⟨c.arena.mark, c.arena.bump, c.arena.count, c.live⟩

/-- A step that does not abort the program. -/
inductive Step : ArenaRun → ArenaOp → ArenaRun → Prop where
  | mark : Step c .mark { c with marks := c.taken :: c.marks }
  | alloc : c.arena.bumpBy mapping size.toNat = some (a, p) →
      Step c (.alloc size) { c with arena := a, live := ⟨p, size.toNat⟩ :: c.live }
  | newArray :
      c.arena.newArrayHeader mapping header.toNat elem.toNat count.toNat = some (a, some p) →
      Step c (.newArray header elem count)
        { c with arena := a, live := ⟨p, header.toNat + count.toNat * elem.toNat⟩ :: c.live }
  | noArray :
      c.arena.newArrayHeader mapping header.toNat elem.toNat count.toNat = some (a, none) →
      Step c (.newArray header elem count) { c with arena := a }
  | reset : c.marks.drop k = m :: rest →
      Step c (.reset k) { arena := c.arena.reset m.word, live := m.live, marks := m :: rest }

end ArenaRun

/-- The size of a region in whole words. -/
def roundUp8 (n : Nat) : Nat := (n + 7) / 8 * 8

namespace ArenaRegion

def Disjoint (r s : ArenaRegion) : Prop :=
  r.start + roundUp8 r.size ≤ s.start ∨ s.start + roundUp8 s.size ≤ r.start

def Inside (base : Option Nat) (r : ArenaRegion) : Prop :=
  ∃ b, base = some b ∧ b ≤ r.start ∧ r.start + roundUp8 r.size ≤ b + arenaReserve

end ArenaRegion

/-- The regions lie below the offset in the reservation, and apart from each other. -/
structure Stacked (base : Option Nat) (bump : Nat) (regions : List ArenaRegion) : Prop where
  bump_le : bump ≤ arenaReserve
  apart : regions.Pairwise ArenaRegion.Disjoint
  below : ∀ r ∈ regions, ∃ b, base = some b ∧ b ≤ r.start ∧ r.start + roundUp8 r.size ≤ b + bump
  unused : base = none → bump = 0

namespace Stacked

theorem rebase (h : Stacked none bump regions) (b : Nat) : Stacked (some b) bump regions where
  bump_le := h.bump_le
  apart := h.apart
  below r hr := by
    obtain ⟨b', hb', -⟩ := h.below r hr
    cases hb'
  unused h := by cases h

theorem onto (h : Stacked base bump regions) (hbase : base = some b ∨ base = none) :
    Stacked (some b) bump regions := by
  rcases hbase with rfl | rfl
  · exact h
  · exact h.rebase b

theorem push (size : Nat) (h : Stacked (some b) bump regions)
    (hle : bump + roundUp8 size ≤ arenaReserve) :
    Stacked (some b) (bump + roundUp8 size) (⟨b + bump, size⟩ :: regions) ∧
      ∀ s ∈ regions, (⟨b + bump, size⟩ : ArenaRegion).Disjoint s := by
  have hapart : ∀ s ∈ regions, (⟨b + bump, size⟩ : ArenaRegion).Disjoint s := by
    intro s hs
    obtain ⟨b', hb', -, hend⟩ := h.below s hs
    cases hb'
    exact .inr hend
  refine ⟨⟨hle, .cons hapart h.apart, fun r hr => ?_, fun h => by cases h⟩, hapart⟩
  rcases List.mem_cons.mp hr with rfl | hr
  · exact ⟨b, rfl, Nat.le_add_right _ _, by dsimp only; omega⟩
  · obtain ⟨b', hb', hstart, hend⟩ := h.below r hr
    exact ⟨b', hb', hstart, by omega⟩

end Stacked

namespace ArenaRun

/-- A region of `size` bytes was added that lies in the reservation and apart from all others. -/
def Gives (c : ArenaRun) (size : Nat) (c' : ArenaRun) : Prop :=
  ∃ r, c'.live = r :: c.live ∧ r.size = size ∧ r.Inside c'.arena.base ∧ ∀ s ∈ c.live, r.Disjoint s

/-- What a step is to do. -/
def Delivers (c : ArenaRun) (c' : ArenaRun) : ArenaOp → Prop
  | .mark => True
  | .alloc size => Gives c size.toNat c'
  | .newArray header elem count =>
    header.toNat + count.toNat * elem.toNat = 0 ∧ c'.live = c.live ∨
      Gives c (header.toNat + count.toNat * elem.toNat) c'
  | .reset k => ∃ m rest, c.marks.drop k = m :: rest ∧ c'.arena.bump = m.bump ∧
      c'.arena.count = m.count ∧ c'.live = m.live

/-- No sum of the step leaves 64 bits, and the array count of a mark fits into 24. -/
def Fits (c : ArenaRun) : ArenaOp → Prop
  | .mark => c.arena.count < 16777216
  | .alloc size => c.arena.bump + roundUp8 size.toNat < 18446744073709551616
  | .newArray header elem count =>
    c.arena.bump + roundUp8 (header.toNat + count.toNat * elem.toNat) < 18446744073709551616
  | .reset _ => True

def Packed (m : ArenaMark) : Prop := m.word &&& (2 ^ 40 - 1) = m.bump ∧ m.word >>> 40 = m.count

structure Inv (c : ArenaRun) : Prop where
  stacked : Stacked c.arena.base c.arena.bump c.live
  marks : ∀ m ∈ c.marks, Stacked c.arena.base m.bump m.live ∧ Packed m

theorem inv_new : Inv new where
  stacked := ⟨Nat.zero_le _, .nil, fun _ h => (by cases h), fun _ => rfl⟩
  marks _ h := by cases h

/-! ## Steps -/

theorem align8_eq (h : n + 7 < 18446744073709551616) : Arena.align8 n = roundUp8 n := by
  rw [Arena.align8, u64, Nat.mod_eq_of_lt h, roundUp8]
  omega

theorem bumpFrom_spec {a : Arena} (h : a.bumpFrom base size = some (a', p))
    (hfits : a.bump + roundUp8 size < 18446744073709551616) :
    a'.base = a.base ∧ a'.count = a.count ∧ p = base + a.bump ∧
      a'.bump = a.bump + roundUp8 size ∧ a'.bump ≤ arenaReserve := by
  have hn : Arena.align8 size = roundUp8 size := by
    apply align8_eq
    unfold roundUp8 at hfits
    omega
  unfold Arena.bumpFrom at h
  simp only [hn, u64, Nat.mod_eq_of_lt hfits] at h
  split at h
  · cases h
  · next hle =>
    cases h
    exact ⟨rfl, rfl, rfl, rfl, Nat.le_of_not_lt hle⟩

theorem bumpBy_spec {c : ArenaRun} (hc : Inv c) (h : c.arena.bumpBy mapping size = some (a, p))
    (hfits : c.arena.bump + roundUp8 size < 18446744073709551616) :
    ∃ b, a.base = some b ∧ (c.arena.base = some b ∨ c.arena.base = none) ∧
      a.count = c.arena.count ∧ p = b + c.arena.bump ∧
      a.bump = c.arena.bump + roundUp8 size ∧ a.bump ≤ arenaReserve := by
  unfold Arena.bumpBy at h
  split at h
  · next b hb =>
    obtain ⟨hbase, hrest⟩ := bumpFrom_spec h hfits
    exact ⟨b, hbase.trans hb, .inl hb, hrest⟩
  · next hnone =>
    have hzero := hc.stacked.unused hnone
    cases mapping with
    | none => cases h
    | some m =>
      rw [hzero] at hfits ⊢
      obtain ⟨hbase, hrest⟩ := bumpFrom_spec (a := c.arena.init m) h hfits
      exact ⟨m.base, hbase, .inr hnone, hrest⟩

theorem gives_of_bump {c : ArenaRun} (hc : Inv c) (hbase : a.base = some b)
    (hwas : c.arena.base = some b ∨ c.arena.base = none) (hp : p = b + c.arena.bump)
    (hbump : a.bump = c.arena.bump + roundUp8 size) (hle : a.bump ≤ arenaReserve) :
    Inv { c with arena := a, live := ⟨p, size⟩ :: c.live } ∧
      Gives c size { c with arena := a, live := ⟨p, size⟩ :: c.live } := by
  have hstacked := (hc.stacked.onto hwas).push size (hbump ▸ hle)
  rw [← hp, ← hbump] at hstacked
  refine ⟨⟨?_, fun m hm => ?_⟩, ⟨p, size⟩, rfl, rfl, ⟨b, hbase, ?_, ?_⟩, hstacked.2⟩
  · dsimp only
    rw [hbase]
    exact hstacked.1
  · dsimp only
    rw [hbase]
    exact ⟨(hc.marks m hm).1.onto hwas, (hc.marks m hm).2⟩
  · exact hp ▸ Nat.le_add_right _ _
  · dsimp only
    omega

theorem mark_word {a : Arena} (hbump : a.bump < 2 ^ 40) :
    a.mark &&& (2 ^ 40 - 1) = a.bump ∧ a.mark >>> 40 = a.count % 16777216 := by
  have hshift : u64 (a.count <<< 40) = (a.count % 16777216) <<< 40 := by
    rw [Nat.shiftLeft_eq, Nat.shiftLeft_eq, u64]
    omega
  have hword : a.mark = a.count % 16777216 * 2 ^ 40 + a.bump := by
    rw [Arena.mark, hshift, ← Nat.shiftLeft_eq, Nat.shiftLeft_add_eq_or_of_lt hbump]
  refine ⟨?_, ?_⟩
  · rw [hword, Nat.and_two_pow_sub_one_eq_mod, Nat.mul_add_mod_self_right, Nat.mod_eq_of_lt hbump]
  · rw [hword, Nat.shiftRight_eq_div_pow, Nat.add_comm, Nat.add_mul_div_right _ _ (by decide),
      Nat.div_eq_of_lt hbump, Nat.zero_add]

theorem packed_taken {c : ArenaRun} (hc : Inv c) :
    Packed c.taken ↔ c.arena.count < 16777216 := by
  obtain ⟨hbump, hcount⟩ := mark_word (Nat.lt_of_le_of_lt hc.stacked.bump_le (by decide))
  change c.arena.mark &&& (2 ^ 40 - 1) = c.arena.bump ∧ c.arena.mark >>> 40 = c.arena.count ↔ _
  rw [hbump, hcount]
  omega

theorem total_eq {header elem count : UInt64}
    (h : ¬ (elem.toNat ≠ 0 ∧ count.toNat > (18446744073709551615 - header.toNat) / elem.toNat)) :
    u64 (header.toNat + u64 (count.toNat * elem.toNat)) =
      header.toNat + count.toNat * elem.toNat := by
  have hheader := header.toNat_lt
  have hsum : header.toNat + count.toNat * elem.toNat < 18446744073709551616 := by
    rcases Nat.eq_zero_or_pos elem.toNat with hzero | hpos
    · rw [hzero, Nat.mul_zero]
      omega
    · have hle : count.toNat ≤ (18446744073709551615 - header.toNat) / elem.toNat := by
        by_contra hgt
        exact h ⟨Nat.pos_iff_ne_zero.mp hpos, Nat.lt_of_not_le hgt⟩
      have hmul := (Nat.le_div_iff_mul_le hpos).mp hle
      omega
  rw [u64, u64, Nat.mod_eq_of_lt (by omega : count.toNat * elem.toNat < _), Nat.mod_eq_of_lt hsum]

theorem step_spec {c : ArenaRun} (hc : Inv c) (hfits : Fits c op) (h : Step c op c') :
    Inv c' ∧ Delivers c c' op := by
  cases h with
  | mark =>
    refine ⟨⟨hc.stacked, fun m hm => ?_⟩, trivial⟩
    rcases List.mem_cons.mp hm with rfl | hm
    · exact ⟨hc.stacked, (packed_taken hc).mpr hfits⟩
    · exact hc.marks m hm
  | alloc h =>
    obtain ⟨b, hbase, hwas, -, hp, hbump, hle⟩ := bumpBy_spec hc h hfits
    exact gives_of_bump hc hbase hwas hp hbump hle
  | newArray h =>
    unfold Arena.newArrayHeader at h
    split at h
    · cases h
    next hguard =>
    rw [total_eq hguard] at h
    dsimp only at h
    split at h
    · cases h
    split at h
    · cases h
    next hbumped =>
    cases h
    obtain ⟨b, hbase, hwas, -, hp, hbump, hle⟩ := bumpBy_spec hc hbumped hfits
    obtain ⟨hinv, hgives⟩ := gives_of_bump hc hbase hwas hp hbump hle
    exact ⟨⟨hinv.stacked, hinv.marks⟩, .inr hgives⟩
  | noArray h =>
    unfold Arena.newArrayHeader at h
    split at h
    · cases h
    next hguard =>
    rw [total_eq hguard] at h
    dsimp only at h
    split at h
    · next hzero =>
      cases h
      exact ⟨hc, .inl ⟨hzero, rfl⟩⟩
    · split at h <;> cases h
  | reset h =>
    rename_i m rest k
    have hmem : ∀ m' ∈ m :: rest, m' ∈ c.marks := fun m' hm' =>
      List.mem_of_mem_drop (h ▸ hm')
    obtain ⟨hstacked, hbump, hcount⟩ := hc.marks m (hmem m List.mem_cons_self)
    refine ⟨⟨?_, fun m' hm' => hc.marks m' (hmem m' hm')⟩, m, rest, h, hbump, hcount, rfl⟩
    rw [Arena.reset, hbump]
    exact hstacked

/-- In a run whose sums stay within 64 bits and whose counts fit into their marks, an allocation
that does not abort the program gives a region of its own, and a reset restores its mark. -/
theorem run_delivers (ops : List ArenaOp) (h : Steps (Steps.guarded Step Fits) new ops c)
    (hfits : Fits c op) (hstep : Step c op c') : Delivers c c' op := by
  have hc : Inv c := h.preserves (P := Inv) (fun s a s' hs hinv => (step_spec hinv hs.1 hs.2).1)
    inv_new
  exact (step_spec hc hfits hstep).2

def oneRegion : ArenaRun := ⟨⟨some 4096, 16, 16, 1⟩, [⟨4096, 13⟩], []⟩

def twoRegions : ArenaRun := ⟨⟨some 4096, 40, 40, 1⟩, [⟨4112, 20⟩, ⟨4096, 13⟩], [oneRegion.taken]⟩

def backAtMark : ArenaRun := ⟨⟨some 4096, 16, 40, 1⟩, [⟨4096, 13⟩], [oneRegion.taken]⟩

/-- A run with a second region that is given backAtMark by a reset to the mark below it. -/
theorem run_delivers_array :
    ∃ c c', Steps (Steps.guarded Step Fits) new
        [.newArray 8 1 5, .mark, .alloc 20, .reset 0] c ∧
      Step c (.newArray 8 4 3) c' ∧ c'.live = [⟨4112, 20⟩, ⟨4096, 13⟩] ∧
      Delivers c c' (.newArray 8 4 3) := by
  have hone : Step new (.newArray 8 1 5) oneRegion :=
    .newArray (show Arena.newArrayHeader (some ⟨4096, 0⟩) .fresh 8 1 5 = _ from rfl)
  have htwo : Step { oneRegion with marks := [oneRegion.taken] } (.alloc 20) twoRegions :=
    .alloc (show Arena.bumpBy none oneRegion.arena 20 = _ from rfl)
  have hback : Step twoRegions (.reset 0) backAtMark :=
    .reset (show twoRegions.marks.drop 0 = oneRegion.taken :: [] from rfl)
  have hrun : Steps (Steps.guarded Step Fits) new
      [.newArray 8 1 5, .mark, .alloc 20, .reset 0] backAtMark :=
    .cons ⟨show 0 + roundUp8 13 < 18446744073709551616 by decide, hone⟩
      (.cons ⟨show 1 < 16777216 by decide, .mark⟩
        (.cons ⟨show 16 + roundUp8 20 < 18446744073709551616 by decide, htwo⟩
          (.cons ⟨trivial, hback⟩ .nil)))
  have hstep : Step backAtMark (.newArray 8 4 3)
      ⟨⟨some 4096, 40, 40, 2⟩, [⟨4112, 20⟩, ⟨4096, 13⟩], [oneRegion.taken]⟩ :=
    .newArray (show Arena.newArrayHeader none backAtMark.arena 8 4 3 = _ from rfl)
  have hfits : Fits backAtMark (.newArray 8 4 3) :=
    show 16 + roundUp8 20 < 18446744073709551616 by decide
  exact ⟨backAtMark, _, hrun, hstep, rfl, run_delivers _ hrun hfits hstep⟩

/-- The array of a negative length -9 passes the check, and its size is rounded up to 0: the next
allocation gets the same address. -/
theorem array_overlaps :
    ∃ c c', Step new (.newArray 8 1 18446744073709551607) c ∧ Step c (.alloc 8) c' ∧
      c'.live = [⟨4096, 8⟩, ⟨4096, 18446744073709551615⟩] ∧
      ¬ Delivers new c (.newArray 8 1 18446744073709551607) := by
  refine ⟨⟨⟨some 4096, 0, 0, 1⟩, [⟨4096, 18446744073709551615⟩], []⟩,
    ⟨⟨some 4096, 8, 8, 1⟩, [⟨4096, 8⟩, ⟨4096, 18446744073709551615⟩], []⟩,
    .newArray (show Arena.newArrayHeader (some ⟨4096, 0⟩) .fresh 8 1
      18446744073709551607 = _ from rfl),
    .alloc (show Arena.bumpBy none ⟨some 4096, 0, 0, 1⟩ 8 = _ from rfl), rfl, ?_⟩
  rintro (⟨hzero, -⟩ | ⟨r, hlive, -, ⟨b, hb, -, hend⟩, -⟩)
  · revert hzero
    decide
  · cases hlive
    cases hb
    revert hend
    decide

end ArenaRun

end Cajeta.Memory
