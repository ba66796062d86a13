import Cajeta.Codec.JsonIndex

/-!
# The scan in blocks

Both scans take the same step from byte to byte. The masks of a block say at each bit what the
step says after the bytes before it.
-/

namespace Cajeta.Codec.Json

open Cells

/-! ## The step of the scan -/

namespace Flags

/-- The state behind a byte. -/
def next (f : Flags) (c : UInt8) : Flags :=
  if f.pend then { f with pend := false }
  else if f.inStr then
    if c = backslash then { f with pend := true }
    else if c = quote then { f with inStr := false }
    else f
  else if c = quote then { f with inStr := true, prevVal := false }
  else if isStruct c || isWs c then { f with prevVal := false }
  else { f with prevVal := true }

/-- The byte is significant. -/
def marks (f : Flags) (c : UInt8) : Bool :=
  !f.pend && !f.inStr && (c = quote || isStruct c || !isWs c && !f.prevVal)

/-- What holds of every state that a scan reaches: in a string no value byte came before. -/
def Sane (f : Flags) : Prop := f.inStr = true → f.prevVal = false

theorem Sane.next {f : Flags} (h : Sane f) (c : UInt8) : Sane (f.next c) := by
  intro hstr
  unfold Flags.next at hstr ⊢
  split
  · next hp =>
    rw [if_pos hp] at hstr
    exact h hstr
  · next hp =>
    rw [if_neg hp] at hstr
    split
    · next hs => split <;> [exact h hs; (split <;> exact h hs)]
    · next hs =>
      rw [if_neg hs] at hstr
      split
      · rfl
      · next hq =>
        rw [if_neg hq] at hstr
        split
        · rfl
        · next hw =>
          rw [if_neg hw] at hstr
          exact absurd hstr hs

end Flags

namespace JsonIndex

/-- One step of the scan: an escaped byte is not read. -/
def stepAt (b : List UInt8) (cap i : Nat) (s : List Int × Flags) : Indexing (List Int × Flags) :=
  if s.2.pend then .ok (s.1, { s.2 with pend := false })
  else do
    let c ← .orThrow b[i]? .text
    let idx ← (if s.2.marks c then push cap s.1 i else .ok s.1)
    return (idx, s.2.next c)

/-- The steps from `i` on. -/
def walk (b : List UInt8) (cap i : Nat) :
    (n : Nat) → (s : List Int × Flags) → Indexing (List Int × Flags)
  | 0, s => .ok s
  | n + 1, s => walk b cap i n s >>= stepAt b cap (i + n)

theorem walk_add (b : List UInt8) (cap i m n : Nat) (s : List Int × Flags) :
    walk b cap i (m + n) s = walk b cap i m s >>= walk b cap (i + m) n := by
  induction n with
  | zero => exact (bind_pure _).symm
  | succ n ih =>
    rw [← Nat.add_assoc, walk, ih, bind_assoc, ← Nat.add_assoc i m n]
    rfl

theorem walk_succ (b : List UInt8) (cap i n : Nat) (s : List Int × Flags) :
    walk b cap i (n + 1) s = stepAt b cap i s >>= walk b cap (i + 1) n := by
  rw [Nat.add_comm, walk_add]
  rfl

theorem stepAt_eq (hf : f.pend = false) (hread : b[i]? = some c) :
    stepAt b cap i (idx, f) =
      (if f.marks c then push cap idx i else .ok idx) >>= fun idx => .ok (idx, f.next c) := by
  rw [stepAt, if_neg (by rw [hf]; exact Bool.false_ne_true), hread]
  rfl

theorem stepAt_pend (hf : f.pend = false) :
    stepAt b cap i (idx, { f with pend := true }) = .ok (idx, f) := by
  rw [stepAt, if_pos rfl]
  cases f
  cases hf
  rfl

theorem stepAt_fault (hf : f.pend = false) (hread : b[i]? = none) :
    stepAt b cap i (idx, f) = .error .text := by
  rw [stepAt, if_neg (by rw [hf]; exact Bool.false_ne_true), hread]
  rfl

def Escapes (f : Flags) (c : UInt8) : Prop := f.inStr = true ∧ c = backslash

theorem next_escape (hf : f.pend = false) (h : Escapes f c) :
    f.next c = { f with pend := true } := by
  rw [Flags.next, if_neg (by rw [hf]; exact Bool.false_ne_true), if_pos h.1, if_pos h.2]

theorem marks_escape (h : Escapes f c) : f.marks c = false := by
  rw [Flags.marks, h.1, Bool.not_true, Bool.and_false, Bool.false_and]

theorem pend_next (hf : f.pend = false) (h : ¬ Escapes f c) : (f.next c).pend = false := by
  rw [Flags.next, if_neg (by rw [hf]; exact Bool.false_ne_true)]
  split
  · next hstr =>
    rw [if_neg fun hc => h ⟨hstr, hc⟩]
    split <;> exact hf
  · split
    · exact hf
    · split <;> exact hf

theorem scalarLoop_succ (hf : f.pend = false) (hi : i < stop) (h : ∀ c, b[i]? = some c →
    ¬ Escapes f c) : scalarLoop b stop cap (fuel + 1) i f idx =
      stepAt b cap i (idx, f) >>= fun s => scalarLoop b stop cap fuel (i + 1) s.2 s.1 := by
  rw [scalarLoop, if_pos hi]
  cases hread : b[i]? with
  | none => rw [stepAt_fault hf hread]; rfl
  | some c =>
    rw [stepAt_eq hf hread]
    have hesc := h c hread
    obtain ⟨inStr, prevVal, pend⟩ := f
    cases hf
    simp only [Except.orThrow, Option.elim, Except.ok_bind, Flags.marks, Flags.next,
      Bool.false_eq_true, if_false, Bool.not_false, Bool.true_and]
    cases inStr with
    | true =>
      rw [if_pos rfl, if_neg fun hc => hesc ⟨rfl, hc⟩]
      simp only [Bool.not_true, Bool.false_and, Bool.false_eq_true, if_false, if_true,
        Except.ok_bind]
      rw [if_neg fun hc => hesc ⟨rfl, hc⟩]
      split <;> rfl
    | false =>
      simp only [Bool.false_eq_true, if_false, Bool.not_false, Bool.true_and]
      split
      · next hq =>
        rw [decide_eq_true hq, Bool.true_or, Bool.true_or, if_pos rfl]
        cases push cap idx i <;> rfl
      · next hq =>
        rw [decide_eq_false hq, Bool.false_or]
        split
        · next hs =>
          rw [hs, Bool.true_or, Bool.true_or, if_pos rfl, if_pos rfl]
          cases push cap idx i <;> rfl
        · next hs =>
          rw [Bool.not_eq_true] at hs
          rw [hs, Bool.false_or, Bool.false_or]
          split
          · next hw => rw [hw]; rfl
          · next hw =>
            rw [Bool.not_eq_true] at hw
            rw [hw]
            cases prevVal with
            | true => rfl
            | false => cases push cap idx i <;> rfl

/-- The byte loop takes the steps one after another, and the two bytes of an escape at once. -/
theorem scalarLoop_eq (hf : f.pend = false) (hfuel : stop - i < fuel) :
    scalarLoop b stop cap fuel i f idx = walk b cap i (stop - i) (idx, f) := by
  induction fuel generalizing i f idx with
  | zero => omega
  | succ fuel ih =>
    by_cases hlt : i < stop
    · obtain ⟨n, hn⟩ : ∃ n, stop - i = n + 1 := ⟨stop - i - 1, by omega⟩
      rw [hn, walk_succ]
      by_cases hesc : ∃ c, b[i]? = some c ∧ Escapes f c
      · obtain ⟨c, hread, hesc⟩ := hesc
        rw [stepAt_eq hf hread, marks_escape hesc, next_escape hf hesc, if_neg Bool.false_ne_true,
          scalarLoop, if_pos hlt, hread]
        simp only [Except.orThrow, Option.elim, Except.ok_bind]
        rw [if_pos hesc.1, if_pos hesc.2]
        split
        · next hend =>
          -- The escaped byte is the first one behind the range.
          obtain ⟨fuel, rfl⟩ : ∃ m, fuel = m + 1 := ⟨fuel - 1, by omega⟩
          rw [show n = 0 by omega, scalarLoop, if_neg (Nat.lt_irrefl _)]
          rfl
        · next hmore =>
          obtain ⟨n, rfl⟩ : ∃ m, n = m + 1 := ⟨n - 1, by omega⟩
          rw [walk_succ, stepAt_pend hf, ih hf (by omega), show stop - (i + 2) = n by omega]
          rfl
      · have hplain : ∀ c, b[i]? = some c → ¬ Escapes f c := fun c hread he => hesc ⟨c, hread, he⟩
        rw [scalarLoop_succ hf hlt hplain]
        cases hread : b[i]? with
        | none => rw [stepAt_fault hf hread]; rfl
        | some c =>
          rw [stepAt_eq hf hread, bind_assoc, bind_assoc]
          congr 1
          funext idx'
          rw [Except.ok_bind, Except.ok_bind, ih (pend_next hf (hplain c hread)) (by omega),
            show stop - (i + 1) = n by omega]
    · rw [scalarLoop, if_neg hlt, show stop - i = 0 by omega]
      rfl

theorem scalarAppend_eq (b : List UInt8) (cap : Nat) (idx : List Int)
    (h : f.pend = true → start < stop) :
    scalarAppend b start stop cap f idx = walk b cap start (stop - start) (idx, f) := by
  rw [scalarAppend]
  split
  · next hp =>
    have hlt := h hp
    rw [scalarLoop_eq rfl (by omega), show stop - start = stop - (start + 1) + 1 by omega,
      walk_succ, stepAt, if_pos hp]
    rfl
  · next hp => exact scalarLoop_eq (Bool.eq_false_iff.mpr hp) (by omega)

theorem scalarAppend_nil (b : List UInt8) (cap : Nat) (f : Flags) (idx : List Int)
    (h : stop ≤ start) :
    ∃ f', scalarAppend b start stop cap f idx = .ok (idx, f') := by
  rw [scalarAppend]
  split
  · rw [scalarLoop, if_neg (by omega)]
    exact ⟨_, rfl⟩
  · rw [scalarLoop, if_neg (by omega)]
    exact ⟨_, rfl⟩

/-! ## The masks of a block -/

/-- The state after the first lanes of a block. -/
def stateAt (f : Flags) (v : Nat → UInt8) : (n : Nat) → Flags
  | 0 => f
  | n + 1 => (stateAt f v n).next (v n)

def significant (f : Flags) (v : Nat → UInt8) (i : Nat) : Bool := (stateAt f v i).marks (v i)

theorem sane_stateAt (hf : f.Sane) (n : Nat) : (stateAt f v n).Sane := by
  induction n with
  | zero => exact hf
  | succ n ih => exact ih.next _

theorem pend_stateAt (hf : f.pend = false) (hv : ∀ i < n, v i ≠ backslash) :
    (stateAt f v n).pend = false := by
  induction n with
  | zero => exact hf
  | succ n ih =>
    exact pend_next (ih fun i hi => hv i (by omega)) fun h => hv n (Nat.lt_succ_self n) h.2

theorem walk_block {mem : Memory b} (hf : f.pend = false)
    (hv : ∀ i < n, vload16 mem p i ≠ backslash) (h : walk b cap p n (idx, f) = .ok s) :
    s.2 = stateAt f (vload16 mem p) n ∧
      (((List.range n).filter (significant f (vload16 mem p))).map (p + ·)).foldlM (push cap) idx =
        .ok s.1 := by
  induction n generalizing s with
  | zero =>
    cases h
    exact ⟨rfl, rfl⟩
  | succ n ih =>
    rw [walk] at h
    obtain ⟨⟨idx', f'⟩, hwalk, hstep⟩ := Except.bind_eq_ok.mp h
    obtain ⟨hf', hpush⟩ := ih (fun i hi => hv i (by omega)) hwalk
    dsimp only at hf' hpush
    have hpend : f'.pend = false := by
      rw [hf']
      exact pend_stateAt hf fun i hi => hv i (by omega)
    cases hread : b[p + n]? with
    | none =>
      rw [stepAt_fault hpend hread] at hstep
      cases hstep
    | some c =>
      have hc : vload16 mem p n = c := mem.holds _ _ hread
      rw [stepAt_eq hpend hread, ← hc] at hstep
      obtain ⟨idx'', hmark, hs⟩ := Except.bind_eq_ok.mp hstep
      cases hs
      dsimp only at hmark ⊢
      refine ⟨by rw [stateAt, ← hf'], ?_⟩
      rw [List.range_succ, List.filter_append, List.map_append, List.foldlM_append, hpush]
      rw [hf'] at hmark
      cases hsig : significant f (vload16 mem p) n with
      | true =>
        rw [show Flags.marks _ _ = true from hsig, if_pos rfl] at hmark
        rw [List.filter_cons_of_pos hsig, List.filter_nil, Except.ok_bind, List.map_cons,
          List.map_nil, List.foldlM_cons, hmark, Except.ok_bind, List.foldlM_nil]
        rfl
      | false =>
        rw [show Flags.marks _ _ = false from hsig, if_neg Bool.false_ne_true] at hmark
        rw [List.filter_cons_of_neg (by rw [hsig]; exact Bool.false_ne_true), List.filter_nil]
        exact hmark

theorem inStr_next {f : Flags} (hf : f.pend = false) (hc : c ≠ backslash) :
    (f.next c).inStr = (f.inStr ^^ decide (c = quote)) := by
  rw [Flags.next, if_neg (by rw [hf]; exact Bool.false_ne_true)]
  split
  · next hs =>
    rw [hs]
    split
    · next hq => rw [decide_eq_true hq]; rfl
    · next hq => rw [decide_eq_false hq, hs]; rfl
  · next hs =>
    rw [Bool.not_eq_true] at hs
    rw [hs]
    split
    · next hq => rw [decide_eq_true hq]; rfl
    · next hq =>
      rw [decide_eq_false hq]
      split <;> rfl

theorem inStr_stateAt {f : Flags} (hf : f.pend = false) (hv : ∀ i < n, v i ≠ backslash) :
    (stateAt f v n).inStr = (f.inStr ^^ BitMask.parityBelow (fun i => v i = quote) n) := by
  induction n with
  | zero => rw [BitMask.parityBelow, Bool.xor_false]; rfl
  | succ n ih =>
    have hn := hv n (Nat.lt_succ_self n)
    have hrest : ∀ i < n, v i ≠ backslash := fun i hi => hv i (by omega)
    rw [stateAt, inStr_next (pend_stateAt hf hrest) hn, ih hrest, BitMask.parityBelow,
      Bool.xor_assoc]

/-- A byte of a scalar, in a state. -/
def isValue (f : Flags) (c : UInt8) : Bool :=
  !isWs c && !isStruct c && !decide (c = quote) && !f.inStr

theorem prevVal_next {f : Flags} (hf : f.pend = false) (hsane : f.Sane) (hc : c ≠ backslash) :
    (f.next c).prevVal = isValue f c := by
  rw [Flags.next, if_neg (by rw [hf]; exact Bool.false_ne_true), isValue]
  split
  · next hs =>
    rw [hs, Bool.not_true, Bool.and_false]
    split <;> exact hsane hs
  · next hs =>
    split
    · next hq => rw [decide_eq_true hq, Bool.not_true, Bool.and_false, Bool.false_and]
    · next hq =>
      rw [Bool.not_eq_true] at hs
      rw [decide_eq_false hq, hs]
      split
      · next hsw =>
        cases hw : isWs c with
        | true => rfl
        | false =>
          rw [hw, Bool.or_false] at hsw
          rw [hsw]
          rfl
      · next hsw =>
        obtain ⟨hstr, hw⟩ := Bool.or_eq_false_iff.mp (Bool.not_eq_true _ ▸ hsw)
        rw [hstr, hw]
        rfl

theorem testBit_eqMask : (eqMask v c).testBit i = (decide (i < 16) && decide (v i = c)) :=
  BitMask.testBit_ofPred

theorem testBit_low : (65535 : Nat).testBit i = decide (i < 16) :=
  Nat.testBit_two_pow_sub_one 16 i

theorem testBit_not16 (hi : i < 16) : (not16 x).testBit i = !x.testBit i := by
  rw [not16, Nat.testBit_xor, testBit_low, decide_eq_true hi, Bool.true_xor]

theorem testBit_and_low (hi : i < 16) (x : Nat) : (x &&& 65535).testBit i = x.testBit i := by
  rw [Nat.testBit_and, testBit_low, decide_eq_true hi, Bool.and_true]

theorem testBit_carry (hi : i < 16) (instr : Bool) :
    (if instr then 65535 else 0).testBit i = instr := by
  cases instr with
  | false => exact Nat.zero_testBit i
  | true => rw [if_pos rfl, testBit_low, decide_eq_true hi]

theorem testBit_prefix (hi : i < 16) :
    (BitMask.prefixXor16 (eqMask v quote) &&& 65535).testBit i =
      BitMask.parityBelow (fun j => v j = quote) (i + 1) := by
  rw [testBit_and_low hi, BitMask.testBit_prefixXor16, BitMask.parityTo_eq_below hi]
  refine BitMask.parityBelow_congr fun j hj => ?_
  rw [testBit_eqMask, decide_eq_true (show j < 16 by omega), Bool.true_and]

section
variable {f : Flags} {v : Nat → UInt8} (hf : f.pend = false) (hsane : f.Sane)
  (hv : ∀ i < 16, v i ≠ backslash)

include hf hv in
theorem testBit_inStr (hi : i < 16) :
    (((if f.inStr then 65535 else 0) ^^^
      ((BitMask.prefixXor16 (eqMask v quote) &&& 65535) <<< 1)) &&& 65535).testBit i =
        (stateAt f v i).inStr := by
  rw [testBit_and_low hi, Nat.testBit_xor, testBit_carry hi, Nat.testBit_shiftLeft,
    inStr_stateAt hf fun j hj => hv j (by omega)]
  congr 1
  cases i with
  | zero => rfl
  | succ i => rw [Nat.add_sub_cancel, testBit_prefix (by omega), decide_eq_true (by omega),
      Bool.true_and]

theorem testBit_ws (hi : i < 16) :
    (eqMask v 32 ||| eqMask v 9 ||| eqMask v 10 ||| eqMask v 13).testBit i = isWs (v i) := by
  simp only [Nat.testBit_or, testBit_eqMask, decide_eq_true hi, Bool.true_and, isWs]

theorem testBit_struct (hi : i < 16) :
    (eqMask v 123 ||| eqMask v 125 ||| eqMask v 91 ||| eqMask v 93 ||| eqMask v 58 |||
      eqMask v 44).testBit i = isStruct (v i) := by
  simp only [Nat.testBit_or, testBit_eqMask, decide_eq_true hi, Bool.true_and, isStruct]

theorem testBit_valueB {inStr : Nat} (hin : inStr.testBit i = (stateAt f v i).inStr)
    (hi : i < 16) :
    ((not16 (eqMask v 32 ||| eqMask v 9 ||| eqMask v 10 ||| eqMask v 13) &&&
      not16 (eqMask v 123 ||| eqMask v 125 ||| eqMask v 91 ||| eqMask v 93 ||| eqMask v 58 |||
        eqMask v 44) &&& not16 (eqMask v quote) &&& not16 inStr) &&& 65535).testBit i =
      isValue (stateAt f v i) (v i) := by
  rw [testBit_and_low hi, Nat.testBit_and, Nat.testBit_and, Nat.testBit_and, testBit_not16 hi,
    testBit_not16 hi, testBit_not16 hi, testBit_not16 hi, testBit_ws hi, testBit_struct hi, hin,
    testBit_eqMask, decide_eq_true hi, Bool.true_and, isValue]

include hf hsane hv in
theorem testBit_vbPrev {valueB : Nat}
    (hvalue : ∀ i < 16, valueB.testBit i = isValue (stateAt f v i) (v i)) (hi : i < 16) :
    (((valueB <<< 1) ||| if f.prevVal then 1 else 0) &&& 65535).testBit i =
      (stateAt f v i).prevVal := by
  rw [testBit_and_low hi, Nat.testBit_or, Nat.testBit_shiftLeft]
  cases i with
  | zero =>
    rw [stateAt]
    cases f.prevVal <;> rfl
  | succ i =>
    have hone : (if f.prevVal then 1 else 0).testBit (i + 1) = false := by
      cases f.prevVal with
      | false => exact Nat.zero_testBit _
      | true => rw [if_pos rfl, Nat.testBit_succ]; exact Nat.zero_testBit _
    rw [hone, Bool.or_false, Nat.add_sub_cancel, hvalue i (by omega), decide_eq_true (by omega),
      Bool.true_and, stateAt,
      prevVal_next (pend_stateAt hf fun j hj => hv j (by omega)) (sane_stateAt hsane i)
        (hv i (by omega))]

end

theorem significant_eq (hp : (stateAt f v i).pend = false) :
    significant f v i = (isStruct (v i) && !(stateAt f v i).inStr ||
      decide (v i = quote) && !(stateAt f v i).inStr ||
        isValue (stateAt f v i) (v i) && !(stateAt f v i).prevVal) := by
  rw [significant, Flags.marks, hp, isValue]
  cases isStruct (v i) <;> cases isWs (v i) <;> cases decide (v i = quote) <;>
    cases (stateAt f v i).inStr <;> cases (stateAt f v i).prevVal <;> rfl

theorem decide_and_one (x : Nat) : decide (x &&& 1 ≠ 0) = x.testBit 0 := by
  rw [Nat.and_one_is_mod, Nat.testBit_zero, decide_eq_decide]
  omega

theorem testBit_sig {inStr valueB vbPrev : Nat} (hp : (stateAt f v i).pend = false)
    (hin : inStr.testBit i = (stateAt f v i).inStr)
    (hvalue : valueB.testBit i = isValue (stateAt f v i) (v i))
    (hprev : vbPrev.testBit i = (stateAt f v i).prevVal) (hi : i < 16) :
    ((((eqMask v 123 ||| eqMask v 125 ||| eqMask v 91 ||| eqMask v 93 ||| eqMask v 58 |||
      eqMask v 44) &&& not16 inStr) ||| (eqMask v quote &&& not16 inStr &&& 65535) |||
        (valueB &&& not16 vbPrev &&& 65535)) &&& 65535).testBit i = significant f v i := by
  have hopen : (eqMask v quote &&& not16 inStr &&& 65535).testBit i =
      (decide (v i = quote) && !(stateAt f v i).inStr) := by
    rw [testBit_and_low hi, Nat.testBit_and, testBit_eqMask, testBit_not16 hi, hin,
      decide_eq_true hi, Bool.true_and]
  have hstart : (valueB &&& not16 vbPrev &&& 65535).testBit i =
      (isValue (stateAt f v i) (v i) && !(stateAt f v i).prevVal) := by
    rw [testBit_and_low hi, Nat.testBit_and, testBit_not16 hi, hvalue, hprev]
  rw [testBit_and_low hi, Nat.testBit_or, Nat.testBit_or, Nat.testBit_and, testBit_struct hi,
    testBit_not16 hi, hin, hopen, hstart, significant_eq hp]

theorem scanBlock_spec {f : Flags} {v : Nat → UInt8} (hf : f.pend = false) (hsane : f.Sane)
    (hv : ∀ i < 16, v i ≠ backslash) :
    (∀ i, (scanBlock v f.inStr f.prevVal).1.testBit i = (decide (i < 16) && significant f v i)) ∧
      (scanBlock v f.inStr f.prevVal).2.1 = (stateAt f v 16).inStr ∧
      (scanBlock v f.inStr f.prevVal).2.2 = (stateAt f v 16).prevVal := by
  have hin := fun i (hi : i < 16) => testBit_inStr hf hv hi
  have hvalue := fun i (hi : i < 16) => testBit_valueB (hin i hi) hi
  have hprev := fun i (hi : i < 16) => testBit_vbPrev hf hsane hv hvalue hi
  have hpend : ∀ i ≤ 16, (stateAt f v i).pend = false := fun i hi =>
    pend_stateAt hf fun j hj => hv j (by omega)
  refine ⟨fun i => ?_, ?_, ?_⟩
  · by_cases hi : i < 16
    · rw [decide_eq_true hi, Bool.true_and]
      exact testBit_sig (hpend i (by omega)) (hin i hi) (hvalue i hi) (hprev i hi) hi
    · rw [decide_eq_false hi, Bool.false_and]
      simp only [scanBlock]
      rw [Nat.testBit_and, testBit_low, decide_eq_false hi, Bool.and_false]
  · have hpar := testBit_prefix (v := v) (i := 15) (by decide)
    have hone : (1 : Nat).testBit 0 = true := rfl
    simp only [scanBlock]
    rw [decide_and_one, Nat.testBit_xor, Nat.testBit_and, Nat.testBit_and, hone, Bool.and_true,
      Bool.and_true, testBit_carry (by decide), Nat.testBit_shiftRight, hpar,
      inStr_stateAt hf hv]
  · have hlast := prevVal_next (hpend 15 (by decide)) (sane_stateAt hsane 15) (hv 15 (by decide))
    rw [stateAt, hlast, ← hvalue 15 (by decide)]
    simp only [scanBlock]
    rw [decide_and_one, Nat.testBit_shiftRight]

/-! ## The scans agree -/

theorem sane_walk {f : Flags} (hsane : f.Sane) (h : walk b cap i n (idx, f) = .ok s) :
    s.2.Sane := by
  induction n generalizing s with
  | zero =>
    cases h
    exact hsane
  | succ n ih =>
    rw [walk] at h
    obtain ⟨s', hwalk, hstep⟩ := Except.bind_eq_ok.mp h
    have hs' := ih hwalk
    rw [stepAt] at hstep
    split at hstep
    · cases hstep
      exact hs'
    · obtain ⟨c, -, hstep⟩ := Except.bind_eq_ok.mp hstep
      obtain ⟨idx', -, hstep⟩ := Except.bind_eq_ok.mp hstep
      cases hstep
      exact hs'.next c

theorem blockLoop_eq {mem : Memory b} (hsane : f.Sane) (hfuel : stop - p < fuel)
    (h : walk b cap p (stop - p) (idx, f) = .ok s) :
    blockLoop b mem stop cap fuel p f idx = .ok s.1 := by
  induction fuel generalizing p f idx with
  | zero => omega
  | succ fuel ih =>
    rw [blockLoop]
    split
    · next hle =>
      have hsplit : stop - p = 16 + (stop - (p + 16)) := by omega
      rw [hsplit, walk_add] at h
      obtain ⟨⟨idx', f'⟩, hblock, hrest⟩ := Except.bind_eq_ok.mp h
      have hsane' : f'.Sane := sane_walk hsane hblock
      have hnext := ih hsane' (by omega) hrest
      dsimp only
      split
      · next hslow =>
        rw [scalarAppend_eq _ _ _ (fun _ => by omega), Nat.add_sub_cancel_left, hblock]
        exact hnext
      · next hfast =>
        obtain ⟨hbs, hp⟩ := not_or.mp hfast
        rw [Bool.not_eq_true] at hp
        have hv : ∀ i < 16, vload16 mem p i ≠ backslash := fun i hi hc => by
          have := BitMask.ofPred_eq_zero.mp (not_not.mp hbs) i hi
          rw [decide_eq_false_iff_not] at this
          exact this hc
        obtain ⟨hf', hpush⟩ := walk_block hp hv hblock
        obtain ⟨hsig, hinstr, hpval⟩ := scanBlock_spec hp hsane hv
        have hlist : BitMask.toList 16 16 (scanBlock (vload16 mem p) f.inStr f.prevVal).1 =
            (List.range 16).filter (significant f (vload16 mem p)) := by
          rw [BitMask.toList_eq fun i hi => by
            rw [hsig, Bool.and_eq_true, decide_eq_true_eq] at hi
            omega]
          refine List.filter_congr fun i hi => ?_
          rw [hsig, decide_eq_true (List.mem_range.mp hi), Bool.true_and]
        have hflags : (⟨(scanBlock (vload16 mem p) f.inStr f.prevVal).2.1,
            (scanBlock (vload16 mem p) f.inStr f.prevVal).2.2, f.pend⟩ : Flags) = f' := by
          dsimp only at hf'
          rw [hinstr, hpval, hf', hp, ← pend_stateAt hp hv]
        rw [hlist, hpush, hflags]
        exact hnext
    · next hgt =>
      rcases Nat.lt_or_ge p stop with hlt | hge
      · rw [scalarAppend_eq _ _ _ (fun _ => hlt), h]
        rfl
      · obtain ⟨f', hnil⟩ := scalarAppend_nil b cap f idx hge
        rw [show stop - p = 0 by omega] at h
        cases h
        rw [hnil]
        rfl

theorem exists_walk (hb : p + n ≤ b.length) (hcap : idx.length + n ≤ cap)
    (hmax : idx.length + n ≤ 2147483648) :
    ∃ s, walk b cap p n (idx, f) = .ok s ∧ s.1.length ≤ idx.length + n := by
  induction n with
  | zero => exact ⟨_, rfl, Nat.le_refl _⟩
  | succ n ih =>
    obtain ⟨⟨idx', f'⟩, hwalk, hlen⟩ := ih (by omega) (by omega) (by omega)
    dsimp only at hlen
    rw [walk, hwalk, Except.ok_bind, stepAt]
    split
    · exact ⟨_, rfl, Nat.le_succ_of_le hlen⟩
    · rw [List.getElem?_eq_getElem (show p + n < b.length by omega)]
      simp only [Except.orThrow, Option.elim, Except.ok_bind]
      split
      · have hroom : i32 idx'.length = idx'.length := i32_eq (by omega) (by omega)
        rw [push, hroom, if_pos ⟨by omega, by omega⟩]
        refine ⟨_, rfl, ?_⟩
        rw [List.length_append, List.length_singleton]
        omega
      · exact ⟨_, rfl, Nat.le_succ_of_le hlen⟩

/-- The scan in blocks records what the byte scan over the same range records; over a range of the
buffer both record their positions when the index has an entry for each byte. -/
theorem buildRange_eq_scalarAppend (b : List UInt8) (mem : Memory b) (start stop cap : Nat) :
    (∀ idx f, scalarAppend b start stop cap ⟨false, false, false⟩ [] = .ok (idx, f) →
      buildRange b mem start stop cap = .ok idx) ∧
    (stop ≤ b.length → stop - start ≤ cap → stop - start ≤ 2147483648 →
      ∃ idx f, scalarAppend b start stop cap ⟨false, false, false⟩ [] = .ok (idx, f)) := by
  have hwalk := scalarAppend_eq b cap [] (f := ⟨false, false, false⟩)
    (show false = true → start < stop by simp)
  refine ⟨fun idx f h => ?_, fun hb hcap hmax => ?_⟩
  · exact blockLoop_eq (s := (idx, f)) (fun h => by cases h) (by omega) (hwalk ▸ h)
  · rw [hwalk]
    rcases Nat.lt_or_ge start stop with hlt | hge
    · obtain ⟨⟨idx, f⟩, h, -⟩ := exists_walk (b := b) (p := start)
        (n := stop - start) (f := ⟨false, false, false⟩) (by omega)
        (show ([] : List Nat).length + (stop - start) ≤ cap by rw [List.length_nil]; omega)
          (by rw [List.length_nil]; omega)
      exact ⟨idx, f, h⟩
    · rw [show stop - start = 0 by omega]
      exact ⟨[], _, rfl⟩

/-- Two strings in three blocks and two more bytes. The escape ends the first block, the quotation
mark after it starts the second, and the second string is open at the end of the third. -/
def twoStrings : List UInt8 :=
  [91, 34] ++ .replicate 13 97 ++ [92, 34] ++ .replicate 15 97 ++ [34, 44, 34] ++
    .replicate 13 97 ++ [34, 93]

theorem buildRange_eq_scalarAppend_escape :
    ∃ idx, (∃ f, scalarAppend twoStrings 0 50 50 ⟨false, false, false⟩ [] = .ok (idx, f)) ∧
      idx = [0, 1, 33, 34, 49] ∧ ∀ mem, buildRange twoStrings mem 0 50 50 = .ok idx := by
  let mem : Memory twoStrings := ⟨fun i => twoStrings.getD i 0, fun i c h => by
    rw [List.getD, h]
    rfl⟩
  obtain ⟨idx, f, h⟩ := (buildRange_eq_scalarAppend _ mem 0 50 50).2 (by decide) (by decide)
    (by decide)
  have hscan : scalarAppend twoStrings 0 50 50 ⟨false, false, false⟩ [] =
      .ok ([0, 1, 33, 34, 49], ⟨false, false, false⟩) := by
    decide +kernel
  obtain ⟨rfl, -⟩ := Prod.mk.inj (Except.ok.inj (h.symm.trans hscan))
  exact ⟨_, ⟨f, h⟩, rfl, fun mem => (buildRange_eq_scalarAppend _ mem 0 50 50).1 _ f h⟩

end JsonIndex

end Cajeta.Codec.Json
