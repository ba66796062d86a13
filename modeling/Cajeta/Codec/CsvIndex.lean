import Cajeta.Codec.Csv
import Mathlib.Data.List.Range

/-!
# The structural index of CSV

The scan of whole blocks and of the tail finds the delimiters that stand behind an even number of
quotes.
-/

namespace Cajeta.Codec.Csv

/-! ## The scan, byte by byte -/

/-- Whether the number of quotes is odd. -/
def parity : List UInt8 → Bool
  | [] => false
  | c :: cs => (decide (c = quote)) ^^ parity cs

theorem parity_append : parity (a ++ b) = (parity a ^^ parity b) := by
  induction a with
  | nil => simp [parity]
  | cons c a ih => simp [parity, ih]

/-- A separator of fields or of rows. -/
def delim (c : UInt8) : Bool := c = comma || c = newline

/-- The structural positions of bytes that start at `off`, in a quoted field or not. -/
def scan (inq : Bool) (off : Nat) : List UInt8 → List Nat
  | [] => []
  | c :: cs =>
    if c = quote then scan (!inq) (off + 1) cs
    else if !inq && delim c then off :: scan inq (off + 1) cs
    else scan inq (off + 1) cs

theorem scan_append :
    scan inq off (a ++ b) = scan inq off a ++ scan (inq ^^ parity a) (off + a.length) b := by
  induction a generalizing inq off with
  | nil => simp [scan, parity]
  | cons c a ih =>
    have hoff : off + (c :: a).length = off + 1 + a.length := by
      rw [List.length_cons]
      omega
    rw [hoff, List.cons_append, scan, scan, parity]
    split
    · next hc => rw [ih, hc, decide_eq_true rfl, ← Bool.xor_assoc, Bool.xor_true]
    · next hc =>
      rw [decide_eq_false hc, Bool.false_xor]
      split
      · rw [ih, List.cons_append]
      · rw [ih]

theorem length_scan_le : (scan inq off bs).length ≤ bs.length := by
  induction bs generalizing inq off with
  | nil => exact Nat.le_refl 0
  | cons c bs ih =>
    rw [scan]
    split
    · exact Nat.le_succ_of_le ih
    · split
      · exact Nat.succ_le_succ ih
      · exact Nat.le_succ_of_le ih

theorem mem_scan_lt (h : i ∈ scan inq off bs) : i < off + bs.length := by
  induction bs generalizing inq off with
  | nil => cases h
  | cons c bs ih =>
    rw [List.length_cons]
    rw [scan] at h
    split at h
    · have := ih h
      omega
    · split at h
      · rcases List.mem_cons.mp h with rfl | h
        · omega
        · have := ih h
          omega
      · have := ih h
        omega

/-- The byte at `i` is structural. -/
def structural (inq : Bool) (bs : List UInt8) (i : Nat) : Bool :=
  bs[i]?.any delim && !(inq ^^ parity (bs.take i))

theorem scan_eq_filter : scan inq off bs =
    ((List.range bs.length).filter (structural inq bs)).map (off + ·) := by
  induction bs generalizing inq off with
  | nil => rfl
  | cons c bs ih =>
    have hnext : structural inq (c :: bs) ∘ Nat.succ =
      structural (inq ^^ decide (c = quote)) bs := by
      funext i
      simp [structural, parity]
    have htail : ((List.range bs.length).map Nat.succ).filter (structural inq (c :: bs)) =
        ((List.range bs.length).filter (structural (inq ^^ decide (c = quote)) bs)).map
          Nat.succ := by
      rw [List.filter_map, hnext]
    have hmap : ∀ l : List Nat, (l.map Nat.succ).map (off + ·) = l.map (off + 1 + ·) := fun l => by
      rw [List.map_map]
      refine List.map_congr_left fun i _ => ?_
      simp only [Function.comp_apply]
      omega
    have hhead : structural inq (c :: bs) 0 = (delim c && !inq) := by
      simp [structural, parity]
    rw [List.length_cons, List.range_succ_eq_map, List.filter_cons, hhead, htail, scan]
    split
    · next hc =>
      have hnot : (delim c && !inq) = false := by
        rw [hc]
        rfl
      rw [hnot, if_neg Bool.false_ne_true, hmap, decide_eq_true hc, Bool.xor_true, ← ih]
    · next hc =>
      rw [decide_eq_false hc, Bool.xor_false, Bool.and_comm]
      split
      · rw [List.map_cons, hmap, ← ih]
        rfl
      · rw [hmap, ← ih]

namespace CsvIndex

theorem testBit_eqMask : (eqMask v c).testBit i = (decide (i < 16) && decide (v[i]? = some c)) :=
  BitMask.testBit_ofPred

theorem testBit_low : (65535 : Nat).testBit i = decide (i < 16) :=
  Nat.testBit_two_pow_sub_one 16 i

theorem parityTo_eqMask (hi : i < 16) (hn : n ≤ i + 1) (hv : v.length = 16) :
    parity (v.take (i + 1)) =
      (parity (v.take (i + 1 - n)) ^^ BitMask.parityTo (eqMask v quote) i n) := by
  induction n with
  | zero => simp [BitMask.parityTo]
  | succ n ih =>
    have hlt : i - n < v.length := by omega
    have htake : v.take (i + 1 - n) = v.take (i + 1 - (n + 1)) ++ [v[i - n]] := by
      rw [show i + 1 - n = i - n + 1 by omega, List.take_succ_eq_append_getElem hlt,
        show i + 1 - (n + 1) = i - n by omega]
    rw [ih (by omega), htake, parity_append, BitMask.parityTo, testBit_eqMask,
      List.getElem?_eq_getElem hlt]
    simp [parity, show n ≤ i by omega, show i - n < 16 by omega, Bool.xor_comm,
      Bool.xor_left_comm]

theorem testBit_window (hi : i < 16) (hv : v.length = 16) :
    (BitMask.prefixXor16 (eqMask v quote) &&& 65535).testBit i = parity (v.take (i + 1)) := by
  have hreach := BitMask.parityTo_add (eqMask v quote) i (i + 1) (16 - (i + 1))
  rw [show i + 1 + (16 - (i + 1)) = 16 by omega, decide_eq_false (by omega : ¬ i + 1 ≤ i),
    Bool.false_and, Bool.xor_false] at hreach
  rw [Nat.testBit_and, BitMask.testBit_prefixXor16, testBit_low, decide_eq_true hi, Bool.and_true,
    hreach, parityTo_eqMask hi (Nat.le_refl _) hv, Nat.sub_self, List.take_zero, parity,
    Bool.false_xor]

theorem testBit_scanBlock (hv : v.length = 16) :
    (scanBlock inq v).1.testBit i = (decide (i < 16) && structural inq v i) := by
  by_cases hi : i < 16
  · have hcarry : (if inq then 65535 else 0).testBit i = inq := by
      cases inq
      · simp
      · simpa [testBit_low] using hi
    have hshift : ((BitMask.prefixXor16 (eqMask v quote) &&& 65535) <<< 1).testBit i =
        parity (v.take i) := by
      rw [Nat.testBit_shiftLeft]
      cases i with
      | zero => simp [parity]
      | succ i => simp [testBit_window (show i < 16 by omega) hv]
    have hdelim : (eqMask v comma ||| eqMask v newline).testBit i = v[i]?.any delim := by
      rw [Nat.testBit_or, testBit_eqMask, testBit_eqMask]
      cases v[i]? <;> simp [delim, hi]
    simp only [scanBlock]
    rw [Nat.testBit_and, hdelim, Nat.testBit_xor, Nat.testBit_and, Nat.testBit_xor, hcarry, hshift,
      testBit_low, structural]
    simp [hi]
  · simp only [scanBlock]
    rw [Nat.testBit_and, Nat.testBit_or, testBit_eqMask, testBit_eqMask]
    simp [hi]

theorem scanBlock_snd (hv : v.length = 16) : (scanBlock inq v).2 = (inq ^^ parity v) := by
  have hodd : ∀ x : Nat, decide (x &&& 1 ≠ 0) = x.testBit 0 := fun x => by
    rw [Nat.and_one_is_mod, Nat.testBit_zero, decide_eq_decide]
    omega
  have hcarry : (if inq then 65535 else 0).testBit 0 = inq := by
    cases inq <;> rfl
  have hpar := testBit_window (i := 15) (by omega) hv
  rw [show v.take (15 + 1) = v from List.take_of_length_le (by omega)] at hpar
  simp only [scanBlock]
  rw [hodd, Nat.testBit_xor, Nat.testBit_and, Nat.testBit_and, hcarry, Nat.testBit_shiftRight, hpar]
  simp

theorem toList_scanBlock (hv : v.length = 16) :
    (BitMask.toList 16 16 (scanBlock inq v).1).map (p + ·) = scan inq p v := by
  have hwithin : BitMask.Within 16 16 (scanBlock inq v).1 := fun i hi => by
    rw [testBit_scanBlock hv, Bool.and_eq_true, decide_eq_true_eq] at hi
    omega
  rw [BitMask.toList_eq hwithin, scan_eq_filter, hv]
  congr 1
  refine List.filter_congr fun i hi => ?_
  rw [testBit_scanBlock hv, decide_eq_true (List.mem_range.mp hi), Bool.true_and]

/-! ## The index in its array -/

/-- The entries that an array of `cap` takes: the count must not become negative either. -/
def room (cap : Nat) : Nat := min cap (2 ^ 31)

/-- The whole of `ps` behind `idx`, when there is room for it. -/
def store (cap : Nat) (idx ps : List Int) : Except CsvFault (List Int) :=
  if idx.length + ps.length ≤ room cap then .ok (idx ++ ps) else .error .index

theorem append_eq (h : xs.length ≤ room cap) :
    append fault cap xs x =
      if xs.length + 1 ≤ room cap then .ok (xs ++ [x]) else .error fault := by
  have hroom : (0 ≤ int32 xs.length ∧ int32 xs.length < cap) ↔ xs.length + 1 ≤ room cap := by
    unfold room int32 at *
    rcases Nat.lt_or_ge xs.length (2 ^ 31) with hlt | hge
    · rw [Int.bmod_eq_of_le (by omega) (by omega)]
      omega
    · rw [show xs.length = 2 ^ 31 by omega, show Int.bmod ((2 ^ 31 : Nat) : Int) (2 ^ 32) = -2 ^ 31
        by decide]
      omega
  unfold append
  by_cases hfits : xs.length + 1 ≤ room cap
  · rw [if_pos (hroom.mpr hfits), if_pos hfits]
    rfl
  · rw [if_neg (fun hok => hfits (hroom.mp hok)), if_neg hfits]
    rfl

theorem store_nil (h : idx.length ≤ room cap) : store cap idx [] = .ok idx := by
  rw [store, List.length_nil, Nat.add_zero, if_pos h, List.append_nil]

theorem store_bind :
    (store cap idx ps >>= fun idx => store cap idx qs) = store cap idx (ps ++ qs) := by
  unfold store
  by_cases hps : idx.length + ps.length ≤ room cap
  · rw [if_pos hps]
    simp only [bind, Except.bind, List.length_append, List.append_assoc, Nat.add_assoc]
  · rw [if_neg hps, if_neg (by rw [List.length_append]; omega)]
    rfl

theorem length_of_store (h : store cap idx ps = .ok idx') : idx'.length ≤ room cap := by
  unfold store at h
  split at h
  · next hroom =>
    cases h
    rwa [List.length_append]
  · cases h

theorem store_bind_congr {f g : List Int → Except CsvFault α}
    (hfg : ∀ idx', idx'.length ≤ room cap → f idx' = g idx') :
    (store cap idx ps >>= f) = (store cap idx ps >>= g) := by
  cases hps : store cap idx ps with
  | error fault => rfl
  | ok idx' => exact hfg idx' (length_of_store hps)

theorem append_eq_store (h : idx.length ≤ room cap) :
    append .index cap idx x = store cap idx [x] := append_eq h

theorem appendAll_eq (h : idx.length ≤ room cap) : appendAll cap idx ps = store cap idx ps := by
  induction ps generalizing idx with
  | nil => exact (store_nil h).symm
  | cons x ps ih =>
    have hstep : appendAll cap idx (x :: ps) =
        (append .index cap idx x >>= fun idx => appendAll cap idx ps) := List.foldlM_cons
    rw [hstep, append_eq_store h, store_bind_congr fun idx' h' => ih h', store_bind]
    rfl

theorem buildBlocks_eq (h : idx.length ≤ room cap) (hb : p + 16 * blocks ≤ b.length) :
    buildBlocks b cap inq p idx blocks =
      (store cap idx ((scan inq p ((b.drop p).take (16 * blocks))).map fun i : Nat => int32 i)).map
        fun idx => (idx, inq ^^ parity ((b.drop p).take (16 * blocks))) := by
  induction blocks generalizing inq p idx with
  | zero =>
    rw [Nat.mul_zero, List.take_zero, scan, List.map_nil, store_nil h, parity, Bool.xor_false]
    rfl
  | succ blocks ih =>
    have hlen : ((b.drop p).take 16).length = 16 := by
      rw [List.length_take, List.length_drop]
      omega
    have hsplit : (b.drop p).take (16 * (blocks + 1)) =
        (b.drop p).take 16 ++ (b.drop (p + 16)).take (16 * blocks) := by
      rw [show 16 * (blocks + 1) = 16 + 16 * blocks by omega, List.take_add, List.drop_drop]
    have hmap : ((BitMask.toList 16 16 (scanBlock inq ((b.drop p).take 16)).1).map
        fun i : Nat => int32 (p + i : Nat)) =
          (scan inq p ((b.drop p).take 16)).map fun i : Nat => int32 i := by
      rw [← toList_scanBlock hlen, List.map_map]
      exact List.map_congr_left fun i _ => by rw [Function.comp_apply]
    have hstep : buildBlocks b cap inq p idx (blocks + 1) =
        (appendAll cap idx ((BitMask.toList 16 16 (scanBlock inq ((b.drop p).take 16)).1).map
          fun i : Nat => int32 (p + i : Nat)) >>= fun idx =>
            buildBlocks b cap (scanBlock inq ((b.drop p).take 16)).2 (p + 16) idx blocks) := by
      rw [buildBlocks]
    rw [hstep, hmap, scanBlock_snd hlen, appendAll_eq h,
      store_bind_congr fun idx' h' => ih h' (by omega), hsplit, scan_append, hlen,
      List.map_append, parity_append, ← store_bind]
    cases store cap idx _ with
    | error fault => rfl
    | ok idx' => rw [Bool.xor_assoc]; rfl

theorem byteAt_of_getElem? (h : b[i]? = some c) : byteAt b (i : Nat) = .ok c := by
  rw [byteAt, if_neg (by omega), Int.toNat_natCast, h]
  rfl

theorem tailAppend_eq (h : idx.length ≤ room cap) (hb : i + rem ≤ b.length) :
    tailAppend b cap inq idx i rem =
      store cap idx ((scan inq i ((b.drop i).take rem)).map fun i : Nat => int32 i) := by
  induction rem generalizing inq idx i with
  | zero => rw [List.take_zero, scan, List.map_nil, store_nil h]; rfl
  | succ rem ih =>
    have hlt : i < b.length := by omega
    rw [tailAppend, byteAt_of_getElem? (List.getElem?_eq_getElem hlt),
      List.drop_eq_getElem_cons hlt,
      List.take_succ_cons, scan]
    show (if b[i] = quote then _ else _) = _
    split
    · exact ih h (by omega)
    · rw [show (decide (b[i] = comma) || decide (b[i] = newline)) = delim b[i] from rfl]
      split
      · rw [append_eq_store h, store_bind_congr fun idx' h' => ih h' (by omega), store_bind]
        rfl
      · exact ih h (by omega)

theorem build_eq :
    build b cap = store cap [] ((scan false 0 b).map fun i : Nat => int32 i) := by
  have hsplit : b = b.take (16 * (b.length / 16)) ++
      (b.drop (16 * (b.length / 16))).take (b.length % 16) := by
    rw [List.take_of_length_le (l := b.drop _) (by rw [List.length_drop]; omega),
      List.take_append_drop]
  have hlen : (b.take (16 * (b.length / 16))).length = 16 * (b.length / 16) := by
    rw [List.length_take]
    omega
  have hscan := congrArg (scan false 0) hsplit
  rw [scan_append, hlen, Nat.zero_add, Bool.false_xor] at hscan
  rw [build, buildBlocks_eq (Nat.zero_le _) (by omega), List.drop_zero, hscan, List.map_append,
    ← store_bind, Bool.false_xor]
  cases hblocks : store cap [] _ with
  | error fault => rfl
  | ok idx =>
    exact tailAppend_eq (length_of_store hblocks) (by omega)

end CsvIndex

end Cajeta.Codec.Csv
