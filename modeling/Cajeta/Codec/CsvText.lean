import Cajeta.Codec.CsvIndex

/-!
# What the CSV writer writes

The text of rows, and the writer that produces it as long as its buffer can grow.
-/

namespace Cajeta.Codec.Csv
open CsvWriter

def encField (value : List UInt8) : List UInt8 :=
  if needsQuote value then quote :: (value.flatMap escape ++ [quote]) else value

def encRow : List (List UInt8) → List UInt8
  | [] => [newline]
  | [value] => encField value ++ [newline]
  | value :: row => encField value ++ comma :: encRow row

def encRows (rows : List (List (List UInt8))) : List UInt8 := rows.flatMap encRow

/-- The size of a field: its bytes, one more for each quote, and the two quotes around it. -/
def fieldSize (value : List UInt8) : Nat :=
  value.length + value.count quote + if needsQuote value then 2 else 0

def rowSize (row : List (List UInt8)) : Nat := (row.map fun value => fieldSize value + 1).sum

def textSize (rows : List (List (List UInt8))) : Nat := (rows.map rowSize).sum

theorem needsQuote_of_mem_quote {value : List UInt8} (h : quote ∈ value) : needsQuote value :=
  List.any_eq_true.mpr ⟨quote, h, by decide⟩

theorem length_flatMap_escape (value : List UInt8) :
    (value.flatMap escape).length = value.length + value.count quote := by
  induction value with
  | nil => rfl
  | cons c value ih =>
    rw [List.flatMap_cons, List.length_append, ih, escape, List.count_cons, List.length_cons]
    by_cases hc : c = quote
    · rw [if_pos hc, if_pos (beq_iff_eq.mpr hc), List.length_cons, List.length_singleton]
      omega
    · rw [if_neg hc, if_neg (fun h => hc (beq_iff_eq.mp h)), List.length_singleton]
      omega

theorem length_encField (value : List UInt8) : (encField value).length = fieldSize value := by
  unfold encField fieldSize
  split
  · rw [List.length_cons, List.length_append, length_flatMap_escape, List.length_singleton]
  · next hneeds =>
    have hnone : value.count quote = 0 :=
      List.count_eq_zero.mpr fun hmem => hneeds (needsQuote_of_mem_quote hmem)
    rw [hnone]
    rfl

theorem encRow_cons : encRow (v :: row) =
    encField v ++ ((row.flatMap fun v => comma :: encField v) ++ [newline]) := by
  induction row generalizing v with
  | nil => rfl
  | cons v' row ih =>
    rw [encRow, ih, List.flatMap_cons, List.cons_append, List.cons_append, List.append_assoc]
    exact fun h => List.cons_ne_nil _ _ h

theorem length_encRow (h : row ≠ []) : (encRow row).length = rowSize row := by
  fun_induction encRow row with
  | case1 => exact absurd rfl h
  | case2 value =>
    rw [List.length_append, length_encField]
    rfl
  | case3 value row hrow ih =>
    have hne : row ≠ [] := fun hnil => hrow hnil
    rw [List.length_append, length_encField, List.length_cons, ih hne, rowSize, rowSize,
      List.map_cons, List.sum_cons]
    omega

theorem length_encRows (h : ∀ row ∈ rows, row ≠ []) : (encRows rows).length = textSize rows := by
  rw [encRows, List.length_flatMap, textSize]
  congr 1
  exact List.map_congr_left fun row hrow => length_encRow (h row hrow)

/-! ## One byte -/

/-- The writer has written `out`; its buffer has doubled at most as often as `int32` allows. -/
structure Wrote (w : CsvWriter) (out : List UInt8) : Prop where
  bytes : out <+: w.buf
  len_eq : w.len = out.length
  doubled : ∃ k ≤ 24, w.buf.length = 64 * 2 ^ k

namespace Wrote

theorem new : Wrote CsvWriter.new [] := ⟨List.nil_prefix, rfl, 0, by decide, rfl⟩

theorem toBytes_eq (h : Wrote w out) : w.toBytes = out := by
  rw [toBytes, h.len_eq]
  exact (List.prefix_iff_eq_take.mp h.bytes).symm

theorem length_buf_le (h : Wrote w out) : w.buf.length ≤ 2 ^ 30 := by
  obtain ⟨k, hk, hlen⟩ := h.doubled
  have hpow : 2 ^ k ≤ 2 ^ 24 := Nat.pow_le_pow_right (by decide) hk
  omega

theorem length_le (h : Wrote w out) : out.length ≤ 2 ^ 30 :=
  Nat.le_trans h.bytes.length_le h.length_buf_le

theorem int32_of_le (hn : n ≤ 2 ^ 30 + 1) : int32 (n : Nat) = n :=
  Int.bmod_eq_of_le (by omega) (by omega)

theorem growCap_zero (h : 0 < need) : growCap fuel 0 need = none := by
  induction fuel with
  | zero => rfl
  | succ fuel ih =>
    rw [growCap, if_pos h]
    exact ih

theorem growCap_negative (h : 0 < need) : growCap fuel (int32 (2 ^ 30 * 2)) need = none := by
  have hfirst : int32 (2 ^ 30 * 2) = -2 ^ 31 := by decide
  have hsecond : int32 (-2 ^ 31 * 2) = 0 := by decide
  cases fuel with
  | zero => rfl
  | succ fuel =>
    rw [growCap, hfirst, if_pos (by omega), hsecond]
    exact growCap_zero h

theorem put_full (h : Wrote w out) (hfull : out.length = 2 ^ 30) : w.put fuel c = none := by
  have hbuf : w.buf.length = 2 ^ 30 :=
    Nat.le_antisymm h.length_buf_le (hfull ▸ h.bytes.length_le)
  have hneed : int32 ((w.len : Int) + (1 : Nat)) = 2 ^ 30 + 1 := by
    rw [h.len_eq, hfull]
    rfl
  have hcap : int32 w.buf.length = 2 ^ 30 := by
    rw [hbuf]
    rfl
  have hens : w.ensure fuel 1 = none := by
    rw [ensure]
    simp only [hneed, hcap]
    rw [if_neg (by omega), growCap_negative (by omega)]
    rfl
  rw [put, hens]
  rfl

theorem growCap_double {n : Nat} (hpos : 0 < n) (hn : n * 2 ≤ 2 ^ 30)
    (hneed : need ≤ (n : Int) + 1) :
    growCap (fuel + 1) (int32 ((n : Int) * 2)) need = some ((n * 2 : Nat) : Int) := by
  have hdouble : int32 ((n : Int) * 2) = (n * 2 : Nat) := int32_of_le (n := n * 2) (by omega)
  rw [hdouble, growCap, if_neg (by omega)]

theorem ensure_spec (fuel : Nat) (h : Wrote w out) (hroom : out.length < 2 ^ 30) :
    ∃ w', w.ensure (fuel + 1) 1 = some w' ∧ Wrote w' out ∧ out.length < w'.buf.length ∧
      w'.atRowStart = w.atRowStart := by
  obtain ⟨k, hk, hbuf⟩ := h.doubled
  have hle := h.bytes.length_le
  have hneed : int32 ((w.len : Int) + (1 : Nat)) = (out.length + 1 : Nat) := by
    rw [h.len_eq]
    exact int32_of_le (n := out.length + 1) (by omega)
  have hcap : int32 w.buf.length = w.buf.length :=
    int32_of_le (Nat.le_succ_of_le h.length_buf_le)
  rw [ensure]
  simp only [hneed, hcap]
  by_cases hfits : out.length + 1 ≤ w.buf.length
  · rw [if_pos (by omega)]
    exact ⟨w, rfl, h, hfits, rfl⟩
  · have hk' : k < 24 := by
      refine Nat.lt_of_le_of_ne hk fun heq => ?_
      rw [heq] at hbuf
      omega
    have hpow : 2 ^ (k + 1) ≤ 2 ^ 24 := Nat.pow_le_pow_right (by decide) hk'
    rw [Nat.pow_succ] at hpow
    have hone : 1 ≤ 2 ^ k := Nat.one_le_two_pow
    rw [if_neg (by omega), growCap_double (by omega) (by omega) (by omega)]
    have hout : w.buf.take w.len = out := h.toBytes_eq
    have hnew : (out ++ List.replicate (w.buf.length * 2 - out.length) 0).length =
        w.buf.length * 2 := by
      rw [List.length_append, List.length_replicate]
      omega
    refine ⟨_, rfl, ⟨?_, h.len_eq, k + 1, hk', ?_⟩, ?_, rfl⟩
    · rw [hout]
      exact List.prefix_append ..
    · rw [hout, Int.toNat_natCast, h.len_eq, hnew, hbuf, Nat.pow_succ, Nat.mul_assoc]
    · rw [hout, Int.toNat_natCast, h.len_eq, hnew]
      omega

theorem exists_put (fuel : Nat) (c : UInt8) (h : Wrote w out) (hroom : out.length < 2 ^ 30) :
    ∃ w', w.put (fuel + 1) c = some w' ∧ Wrote w' (out ++ [c]) ∧
      w'.atRowStart = w.atRowStart := by
  obtain ⟨w₁, hens, h₁, hlt, hstart⟩ := h.ensure_spec fuel hroom
  obtain ⟨rest, hrest⟩ := h₁.bytes
  cases rest with
  | nil =>
    rw [← hrest, List.append_nil] at hlt
    exact absurd hlt (Nat.lt_irrefl _)
  | cons y rest =>
    have hpre : out ++ y :: rest <+: w₁.buf := ⟨[], by rw [List.append_nil, hrest]⟩
    obtain ⟨buf, hstore, hbuf, hlen⟩ := Slots.store_prefix c hpre
    refine ⟨{ w₁ with buf, len := w₁.len + 1 }, ?_, ⟨?_, ?_, ?_⟩, hstart⟩
    · rw [put, hens]
      show (do let buf ← Slots.store w₁.buf w₁.len c; _) = _
      rw [h₁.len_eq, hstore]
      rfl
    · exact List.IsPrefix.trans ⟨rest, by rw [List.append_assoc]; rfl⟩ hbuf
    · rw [List.length_append, h₁.len_eq]
      rfl
    · obtain ⟨k, hk, hbuf₁⟩ := h₁.doubled
      exact ⟨k, hk, hlen.trans hbuf₁⟩

theorem put_succ {w : CsvWriter} (h : w.put 0 c = some w') : w.put 1 c = some w' := by
  unfold put ensure at *
  simp only at *
  split at h
  · next hfits =>
    rw [if_pos hfits]
    exact h
  · cases h

end Wrote

/-! ## The writer's operations -/

/-- From a writer that is at the start of a row as `s` says, `f` writes `o` and leaves it as `s'`
says; with any fuel it succeeds as long as the text stays within `2 ^ 30` bytes. -/
structure Writes (f : Nat → CsvWriter → Option CsvWriter) (s s' : Bool) (o : List UInt8) : Prop
    where
  sound (fuel : Nat) : Wrote w out → w.atRowStart = s → f fuel w = some w' →
    Wrote w' (out ++ o) ∧ w'.atRowStart = s'
  complete (fuel : Nat) : Wrote w out → w.atRowStart = s → (out ++ o).length ≤ 2 ^ 30 →
    ∃ w', f (fuel + 1) w = some w'

namespace Writes

theorem of_eq (hf : Writes f s s' o) (hfg : ∀ fuel w, g fuel w = f fuel w) :
    Writes g s s' o where
  sound fuel h hs hw := hf.sound fuel h hs ((hfg _ _).symm.trans hw)
  complete fuel h hs hroom := by
    obtain ⟨w', hw'⟩ := hf.complete fuel h hs hroom
    exact ⟨w', (hfg _ _).trans hw'⟩

theorem skip : Writes (fun _ w => some w) s s [] where
  sound _ h hs hw := by
    cases hw
    rw [List.append_nil]
    exact ⟨h, hs⟩
  complete _ _ _ _ := ⟨_, rfl⟩

theorem bind (hf : Writes f s s' o) (hg : Writes g s' s'' o') :
    Writes (fun fuel w => f fuel w >>= g fuel) s s'' (o ++ o') where
  sound fuel h hs hw := by
    obtain ⟨w₁, hw₁, hw'⟩ := Option.bind_eq_some_iff.mp hw
    obtain ⟨h₁, hs₁⟩ := hf.sound fuel h hs hw₁
    rw [← List.append_assoc]
    exact hg.sound fuel h₁ hs₁ hw'
  complete {w out} fuel h hs hroom := by
    rw [← List.append_assoc] at hroom
    have hroom₁ : (out ++ o).length ≤ 2 ^ 30 := by
      rw [List.length_append] at hroom
      omega
    obtain ⟨w₁, hw₁⟩ := hf.complete fuel h hs hroom₁
    obtain ⟨h₁, hs₁⟩ := hf.sound (fuel + 1) h hs hw₁
    obtain ⟨w', hw'⟩ := hg.complete fuel h₁ hs₁ hroom
    exact ⟨w', Option.bind_eq_some_iff.mpr ⟨w₁, hw₁, hw'⟩⟩

theorem put (c : UInt8) : Writes (fun fuel w => w.put fuel c) s s [c] where
  sound {w out w'} fuel h hs hw := by
    have hroom : out.length < 2 ^ 30 := by
      refine Nat.lt_of_le_of_ne h.length_le fun hfull => ?_
      rw [h.put_full hfull] at hw
      cases hw
    have hpos : ∃ fuel, w.put (fuel + 1) c = some w' := by
      cases fuel with
      | zero => exact ⟨0, Wrote.put_succ hw⟩
      | succ fuel => exact ⟨fuel, hw⟩
    obtain ⟨fuel, hw⟩ := hpos
    obtain ⟨w₁, hw₁, h₁, hs₁⟩ := h.exists_put fuel c hroom
    cases hw.symm.trans hw₁
    exact ⟨h₁, hs₁.trans hs⟩
  complete fuel h _ hroom := by
    rw [List.length_append, List.length_singleton] at hroom
    obtain ⟨w', hw', _⟩ := h.exists_put fuel c (Nat.lt_of_succ_le hroom)
    exact ⟨w', hw'⟩

theorem putAll : Writes (fun fuel w => w.putAll fuel cs) s s cs := by
  induction cs with
  | nil => exact skip
  | cons c cs ih =>
    have hstep : (fun fuel (w : CsvWriter) => w.putAll fuel (c :: cs)) =
        fun fuel w => w.put fuel c >>= fun w => w.putAll fuel cs := by
      funext fuel w
      exact List.foldlM_cons
    rw [hstep]
    exact (put c).bind ih

theorem enter (b : Bool) : Writes (fun _ w => some { w with atRowStart := b }) s b [] where
  sound _ h _ hw := by
    cases hw
    rw [List.append_nil]
    exact ⟨⟨h.bytes, h.len_eq, h.doubled⟩, rfl⟩
  complete _ _ _ _ := ⟨_, rfl⟩

theorem separator : Writes (fun fuel w => if w.atRowStart then some w else w.put fuel comma) s s
    (if s then [] else [comma]) := by
  cases s with
  | true =>
    refine ⟨fun fuel h hs hw => ?_, fun _ h hs _ => ⟨_, if_pos hs⟩⟩
    rw [if_pos hs] at hw
    exact skip.sound fuel h hs hw
  | false =>
    have hne : ∀ {w : CsvWriter}, w.atRowStart = false → ¬ w.atRowStart = true := fun hs h =>
      Bool.false_ne_true (hs.symm.trans h)
    refine ⟨fun fuel h hs hw => (put comma).sound fuel h hs (by rwa [if_neg (hne hs)] at hw),
      fun fuel h hs hroom => ?_⟩
    rw [if_neg (hne hs)]
    exact (put comma).complete fuel h hs hroom

theorem value : Writes (fun fuel w => if needsQuote v then do
      let w ← w.put fuel quote
      let w ← w.putAll fuel (v.flatMap escape)
      w.put fuel quote
    else w.putAll fuel v) s s (encField v) := by
  unfold encField
  split
  · exact (put quote).bind (putAll.bind (put quote))
  · exact putAll

theorem writeField_eq (hread : readOf v = u) : CsvWriter.writeField fuel w v =
    ((if w.atRowStart then some w else w.put fuel comma) >>= fun w =>
      some { w with atRowStart := false } >>= fun w => if needsQuote u then do
          let w ← w.put fuel quote
          let w ← w.putAll fuel (u.flatMap escape)
          w.put fuel quote
        else w.putAll fuel u) := by
  rw [CsvWriter.writeField, hread]
  cases w.atRowStart with
  | true => simp only [if_pos, Option.bind_eq_bind, Option.bind_some]
  | false => simp only [if_neg Bool.false_ne_true, Option.bind_eq_bind, Option.bind_some]

theorem writeField (v : List UInt8) : Writes (fun fuel w => w.writeField fuel v) s false
    ((if s then [] else [comma]) ++ encField (readOf v)) := by
  generalize hread : readOf v = u
  have h := separator.bind ((enter (s := s) false).bind (value (v := u)))
  rw [List.nil_append] at h
  exact h.of_eq fun fuel w => writeField_eq hread

theorem fields (row : List (List UInt8)) :
    Writes (fun fuel w => row.foldlM (CsvWriter.writeField fuel) w) false false
      ((row.map readOf).flatMap fun v => comma :: encField v) := by
  induction row with
  | nil => exact skip
  | cons v row ih =>
    have h := (writeField (s := false) v).bind ih
    rw [if_neg Bool.false_ne_true, List.singleton_append] at h
    rw [List.map_cons, List.flatMap_cons]
    exact h.of_eq fun fuel w => List.foldlM_cons

theorem endRow : Writes (fun fuel w => w.endRow fuel) s true [newline] := by
  have h := (put (s := s) newline).bind (enter true)
  rw [List.append_nil] at h
  exact h.of_eq fun fuel w => rfl

theorem writeRow (row : List (List UInt8)) :
    Writes (fun fuel w => w.writeRow fuel row) true true (encRow (row.map readOf)) := by
  cases row with
  | nil => exact skip.bind endRow
  | cons v row =>
    have h := (writeField (s := true) v).bind ((fields row).bind endRow)
    rw [if_pos rfl, List.nil_append, ← encRow_cons] at h
    refine h.of_eq fun fuel w => ?_
    rw [CsvWriter.writeRow, List.foldlM_cons]
    exact Option.bind_assoc ..

theorem writeRows (rows : List (List (List UInt8))) :
    Writes (fun fuel w => rows.foldlM (CsvWriter.writeRow fuel) w) true true
      (encRows (rows.map fun row => row.map readOf)) := by
  induction rows with
  | nil => exact skip
  | cons row rows ih => exact ((writeRow row).bind ih).of_eq fun fuel w => List.foldlM_cons

end Writes

end Cajeta.Codec.Csv
