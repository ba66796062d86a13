import Cajeta.Codec.CsvText
import Cajeta.Lib.Result
import Cajeta.Lib.Transition
import Mathlib.Algebra.Order.BigOperators.Group.List
import Mathlib.Algebra.Order.Group.Nat

/-!
# Reading back what was written

The scan sees nothing in an encoded field, so the index has the ends of the fields and of the rows
and the reader finds the fields between them.
-/

namespace Cajeta.Codec.Csv
open CsvWriter
open CsvReader (cap unquote quoted readRange)
variable {value : List UInt8} {r : CsvReader} {spans : List (Int × Int)}

theorem not_needsQuote (h : ¬ needsQuote value) (hc : c ∈ value) :
    c ≠ quote ∧ delim c = false ∧ c ≠ carriageReturn := by
  have hnot : ¬ (c = comma ∨ c = quote ∨ c = newline ∨ c = carriageReturn) := fun hspecial =>
    h (List.any_eq_true.mpr ⟨c, hc, by simpa [or_assoc] using hspecial⟩)
  refine ⟨fun hq => hnot (by simp [hq]), ?_, fun hr => hnot (by simp [hr])⟩
  refine Bool.eq_false_iff.mpr fun hd => ?_
  simp only [delim, Bool.or_eq_true, decide_eq_true_eq] at hd
  rcases hd with hd | hd
  · exact hnot (Or.inl hd)
  · exact hnot (Or.inr (Or.inr (Or.inl hd)))

theorem scan_plain (off : Nat) (h : ∀ c ∈ bs, c ≠ quote ∧ delim c = false) :
    scan inq off bs = [] ∧ parity bs = false := by
  induction bs generalizing off with
  | nil => exact ⟨rfl, rfl⟩
  | cons c bs ih =>
    obtain ⟨hq, hd⟩ := h c List.mem_cons_self
    obtain ⟨hscan, hpar⟩ := ih (off + 1) fun c' hc' => h c' (List.mem_cons_of_mem _ hc')
    rw [scan, if_neg hq, hd, Bool.and_false, if_neg Bool.false_ne_true, parity,
      decide_eq_false hq, hpar]
    exact ⟨hscan, rfl⟩

theorem scan_escape (off : Nat) (c : UInt8) :
    scan true off (escape c) = [] ∧ parity (escape c) = false := by
  unfold escape
  split
  · exact ⟨rfl, rfl⟩
  · next hc =>
    rw [scan, if_neg hc, parity, decide_eq_false hc]
    exact ⟨rfl, rfl⟩

theorem scan_escaped (off : Nat) (value : List UInt8) :
    scan true off (value.flatMap escape) = [] ∧ parity (value.flatMap escape) = false := by
  induction value generalizing off with
  | nil => exact ⟨rfl, rfl⟩
  | cons c value ih =>
    obtain ⟨hscan, hpar⟩ := scan_escape off c
    obtain ⟨hrest, hrest'⟩ := ih (off + (escape c).length)
    rw [List.flatMap_cons, scan_append, parity_append, hscan, hpar, hrest']
    exact ⟨hrest, rfl⟩

theorem scan_encField (off : Nat) (value : List UInt8) :
    scan false off (encField value) = [] ∧ parity (encField value) = false := by
  unfold encField
  split
  · obtain ⟨hscan, hpar⟩ := scan_escaped (off + 1) value
    rw [scan, if_pos rfl, scan_append, parity, parity_append, Bool.not_false, hscan, hpar]
    exact ⟨rfl, rfl⟩
  · next hneeds =>
    exact scan_plain off fun c hc => ⟨(not_needsQuote hneeds hc).1, (not_needsQuote hneeds hc).2.1⟩

theorem scan_field (value : List UInt8) (hpar : parity pre = false) (hd : delim d) :
    scan false 0 (pre ++ encField value ++ [d]) =
        scan false 0 pre ++ [pre.length + (encField value).length] ∧
      parity (pre ++ encField value ++ [d]) = false := by
  have hd' : d ≠ quote := by
    intro heq
    rw [heq] at hd
    cases hd
  have hpar' : parity (pre ++ encField value) = false := by
    rw [parity_append, hpar, (scan_encField 0 value).2]
    rfl
  rw [scan_append, hpar', scan_append, parity_append, hpar', hpar, Bool.xor_false,
    (scan_encField _ value).1, scan, if_neg hd', hd, parity, decide_eq_false hd', List.append_nil,
      List.length_append,
    Nat.zero_add]
  exact ⟨rfl, rfl⟩

theorem encField_getLast (h : encField value = u ++ [c]) : c ≠ carriageReturn := by
  unfold encField at h
  split at h
  · rw [← List.cons_append] at h
    have hc := (List.append_inj' h rfl).2
    cases hc
    decide
  · next hneeds =>
    exact (not_needsQuote hneeds (h ▸ List.mem_append_right u List.mem_cons_self)).2.2

/-! ## The spans of a row -/

/-- Where the fields of a row lie that starts at `off`. -/
def spansOf (off : Nat) : List (List UInt8) → List (Int × Int)
  | [] => []
  | value :: row =>
    (off, off + (encField value).length) :: spansOf (off + (encField value).length + 1) row

/-- The reader has the index of its text, which is short enough for `int32` positions. -/
structure Indexed (r : CsvReader) : Prop where
  idx_eq : r.idx = (scan false 0 r.buf).map fun i : Nat => (i : Int)
  short : r.buf.length ≤ 2 ^ 30

theorem Indexed.append_span (h : Indexed r) {spans : List (Int × Int)}
    (hspans : spans.length ≤ r.buf.length) :
    append .span (cap r.buf) spans x = .ok (spans ++ [x]) := by
  have hshort := h.short
  rw [CsvIndex.append_eq (by unfold CsvIndex.room cap; omega),
    if_pos (by unfold CsvIndex.room cap; omega)]

theorem byteAt_append (pre : List UInt8) (c : UInt8) (post : List UInt8) :
    byteAt (pre ++ c :: post) (pre.length : Nat) = .ok c :=
  CsvIndex.byteAt_of_getElem?
    (by rw [List.getElem?_append_right (Nat.le_refl _), Nat.sub_self]; rfl)

theorem fieldEnd_eq (hbuf : r.buf = pre ++ encField value ++ post) :
    r.fieldEnd pre.length (pre.length + (encField value).length : Nat) d =
      .ok (pre.length + (encField value).length : Nat) := by
  unfold CsvReader.fieldEnd
  split
  · next hend =>
    rcases List.eq_nil_or_concat (encField value) with hnil | ⟨u, c, hlast⟩
    · rw [hnil, List.length_nil] at hend
      omega
    · have hat : byteAt r.buf ((pre.length + (encField value).length : Nat) - 1) = .ok c := by
        rw [hbuf, hlast, List.concat_eq_append, List.length_append, List.length_singleton,
          show ((pre.length + (u.length + 1) : Nat) : Int) - 1 = (pre ++ u).length by
            rw [List.length_append]; omega]
        simpa using byteAt_append (pre ++ u) c post
      rw [List.concat_eq_append] at hlast
      rw [hat]
      show Except.ok (if c = carriageReturn then _ else _) = _
      rw [if_neg (encField_getLast hlast)]
  · rfl

theorem rowLoop_succ (hget : r.idx[di]? = some dpos) (hdc : byteAt r.buf dpos = .ok d)
    (hend : r.fieldEnd fieldStart dpos d = .ok fend)
    (hspan : append .span (cap r.buf) spans (fieldStart, fend) = .ok spans') :
    r.rowLoop di fieldStart spans (rem + 1) =
      if d = newline then .ok { r with di := di + 1, pos := dpos + 1, spans := spans' }
      else r.rowLoop (di + 1) (dpos + 1) spans' rem := by
  rw [CsvReader.rowLoop, hget]
  show (byteAt r.buf dpos >>= _) = _
  rw [hdc, Except.ok_bind, hend, Except.ok_bind, hspan, Except.ok_bind]
  split
  · rfl
  · rfl

theorem rowLoop_field (h : Indexed r) (hbuf : r.buf = pre ++ encField value ++ d :: post)
    (hpar : parity pre = false) (hd : delim d) (hspans : spans.length ≤ pre.length) :
    r.rowLoop (scan false 0 pre).length pre.length spans
        (r.idx.length - (scan false 0 pre).length) =
      let next := pre ++ encField value ++ [d]
      let spans := spans ++ [((pre.length : Int), (pre.length : Int) + (encField value).length)]
      if d = newline then
        .ok { r with di := (scan false 0 next).length, pos := next.length, spans }
      else r.rowLoop (scan false 0 next).length next.length spans
        (r.idx.length - (scan false 0 next).length) := by
  obtain ⟨hscan, -⟩ := scan_field value hpar hd
  have hbuf' : r.buf = pre ++ encField value ++ [d] ++ post := by
    rw [hbuf, List.append_assoc _ [d]]
    rfl
  have hidx : r.idx = ((scan false 0 pre ++ [pre.length + (encField value).length]) ++
      scan (false ^^ parity (pre ++ encField value ++ [d]))
        (0 + (pre ++ encField value ++ [d]).length) post).map fun i : Nat => (i : Int) := by
    rw [h.idx_eq, hbuf', scan_append, hscan]
  have hget : r.idx[(scan false 0 pre).length]? =
      some ((pre.length + (encField value).length : Nat) : Int) := by
    rw [hidx]
    simp
  have hrem : r.idx.length - (scan false 0 pre).length =
      r.idx.length - (scan false 0 (pre ++ encField value ++ [d])).length + 1 := by
    rw [hidx, hscan]
    simp only [List.length_map, List.length_append, List.length_singleton]
    omega
  have hlen : (pre ++ encField value ++ [d]).length = pre.length + (encField value).length + 1 := by
    simp only [List.length_append, List.length_singleton]
  have hdc : byteAt r.buf (pre.length + (encField value).length : Nat) = .ok d := by
    rw [hbuf, ← List.length_append]
    exact byteAt_append ..
  have hspan : append .span (cap r.buf) spans
      ((pre.length : Int), ((pre.length + (encField value).length : Nat) : Int)) =
        .ok (spans ++ [((pre.length : Int), (pre.length : Int) + (encField value).length)]) := by
    refine h.append_span (Nat.le_trans hspans ?_)
    rw [hbuf, List.append_assoc, List.length_append]
    omega
  have hnext : (pre.length + (encField value).length : Nat) + (1 : Int) =
      (pre ++ encField value ++ [d]).length := by
    rw [hlen]
    rfl
  have hdi : (scan false 0 (pre ++ encField value ++ [d])).length =
      (scan false 0 pre).length + 1 := by
    rw [hscan, List.length_append]
    rfl
  rw [hrem, rowLoop_succ hget hdc (fieldEnd_eq hbuf) hspan, hnext]
  simp only [hdi]

theorem rowLoop_spec (spans : List (Int × Int)) (h : Indexed r)
    (hbuf : r.buf = pre ++ encRow row ++ post)
    (hpar : parity pre = false) (hrow : row ≠ []) (hspans : spans.length ≤ pre.length) :
    r.rowLoop (scan false 0 pre).length pre.length spans
        (r.idx.length - (scan false 0 pre).length) =
      .ok { r with
        di := (scan false 0 (pre ++ encRow row)).length
        pos := (pre ++ encRow row).length
        spans := spans ++ spansOf pre.length row } ∧
    parity (pre ++ encRow row) = false := by
  fun_induction encRow row generalizing pre spans with
  | case1 => exact absurd rfl hrow
  | case2 value =>
    have hbuf' : r.buf = pre ++ encField value ++ newline :: post := by
      rw [hbuf]
      simp
    rw [rowLoop_field h hbuf' hpar rfl hspans, ← List.append_assoc]
    exact ⟨rfl, (scan_field value hpar rfl).2⟩
  | case3 value row hne ih =>
    have hbuf' : r.buf = pre ++ encField value ++ comma :: (encRow row ++ post) := by
      rw [hbuf]
      simp
    have hbuf'' : r.buf = (pre ++ encField value ++ [comma]) ++ encRow row ++ post := by
      rw [hbuf]
      simp
    have hassoc : pre ++ (encField value ++ comma :: encRow row) =
        (pre ++ encField value ++ [comma]) ++ encRow row := by
      simp
    rw [rowLoop_field h hbuf' hpar rfl hspans, hassoc]
    simp only [show ¬ comma = newline by decide, if_false]
    obtain ⟨hloop, hpar'⟩ := ih
      (spans ++ [((pre.length : Int), (pre.length : Int) + (encField value).length)])
      hbuf'' (scan_field value hpar rfl).2 (fun hnil => hne hnil)
      (by simp only [List.length_append, List.length_singleton]; omega)
    rw [hloop]
    refine ⟨?_, hpar'⟩
    simp [spansOf, Nat.add_assoc]

/-! ## The bytes of a field -/

theorem readRange_append {bs : List UInt8} (hs : s = (pre.length : Int))
    (he : e = (pre.length : Int) + bs.length) : readRange (pre ++ bs ++ post) s e = .ok bs := by
  have hlen : (e - s).toNat = bs.length := by
    rw [hs, he]
    omega
  rw [readRange, hlen]
  refine Except.mapM_range fun i hi => ?_
  rw [hs, ← Int.natCast_add]
  refine CsvIndex.byteAt_of_getElem? ?_
  rw [List.append_assoc, List.getElem?_append_right (Nat.le_add_right ..), Nat.add_sub_cancel_left,
    List.getElem?_append_left hi, List.getElem?_eq_getElem hi]

theorem unquote_escaped : unquote (value.flatMap escape) = value := by
  induction value with
  | nil => rfl
  | cons c value ih =>
    rw [List.flatMap_cons, escape]
    split
    · next hc =>
      rw [List.cons_append, List.singleton_append, unquote, if_pos ⟨rfl, rfl⟩, ih, hc]
    · next hc =>
      rw [List.singleton_append]
      cases hrest : value.flatMap escape with
      | nil =>
        rw [hrest] at ih
        rw [← ih]
        rfl
      | cons d rest => rw [unquote, if_neg fun h => hc h.1, ← hrest, ih]

theorem byteAt_of_eq (pre post : List UInt8) (hbuf : b = pre ++ c :: post)
    (hi : i = (pre.length : Int)) :
    byteAt b i = .ok c := by
  rw [hbuf, hi]
  exact byteAt_append ..

theorem quoted_of_needsQuote (hneeds : needsQuote value) (hbuf : b = pre ++ encField value ++ post)
    (he : e = (pre.length : Int) + (encField value).length) : quoted b pre.length e = .ok true := by
  have henc : encField value = quote :: (value.flatMap escape ++ [quote]) := by
    rw [encField, if_pos hneeds]
  have hlen : (encField value).length = (value.flatMap escape).length + 2 := by
    rw [henc, List.length_cons, List.length_append]
    rfl
  have hfirst : byteAt b (pre.length : Nat) = .ok quote := by
    refine byteAt_of_eq pre (value.flatMap escape ++ [quote] ++ post) ?_ rfl
    rw [hbuf, henc, List.append_assoc]
    rfl
  have hlast : byteAt b (e - 1) = .ok quote := by
    refine byteAt_of_eq (pre ++ quote :: value.flatMap escape) post ?_ ?_
    · rw [hbuf, henc]
      simp
    · rw [he, hlen, List.length_append, List.length_cons]
      omega
  rw [quoted, if_pos (by omega), hfirst, Except.ok_bind, hlast]
  rfl

theorem quoted_of_plain (hneeds : ¬ needsQuote value) (hbuf : b = pre ++ value ++ post)
    (he : e = (pre.length : Int) + value.length) : quoted b pre.length e = .ok false := by
  rw [quoted]
  split
  · next hlen =>
    cases value with
    | nil =>
      rw [List.length_nil] at he
      omega
    | cons c value =>
      have hc : decide (c = quote) = false :=
        decide_eq_false (not_needsQuote hneeds List.mem_cons_self).1
      have hfirst : byteAt b (pre.length : Nat) = .ok c := by
        refine byteAt_of_eq pre (value ++ post) ?_ rfl
        rw [hbuf, List.append_assoc]
        rfl
      obtain ⟨init, last, hlast⟩ := (List.eq_nil_or_concat (c :: value)).resolve_left
        (List.cons_ne_nil _ _)
      rw [List.concat_eq_append] at hlast
      have hlast' : byteAt b (e - 1) = .ok last := by
        refine byteAt_of_eq (pre ++ init) post ?_ ?_
        · rw [hbuf, hlast]
          simp
        · rw [he, hlast, List.length_append, List.length_append, List.length_singleton]
          omega
      rw [hfirst, Except.ok_bind, hlast', Except.ok_bind, hc, Bool.false_and]
      rfl
  · rfl

theorem field_eq (h : Indexed r) (hbuf : r.buf = pre ++ encField value ++ post)
    (hspan : r.spans[i]? = some ((pre.length : Int), (pre.length : Int) +
      (encField value).length)) :
    r.field i = .ok value := by
  rw [CsvReader.field, hspan]
  by_cases hneeds : needsQuote value
  · have hbytes : readRange r.buf (pre.length + 1)
        ((pre.length : Int) + (encField value).length - 1) = .ok (value.flatMap escape) := by
      have hsplit : r.buf = (pre ++ [quote]) ++ value.flatMap escape ++ (quote :: post) := by
        rw [hbuf, encField, if_pos hneeds]
        simp
      rw [hsplit]
      refine readRange_append ?_ ?_
      · rw [List.length_append]
        rfl
      · rw [encField, if_pos hneeds]
        simp only [List.length_cons, List.length_append, List.length_nil]
        omega
    show (quoted r.buf _ _ >>= _) = _
    rw [quoted_of_needsQuote hneeds hbuf rfl, Except.ok_bind, if_pos rfl, hbytes, Except.ok_bind,
      unquote_escaped]
    rfl
  · have henc : encField value = value := by rw [encField, if_neg hneeds]
    have hsize : int32 ((pre.length : Int) + value.length - pre.length) = value.length := by
      have hshort := h.short
      rw [hbuf, henc, List.length_append, List.length_append] at hshort
      rw [show (pre.length : Int) + value.length - pre.length = value.length by omega]
      exact Wrote.int32_of_le (by omega)
    rw [henc] at hbuf ⊢
    show (quoted r.buf _ _ >>= _) = _
    rw [quoted_of_plain hneeds hbuf rfl, Except.ok_bind, if_neg Bool.false_ne_true, hsize,
      if_neg (by omega), hbuf]
    exact readRange_append rfl rfl

theorem length_spansOf : (spansOf off row).length = row.length := by
  induction row generalizing off with
  | nil => rfl
  | cons value row ih => exact congrArg Nat.succ ih

theorem getElem?_spansOf (hbuf : b = pre ++ encRow row ++ post) (hi : i < row.length) :
    ∃ pre' post', b = pre' ++ encField row[i] ++ post' ∧ (spansOf pre.length row)[i]? =
      some ((pre'.length : Int), (pre'.length : Int) + (encField row[i]).length) := by
  induction row generalizing pre i with
  | nil => exact absurd hi (Nat.not_lt_zero _)
  | cons value row ih =>
    cases i with
    | zero =>
      rw [encRow_cons] at hbuf
      exact ⟨pre, ((row.flatMap fun v => comma :: encField v) ++ [newline]) ++ post, by
        rw [hbuf, List.getElem_cons_zero]
        simp, rfl⟩
    | succ i =>
      have hi' : i < row.length := Nat.lt_of_succ_lt_succ hi
      have hne : row ≠ [] := List.ne_nil_of_length_pos (by omega)
      have hbuf' : b = (pre ++ encField value ++ [comma]) ++ encRow row ++ post := by
        rw [hbuf, encRow]
        · simp
        · exact hne
      obtain ⟨pre', post', hsplit, hspan⟩ := ih hbuf' hi'
      refine ⟨pre', post', hsplit, ?_⟩
      rw [spansOf, List.getElem?_cons_succ, List.getElem_cons_succ]
      rw [List.length_append, List.length_append, List.length_singleton] at hspan
      exact hspan

theorem fields_eq (pre post : List UInt8) (h : Indexed r) (hbuf : r.buf = pre ++ encRow row ++ post)
    (hspans : r.spans = spansOf pre.length row) : r.fields = .ok row := by
  rw [CsvReader.fields, hspans, length_spansOf]
  refine Except.mapM_range fun i hi => ?_
  obtain ⟨pre', post', hsplit, hspan⟩ := getElem?_spansOf hbuf hi
  exact field_eq h hsplit (hspans ▸ hspan)

/-! ## All rows -/

/-- The reader stands behind `pre`, in front of the text of `rows`. -/
structure Stands (r : CsvReader) (pre : List UInt8) (rows : List (List (List UInt8))) : Prop where
  indexed : Indexed r
  buf_eq : r.buf = pre ++ encRows rows
  parity_eq : parity pre = false
  di_eq : r.di = (scan false 0 pre).length
  pos_eq : r.pos = pre.length

theorem Indexed.cnt_eq (h : Indexed r) : r.cnt = (r.idx.length : Int) := by
  have hle : r.idx.length ≤ r.buf.length := by
    rw [h.idx_eq, List.length_map]
    exact length_scan_le
  exact Wrote.int32_of_le (Nat.le_succ_of_le (Nat.le_trans hle h.short))

theorem encRow_ne_nil : encRow row ≠ [] := by
  fun_cases encRow row <;> simp

theorem nextRow_nil (h : Stands r pre []) : r.nextRow = .ok (false, r) := by
  have hbuf : r.buf = pre := by
    rw [h.buf_eq]
    exact List.append_nil _
  have hdone : r.cnt ≤ r.di ∧ (r.buf.length : Int) ≤ r.pos := by
    rw [h.indexed.cnt_eq, h.indexed.idx_eq, h.di_eq, h.pos_eq, hbuf, List.length_map]
    exact ⟨Int.le_refl _, Int.le_refl _⟩
  rw [CsvReader.nextRow, if_pos hdone]
  rfl

theorem nextRow_cons (h : Stands r pre (row :: rows)) (hrow : row ≠ []) :
    ∃ r', r.nextRow = .ok (true, r') ∧ r'.fields = .ok row ∧
      Stands r' (pre ++ encRow row) rows := by
  have hbuf : r.buf = pre ++ encRow row ++ encRows rows := by
    rw [h.buf_eq, List.append_assoc]
    rfl
  have hmore : ¬ (r.cnt ≤ r.di ∧ (r.buf.length : Int) ≤ r.pos) := by
    intro hdone
    have hlen := hdone.2
    have hpos : 0 < (encRow row).length := List.length_pos_of_ne_nil encRow_ne_nil
    rw [h.pos_eq, hbuf, List.length_append, List.length_append] at hlen
    omega
  have hrem : (r.cnt - r.di).toNat = r.idx.length - (scan false 0 pre).length := by
    rw [h.indexed.cnt_eq, h.di_eq]
    omega
  obtain ⟨hloop, hpar⟩ := rowLoop_spec [] h.indexed hbuf h.parity_eq hrow
    (Nat.zero_le _)
  rw [List.nil_append] at hloop
  have hnext : r.nextRow = .ok (true, { r with
      di := (scan false 0 (pre ++ encRow row)).length
      pos := (pre ++ encRow row).length
      spans := spansOf pre.length row }) := by
    rw [CsvReader.nextRow, if_neg hmore, hrem, h.di_eq, h.pos_eq, hloop]
    rfl
  exact ⟨_, hnext, fields_eq pre (encRows rows)
    ⟨h.indexed.idx_eq, h.indexed.short⟩ hbuf rfl,
    ⟨⟨h.indexed.idx_eq, h.indexed.short⟩, hbuf, hpar, rfl, rfl⟩⟩

theorem readRows_eq (h : Stands r pre rows) (hrows : ∀ row ∈ rows, row ≠ []) :
    r.readRows (rows.length + 1) = .ok (some rows) := by
  induction rows generalizing r pre with
  | nil =>
    rw [CsvReader.readRows, nextRow_nil h]
    rfl
  | cons row rows ih =>
    obtain ⟨r', hnext, hfields, h'⟩ := nextRow_cons h (hrows row List.mem_cons_self)
    have hrest := ih h' fun row' hrow' => hrows row' (List.mem_cons_of_mem _ hrow')
    rw [CsvReader.readRows, hnext, Except.ok_bind]
    show (r'.fields >>= _) = _
    rw [hfields, Except.ok_bind]
    show (r'.readRows (rows.length + 1) >>= _) = _
    rw [hrest]
    rfl

theorem new_stands (hshort : (encRows rows).length ≤ 2 ^ 30) :
    ∃ r, CsvReader.new (encRows rows) = .ok r ∧ Stands r [] rows := by
  have hle : (scan false 0 (encRows rows)).length ≤ (encRows rows).length := length_scan_le
  have hindex : CsvIndex.build (encRows rows) (cap (encRows rows)) =
      .ok ((scan false 0 (encRows rows)).map fun i : Nat => int32 i) := by
    rw [CsvIndex.build_eq, CsvIndex.store, if_pos, List.nil_append]
    rw [List.length_map, List.length_nil]
    unfold CsvIndex.room cap
    omega
  refine ⟨⟨encRows rows, (scan false 0 (encRows rows)).map fun i : Nat => int32 i, 0, 0, []⟩, ?_,
    ⟨⟨?_, hshort⟩, rfl, rfl, rfl, rfl⟩⟩
  · rw [CsvReader.new, hindex]
    rfl
  · refine List.map_congr_left fun i hi => ?_
    have hlt := mem_scan_lt hi
    exact Wrote.int32_of_le (by omega)

theorem readRows_succ (h : r.readRows fuel = .ok (some rows)) :
    r.readRows (fuel + 1) = .ok (some rows) := by
  induction fuel generalizing r rows with
  | zero => cases h
  | succ fuel ih =>
    rw [CsvReader.readRows] at h ⊢
    obtain ⟨⟨more, r'⟩, hnext, h⟩ := Except.bind_eq_ok.mp h
    rw [hnext, Except.ok_bind]
    cases more with
    | false =>
      dsimp only at h ⊢
      rw [if_neg Bool.false_ne_true] at h ⊢
      exact h
    | true =>
      obtain ⟨row, hrow, h⟩ := Except.bind_eq_ok.mp h
      obtain ⟨rest, hrest, h⟩ := Except.bind_eq_ok.mp h
      cases rest with
      | none => cases h
      | some rest =>
        show (r'.fields >>= _) = _
        rw [hrow, Except.ok_bind]
        show (r'.readRows (fuel + 1) >>= _) = _
        rw [ih hrest]
        exact h

theorem readRows_add (more : Nat) (h : r.readRows fuel = .ok (some rows)) :
    r.readRows (fuel + more) = .ok (some rows) := by
  induction more with
  | zero => exact h
  | succ more ih => exact readRows_succ ih

theorem readRows_unique (h : r.readRows fuel = .ok (some rows))
    (h' : r.readRows fuel' = .ok (some rows')) : rows = rows' := by
  have hall := readRows_add fuel' h
  rw [Nat.add_comm, readRows_add fuel h'] at hall
  cases hall
  rfl

/-- Writing the rows ends, and reading the bytes back gives them and then the end of input. -/
def RoundTrips (rows : List (List (List UInt8))) : Prop :=
  ∃ fuel w r fuel', CsvWriter.writeRows fuel rows = some w ∧ CsvReader.new w.toBytes = .ok r ∧
    r.readRows fuel' = .ok (some rows)

theorem readOf_eq (h : value.length < 2 ^ 31) : readOf value = value := by
  have hlen : int32 value.length = value.length := Int.bmod_eq_of_le (by omega) (by omega)
  rw [readOf, hlen, Int.toNat_natCast, List.take_length]

theorem length_lt_of_textSize (hsize : textSize rows ≤ 2 ^ 30) (hrow : row ∈ rows)
    (hvalue : value ∈ row) : value.length < 2 ^ 31 := by
  have hrowSize : rowSize row ≤ textSize rows :=
    List.single_le_sum (fun _ _ => Nat.zero_le _) _ (List.mem_map_of_mem hrow)
  have hfield : fieldSize value + 1 ≤ rowSize row :=
    List.single_le_sum (fun _ _ => Nat.zero_le _) _
      (List.mem_map_of_mem (f := fun value => fieldSize value + 1) hvalue)
  unfold fieldSize at hfield
  omega

theorem roundTrips_of_textSize (hrows : ∀ row ∈ rows, row ≠ []) (hsize : textSize rows ≤ 2 ^ 30) :
    RoundTrips rows := by
  have hread : (rows.map fun row => row.map readOf) = rows := by
    refine (List.map_congr_left fun row hrow => ?_).trans (List.map_id' rows)
    exact (List.map_congr_left fun value hvalue =>
      readOf_eq (length_lt_of_textSize hsize hrow hvalue)).trans (List.map_id' row)
  have hwrites := Writes.writeRows rows
  rw [hread] at hwrites
  have hlen : (encRows rows).length ≤ 2 ^ 30 := by rwa [length_encRows hrows]
  obtain ⟨w, hw⟩ := hwrites.complete 0 Wrote.new rfl (by rwa [List.nil_append])
  obtain ⟨hwrote, -⟩ := hwrites.sound _ Wrote.new rfl hw
  rw [List.nil_append] at hwrote
  obtain ⟨r, hnew, hstands⟩ := new_stands hlen
  exact ⟨1, w, r, _, hw, by rw [hwrote.toBytes_eq, hnew], readRows_eq hstands hrows⟩

theorem textSize_of_roundTrips (hrows : ∀ row ∈ rows, row ≠ []) (h : RoundTrips rows) :
    textSize rows ≤ 2 ^ 30 := by
  obtain ⟨fuel, w, r, fuel', hw, hnew, hread⟩ := h
  obtain ⟨hwrote, -⟩ := (Writes.writeRows rows).sound _ Wrote.new rfl hw
  rw [List.nil_append] at hwrote
  have hrows' : ∀ row ∈ rows.map fun row => row.map readOf, row ≠ [] := by
    intro row hrow
    obtain ⟨row', hrow', rfl⟩ := List.mem_map.mp hrow
    exact fun hnil => hrows row' hrow' (List.map_eq_nil_iff.mp hnil)
  obtain ⟨r', hnew', hstands⟩ := new_stands hwrote.length_le
  rw [hwrote.toBytes_eq, hnew'] at hnew
  cases hnew
  have hsame := readRows_unique hread (readRows_eq hstands hrows')
  have hlen := hwrote.length_le
  rwa [← hsame, length_encRows hrows] at hlen

/-! ## The spans of any text -/

/-- The program does not end at the arrays of spans, and what it returns satisfies `P`. -/
structure Holds (P : α → Prop) (x : Except CsvFault α) : Prop where
  result : x = .ok a → P a
  ne_span : x ≠ .error .span

namespace Holds

theorem ok {a : α} (h : P a) : Holds P (Except.ok a : Except CsvFault α) where
  result heq := by
    cases heq
    exact h
  ne_span heq := by cases heq

theorem error {P : α → Prop} (h : fault ≠ .span) : Holds P (Except.error fault) where
  result heq := by cases heq
  ne_span heq := by
    cases heq
    exact h rfl

theorem bind {x : Except CsvFault α} {k : α → Except CsvFault β} (hx : Holds P x)
    (hk : ∀ a, P a → Holds Q (k a)) : Holds Q (x >>= k) := by
  cases x with
  | ok a => exact hk a (hx.result rfl)
  | error fault =>
    refine error fun heq => hx.ne_span ?_
    rw [heq]

theorem byteAt : Holds (fun _ => True) (Csv.byteAt b i) := by
  unfold Csv.byteAt
  split
  · exact error (by decide)
  · split
    · exact ok trivial
    · exact error (by decide)

theorem fieldEnd : Holds (fun _ => True) (r.fieldEnd fieldStart dpos d) := by
  unfold CsvReader.fieldEnd
  split
  · exact byteAt.bind fun _ _ => ok trivial
  · exact ok trivial

/-- A row takes a span for each entry of the index, and one more behind the last. -/
theorem rowLoop (hroom : spans.length + rem + 1 ≤ CsvIndex.room (cap r.buf)) :
    Holds (fun r' => r'.buf = r.buf ∧ r'.idx = r.idx ∧ r'.spans.length ≤ cap r.buf)
      (r.rowLoop di fieldStart spans rem) := by
  have hfits : ∀ x, append .span (cap r.buf) spans x = .ok (spans ++ [x]) := fun x => by
    rw [CsvIndex.append_eq (by omega), if_pos (by omega)]
  have hlen : ∀ x, (spans ++ [x]).length = spans.length + 1 := fun x => by
    rw [List.length_append, List.length_singleton]
  have hcap : CsvIndex.room (cap r.buf) ≤ cap r.buf := Nat.min_le_left ..
  induction rem generalizing di fieldStart spans with
  | zero =>
    rw [CsvReader.rowLoop, hfits]
    refine ok ⟨rfl, rfl, ?_⟩
    rw [hlen]
    omega
  | succ rem ih =>
    rw [CsvReader.rowLoop]
    cases r.idx[di]? with
    | none => exact error (by decide)
    | some dpos =>
      refine byteAt.bind fun dc _ => fieldEnd.bind fun fend _ => ?_
      rw [hfits, Except.ok_bind]
      split
      · refine ok ⟨rfl, rfl, ?_⟩
        rw [hlen]
        omega
      · refine ih (by rw [hlen]; omega) (fun x => ?_) fun x => ?_
        · rw [CsvIndex.append_eq (by rw [hlen]; omega), if_pos (by rw [hlen]; omega)]
        · rw [List.length_append, List.length_singleton]

end Holds

/-- What holds of every reader from its construction on. -/
structure Roomy (r : CsvReader) : Prop where
  indexed : r.idx.length ≤ r.buf.length
  counted : r.idx.length ≤ 2 ^ 31

theorem Roomy.new (h : CsvReader.new b = .ok r) : Roomy r := by
  obtain ⟨idx, hidx, h⟩ := Except.bind_eq_ok.mp h
  rw [Except.pure_eq_ok] at h
  rw [CsvIndex.build_eq] at hidx
  have hroom := CsvIndex.length_of_store hidx
  unfold CsvIndex.store at hidx
  split at hidx
  · cases hidx
    have hmin : CsvIndex.room (cap b) ≤ 2 ^ 31 := Nat.min_le_right ..
    rw [List.nil_append, List.length_map] at hroom
    rw [← h]
    constructor
    · show (_ ++ List.map _ _).length ≤ b.length
      rw [List.nil_append, List.length_map]
      exact length_scan_le
    · show (_ ++ List.map _ _).length ≤ _
      rw [List.nil_append, List.length_map]
      exact Nat.le_trans hroom hmin
  · cases hidx

/-- What a call of `nextRow` leaves. -/
def Leaves (r : CsvReader) (res : Bool × CsvReader) : Prop :=
  Roomy res.2 ∧ res.2.buf = r.buf ∧ (res.1 → res.2.spans.length ≤ cap r.buf)

theorem Roomy.cnt_le (h : Roomy r) : r.cnt ≤ r.idx.length ∧ r.cnt < 2 ^ 31 := by
  have hcounted := h.counted
  unfold CsvReader.cnt int32
  rcases Nat.lt_or_ge r.idx.length (2 ^ 31) with hlt | hge
  · rw [Int.bmod_eq_of_le (by omega) (by omega)]
    omega
  · rw [show r.idx.length = 2 ^ 31 by omega]
    decide

theorem Roomy.nextRow (h : Roomy r) : Holds (Leaves r) r.nextRow := by
  obtain ⟨hcnt, hcnt'⟩ := h.cnt_le
  rcases Classical.em (r.cnt ≤ r.di ∧ (r.buf.length : Int) ≤ r.pos) with hdone | hmore
  · rw [CsvReader.nextRow, if_pos hdone]
    exact .ok ⟨h, rfl, fun hmore => absurd hmore Bool.false_ne_true⟩
  · rw [CsvReader.nextRow, if_neg hmore]
    have hroom : ([] : List (Int × Int)).length + (r.cnt - r.di).toNat + 1 ≤
        CsvIndex.room (cap r.buf) := by
      have hindexed := h.indexed
      unfold CsvIndex.room cap
      rw [List.length_nil]
      omega
    refine (Holds.rowLoop hroom).bind fun r' hr' => ?_
    obtain ⟨hbuf, hidx, hspans⟩ := hr'
    have hroomy : Roomy r' := by
      constructor
      · rw [hbuf, hidx]
        exact h.indexed
      · rw [hidx]
        exact h.counted
    exact .ok ⟨hroomy, hbuf, fun _ => hspans⟩

/-- A call of `nextRow` that returns. -/
def Next (r : CsvReader) (more : Bool) (r' : CsvReader) : Prop := r.nextRow = .ok (more, r')

theorem Roomy.next (h : Roomy r) (hnext : Next r more r') : Leaves r (more, r') :=
  h.nextRow.result hnext

theorem Roomy.steps (hsteps : Steps Next r answers r') (h : Roomy r) :
    Roomy r' ∧ r'.buf = r.buf :=
  hsteps.preserves (P := fun r' => Roomy r' ∧ r'.buf = r.buf)
    (fun _ _ _ hnext hroomy =>
      have hleaves := hroomy.1.next hnext
      ⟨hleaves.1, hleaves.2.1.trans hroomy.2⟩) ⟨h, rfl⟩

theorem new_buf (h : CsvReader.new b = .ok r) : r.buf = b := by
  obtain ⟨idx, hidx, h⟩ := Except.bind_eq_ok.mp h
  rw [Except.pure_eq_ok] at h
  rw [← h]

/-- The rows whose text has at most `2 ^ 30` bytes are the ones that survive writing and reading,
and no text has a row with more spans than its arrays hold. -/
theorem csv_roundTrips (rows : List (List (List UInt8))) (hrows : ∀ row ∈ rows, row ≠ []) :
    (RoundTrips rows ↔ textSize rows ≤ 2 ^ 30) ∧
    ∀ b r answers r', CsvReader.new b = .ok r → Steps Next r answers r' →
      r'.nextRow ≠ .error .span ∧
      ∀ more r'', Next r' more r'' → more → r''.spans.length ≤ cap b := by
  constructor
  · exact ⟨textSize_of_roundTrips hrows, roundTrips_of_textSize hrows⟩
  · intro b r answers r' hnew hsteps
    obtain ⟨hroomy, hbuf⟩ := (Roomy.new hnew).steps hsteps
    constructor
    · exact hroomy.nextRow.ne_span
    · intro more r'' hnext hmore
      have hspans := (hroomy.next hnext).2.2 hmore
      rwa [hbuf, new_buf hnew] at hspans

/-- Fields of a comma, of a quote and a carriage return, and of nothing. -/
theorem csv_roundTrips_sample : RoundTrips [[[comma], [quote, carriageReturn]], [[]]] := by
  refine (csv_roundTrips _ ?_).1.mpr ?_
  · decide
  · decide

theorem not_roundTrips_of_length (h : 2 ^ 30 ≤ value.length) : ¬ RoundTrips [[value]] := by
  intro hround
  have hrows : ∀ row ∈ [[value]], row ≠ [] := by
    intro row hrow
    rw [List.mem_singleton.mp hrow]
    exact List.cons_ne_nil _ _
  have hsize := textSize_of_roundTrips hrows hround
  have hrow : textSize [[value]] = fieldSize value + 1 := rfl
  have hfield : value.length ≤ fieldSize value := by
    rw [fieldSize, Nat.add_assoc]
    exact Nat.le_add_right ..
  omega

/-- A field of `2 ^ 30` commas is never written. -/
theorem not_roundTrips_longField : ¬ RoundTrips [[List.replicate (2 ^ 30) comma]] := by
  apply not_roundTrips_of_length
  rw [List.length_replicate]

end Cajeta.Codec.Csv
