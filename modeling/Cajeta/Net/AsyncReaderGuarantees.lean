import Cajeta.Net.AsyncReader
import Mathlib.Data.List.TakeWhile
import Mathlib.Data.List.Infix

/-!
# What a buffered reader delivers

The ring and the socket together are one stream that every call takes bytes from, in order. How
the socket reads were cut is no longer seen in the stream.
-/

namespace Cajeta.Net

/-- Up to and with the first delimiter. -/
def line (delimiter : UInt8) (stream : List UInt8) : List UInt8 :=
  stream.takeWhile (· ≠ delimiter) ++ (stream.dropWhile (· ≠ delimiter)).take 1

/-- What `readUntil` takes from a stream in memory. -/
def record (delimiter : UInt8) (maxBytes : Int) (stream : List UInt8) : List UInt8 :=
  if 0 < maxBytes then (line delimiter stream).take maxBytes.toNat else line delimiter stream

/-- The record ends within 2^30 bytes: a longer one would need an array of 2^31. -/
def RecordFits (delimiter : UInt8) (maxBytes : Int) (stream : List UInt8) : Prop :=
  stream.length ≤ 1073741824 ∨ delimiter ∈ stream.take 1073741824 ∨
    0 < maxBytes ∧ maxBytes ≤ 1073741824

/-- What a call may answer when `stream` is still to be delivered. -/
def Answers (stream : List UInt8) : Call → Answer → Prop
  | .read length, .bytes out =>
    out.length ≤ length.toNat ∧ (0 < length → stream ≠ [] → out ≠ [])
  | .readExact length, .bytes out => length ≤ stream.length ∧ out = stream.take length.toNat
  | .readExact length, .raised out => stream.length < length ∧ out = stream
  | .readUntil delimiter maxBytes, .bytes out => out = record delimiter maxBytes stream
  | .next, .chunk piece => piece ≠ some [] ∧ (piece = none ↔ stream = [])
  | _, _ => False

def Answer.delivered : Answer → List UInt8
  | .bytes out | .raised out => out
  | .chunk piece => piece.getD []

namespace AsyncReader

def Admits (r : AsyncReader) : Call × Answer → Prop
  | (.readUntil delimiter maxBytes, _) => RecordFits delimiter maxBytes r.rest
  | _ => True

/-- Every call that is admitted now ends, with the answer that the stream in memory has. -/
structure Exact (r : AsyncReader) (capacity : Int) (stream delivered : List UInt8) : Prop where
  in_order : stream = delivered ++ r.rest
  bounded : (r.buf.size : Int) ≤ max capacity 1
  answers : ∀ c, r.Admits (c, .bytes []) →
    ∃ a r', r.Step (c, a) r' ∧ Answers r.rest c a ∧ r.rest = a.delivered ++ r'.rest

end AsyncReader

theorem line_of_not_mem (h : d ∉ acc) : line d acc = acc := by
  have hall : ∀ b ∈ acc, decide (b ≠ d) = true := fun b hb => decide_eq_true fun hbd => h (hbd ▸ hb)
  rw [line, List.takeWhile_eq_self_iff.mpr hall, List.dropWhile_eq_nil_iff.mpr hall]
  exact List.append_nil acc

theorem line_append (h : d ∉ acc) (stream : List UInt8) :
    line d (acc ++ stream) = acc ++ line d stream := by
  have hall : ∀ b ∈ acc, decide (b ≠ d) = true := fun b hb => decide_eq_true fun hbd => h (hbd ▸ hb)
  rw [line, List.takeWhile_append_of_pos hall, List.dropWhile_append_of_pos hall, List.append_assoc]
  rfl

theorem line_cons_self (d : UInt8) (stream : List UInt8) : line d (d :: stream) = [d] := by
  simp [line]

theorem record_of_take (hcap : 0 < maxBytes → ((line d whole).length : Int) ≤ maxBytes) :
    record d maxBytes whole = line d whole := by
  unfold record
  split <;> rename_i hpos
  · have := hcap hpos
    exact List.take_of_length_le (by omega)
  · rfl

theorem record_of_end (h : d ∉ acc) (hcap : 0 < maxBytes → (acc.length : Int) < maxBytes) :
    record d maxBytes acc = acc := by
  rw [record_of_take, line_of_not_mem h]
  intro hpos
  rw [line_of_not_mem h]
  have := hcap hpos
  omega

theorem record_of_delimiter (h : d ∉ acc) (hcap : 0 < maxBytes → (acc.length : Int) < maxBytes)
    (stream : List UInt8) : record d maxBytes (acc ++ d :: stream) = acc ++ [d] := by
  have hline : line d (acc ++ d :: stream) = acc ++ [d] := by
    rw [line_append h, line_cons_self]
  rw [record_of_take, hline]
  intro hpos
  rw [hline, List.length_append, List.length_singleton]
  have := hcap hpos
  omega

theorem record_of_cap {maxBytes : Int} (h : d ∉ acc ++ [b]) (hpos : 0 < maxBytes)
    (hcap : maxBytes = acc.length + 1) (stream : List UInt8) :
    record d maxBytes (acc ++ b :: stream) = acc ++ [b] := by
  have hsplit : acc ++ b :: stream = (acc ++ [b]) ++ stream := by simp
  rw [record, if_pos hpos, hsplit, line_append h]
  exact List.take_left' (by rw [List.length_append, List.length_singleton]; omega)

theorem RecordFits.lt (h : RecordFits d maxBytes (acc ++ b :: stream)) (hd : d ∉ acc)
    (hcap : 0 < maxBytes → (acc.length : Int) < maxBytes) : acc.length < 1073741824 := by
  rcases h with h | h | ⟨hpos, h⟩
  · rw [List.length_append, List.length_cons] at h
    omega
  · refine Nat.lt_of_not_le fun hle => hd ?_
    rw [List.take_append_of_le_length hle] at h
    exact List.mem_of_mem_take h
  · have := hcap hpos
    omega

/-! ## The ring -/

namespace RingBuffer
variable {r : RingBuffer}

structure Inv (r : RingBuffer) : Prop where
  length : r.data.length = r.cap
  head : r.head < r.cap
  tail : r.tail = (r.head + r.size) % r.cap
  size : r.size ≤ r.cap

def contents (r : RingBuffer) : List UInt8 := Ring.items r.data r.head r.size

theorem next_eq (h : i < r.cap) : r.next i = (i + 1) % r.cap := by
  unfold next
  split <;> rename_i hi
  · rw [hi, Nat.mod_self]
  · rw [Nat.mod_eq_of_lt (by omega)]

theorem Inv.make (h : 0 < capacity) : (make capacity).Inv :=
  ⟨List.length_replicate, h, by simp [RingBuffer.make], Nat.zero_le _⟩

theorem writeFrom_spec (off n : Nat) (hlen : r.data.length = r.cap) (hcap : 0 < r.cap)
    (htail : r.tail = (r.head + n) % r.cap) (hroom : n + left ≤ r.cap)
    (hsrc : off + left ≤ src.length) :
    ∃ data tail, r.writeFrom src off left = some { r with data, tail } ∧
      data.length = r.cap ∧ tail = (r.head + (n + left)) % r.cap ∧
      Ring.items data r.head (n + left) =
        Ring.items r.data r.head n ++ Bytes.slice src off left := by
  induction left generalizing r n off with
  | zero => exact ⟨r.data, r.tail, rfl, hlen, htail, by simp [Bytes.slice]⟩
  | succ left ih =>
    have hlt : r.tail < r.cap := htail ▸ Nat.mod_lt _ hcap
    have hb : src[off]? = some src[off] := List.getElem?_eq_getElem (by omega)
    have hstep := ih (r := { r with data := r.data.set r.tail src[off], tail := r.next r.tail })
      (off + 1) (n + 1) (by rw [List.length_set, hlen]) hcap
      (by rw [next_eq hlt, htail, Nat.mod_add_mod, Nat.add_assoc]) (by show _ ≤ r.cap; omega)
        (by omega)
    obtain ⟨data, tail, heq, hdata, htail', hitems⟩ := hstep
    refine ⟨data, tail, ?_, hdata, ?_, ?_⟩
    · rw [writeFrom, hb]
      simp only [bind, Option.bind_some]
      rw [if_pos (by omega)]
      exact heq
    · rw [htail', show n + 1 + left = n + (left + 1) by omega]
    · have hn : n < r.data.length := by omega
      have hset : Ring.items (r.data.set _ src[off]) r.head (n + 1) = _ := Ring.items_set hn
      rw [hlen, ← htail] at hset
      rw [show n + (left + 1) = n + 1 + left by omega, hitems, hset, List.append_assoc]
      congr 1
      have hdrop : src.drop off = src[off] :: src.drop (off + 1) :=
        List.drop_eq_getElem_cons (by omega)
      rw [Bytes.slice, Bytes.slice, hdrop, List.take_succ_cons]
      rfl

theorem write_spec (h : r.Inv) (off : Nat) (hfit : len ≤ r.free) (hsrc : off + len ≤ src.length) :
    ∃ r', r.write src off len = some (len, r') ∧ r'.Inv ∧ r'.cap = r.cap ∧
      r'.size = r.size + len ∧ r'.contents = r.contents ++ Bytes.slice src off len := by
  have hcap := h.size
  have hhead := h.head
  unfold free at hfit
  obtain ⟨data, tail, heq, hdata, htail, hitems⟩ := writeFrom_spec off r.size
    h.length (by omega) h.tail (by omega) hsrc
  refine ⟨{ r with data, tail, size := r.size + len }, ?_, ⟨hdata, h.head, htail, ?_⟩, rfl,
    rfl, hitems⟩
  · rw [write, Nat.min_eq_left (by omega), heq]
    rfl
  · show r.size + len ≤ r.cap
    omega

theorem readFrom_spec (left : Nat) (out : List UInt8) (hlen : r.data.length = r.cap)
    (hhead : r.head < r.cap)
    (hn : left + n ≤ r.cap) :
    ∃ head, r.readFrom out left =
        some (out ++ (Ring.items r.data r.head (left + n)).take left, { r with head }) ∧
      head < r.cap ∧ head = (r.head + left) % r.cap ∧
      Ring.items r.data head n = (Ring.items r.data r.head (left + n)).drop left := by
  induction left generalizing r out with
  | zero => exact ⟨r.head, by simp [readFrom], hhead, (Nat.mod_eq_of_lt hhead).symm, by simp⟩
  | succ left ih =>
    have hb : r.data[r.head]? = some r.data[r.head] := List.getElem?_eq_getElem (by omega)
    have hcons : Ring.items r.data r.head (left + 1 + n) =
        r.data[r.head] :: Ring.items r.data ((r.head + 1) % r.cap) (left + n) := by
      rw [show left + 1 + n = left + n + 1 by omega, ← hlen]
      exact Ring.items_eq_cons hb (by omega)
    have hnext := next_eq hhead
    obtain ⟨head, heq, hlt, hmod, hitems⟩ := ih (r := { r with head := r.next r.head })
      (out ++ [r.data[r.head]]) hlen
        (by show r.next r.head < r.cap; rw [hnext]; exact Nat.mod_lt _ (by omega))
      (by show left + n ≤ r.cap; omega)
    simp only [hnext] at heq hitems
    refine ⟨head, ?_, hlt, ?_, ?_⟩
    · rw [readFrom, hb]
      simp only [bind, Option.bind_some, hnext]
      rw [heq, hcons, List.take_succ_cons, List.append_assoc]
      rfl
    · rw [hmod]
      simp only [hnext]
      rw [Nat.mod_add_mod, Nat.add_assoc, Nat.add_comm 1]
    · rw [hitems, hcons, List.drop_succ_cons]

theorem read_spec (h : r.Inv) :
    ∃ r', r.read len = some (r.contents.take len, r') ∧ r'.Inv ∧ r'.cap = r.cap ∧
      r'.contents = r.contents.drop len := by
  have hsize := h.size
  have hcontents : r.contents.length = r.size := Ring.length_items (by rw [h.length]; exact h.size)
  obtain ⟨head, heq, hlt, hmod, hitems⟩ := readFrom_spec (min len r.size) []
    (n := r.size - min len r.size) h.length h.head (by omega)
  have hsum : min len r.size + (r.size - min len r.size) = r.size := by omega
  rw [hsum] at heq hitems
  refine ⟨{ r with head, size := r.size - min len r.size }, ?_, ⟨h.length, hlt, ?_, ?_⟩, rfl, ?_⟩
  · have htake : (Ring.items r.data r.head r.size).take (min len r.size) = r.contents.take len := by
      show r.contents.take (min len r.size) = _
      rw [← hcontents, ← List.take_eq_take_min]
    rw [read, heq, List.nil_append, htake]
    rfl
  · show r.tail = (head + (r.size - min len r.size)) % r.cap
    rw [hmod, Nat.mod_add_mod, Nat.add_assoc, hsum, h.tail]
  · exact Nat.le_trans (Nat.sub_le ..) h.size
  · show Ring.items r.data head (r.size - min len r.size) = r.contents.drop len
    rw [hitems]
    rcases Nat.le_total len r.size with hl | hl
    · rw [Nat.min_eq_left hl]
      rfl
    · rw [Nat.min_eq_right hl, List.drop_eq_nil_of_le (i := len) (by omega)]
      exact List.drop_eq_nil_of_le (Nat.le_of_eq hcontents)

end RingBuffer

/-! ## The reader -/

namespace AsyncReader
variable {r : AsyncReader}

structure Inv (r : AsyncReader) : Prop where
  ring : r.buf.Inv
  cap : r.buf.cap = r.cap
  fill : r.fill.length = r.cap
  chunk : r.chunkSize = r.cap
  eof : r.eof = true → r.stream.rest = []

theorem Inv.make (stream : ByteChannel) (capacity : Int) : (make stream capacity).Inv := by
  unfold AsyncReader.make
  refine ⟨.make ?_, rfl, List.length_replicate, rfl, fun h => by cases h⟩
  split
  · exact Nat.one_pos
  · omega

theorem rest_make (stream : ByteChannel) (capacity : Int) :
    (make stream capacity).rest = stream.rest := by
  simp [AsyncReader.make, rest, RingBuffer.make, Ring.items]

theorem readAsync_spec (s : ByteChannel) (want : Nat) (hwant : 0 < want) :
    s.rest = (s.readAsync want).1 ++ (s.readAsync want).2.rest ∧
      (s.readAsync want).1.length ≤ want ∧ ((s.readAsync want).1 = [] → s.rest = []) := by
  refine ⟨(List.take_append_drop _ _).symm, ?_, fun h => ?_⟩
  · have := List.length_take_le (min (s.cuts s.reads + 1) want) s.rest
    exact Nat.le_trans this (Nat.min_le_right ..)
  · rcases List.take_eq_nil_iff.mp h with h | h
    · omega
    · exact h

theorem fillFromSocket_spec (h : r.Inv) (hempty : r.buf.size = 0) :
    ∃ n r', r.fillFromSocket = some (n, r') ∧ r'.Inv ∧ r'.cap = r.cap ∧ r'.rest = r.rest ∧
      (r'.buf.size = 0 → r.rest = []) := by
  have hpos := h.ring.head
  have hcap := h.cap
  have hcontents : r.rest = r.stream.rest := by
    rw [rest, hempty]
    rfl
  have hroom : r.buf.free = r.cap := by rw [RingBuffer.free, hempty, hcap, Nat.sub_zero]
  rw [hcap] at hpos
  unfold fillFromSocket
  rw [hroom]
  split <;> rename_i heof
  · exact ⟨0, r, rfl, h, rfl, rfl, fun _ => hcontents.trans (h.eof heof)⟩
  · dsimp only
    rw [if_neg (by omega), if_neg (Nat.lt_irrefl _)]
    obtain ⟨hsplit, hle, hend⟩ := readAsync_spec r.stream r.cap (by omega)
    generalize r.stream.readAsync r.cap = result at hsplit hle hend
    obtain ⟨got, stream⟩ := result
    dsimp only at hsplit hle hend ⊢
    have hfill : (Bytes.patch r.fill 0 got).length = r.cap := by
      rw [Bytes.length_patch _ (by rw [h.fill]; omega), h.fill]
    split <;> rename_i hgot
    · obtain rfl : got = [] := List.length_eq_zero_iff.mp hgot
      have hnil := hend rfl
      rw [List.nil_append] at hsplit
      refine ⟨0, _, rfl, ⟨h.ring, h.cap, hfill, h.chunk, fun _ => hsplit ▸ hnil⟩, rfl, ?_, fun _ =>
        hcontents.trans hnil⟩
      rw [rest, rest, ← hsplit]
    · have hfree : got.length ≤ r.buf.free := by omega
      have hsrc : 0 + got.length ≤ (Bytes.patch r.fill 0 got).length := by omega
      obtain ⟨buf, heq, hinv, hbcap, hsize, hitems⟩ :=
        RingBuffer.write_spec h.ring 0 hfree hsrc
      rw [heq]
      refine ⟨got.length, _, rfl, ⟨hinv, hbcap.trans h.cap, hfill, h.chunk, fun he => ?_⟩, rfl, ?_,
        fun h0 => ?_⟩
      · exact absurd he heof
      · have hslice : Bytes.slice (Bytes.patch r.fill 0 got) 0 got.length = got :=
          Bytes.slice_patch r.fill (by rw [h.fill]; omega)
        rw [hslice] at hitems
        show buf.contents ++ stream.rest = r.buf.contents ++ r.stream.rest
        rw [hitems, hsplit, List.append_assoc]
      · have : buf.size = 0 := h0
        omega

theorem refill_spec (h : r.Inv) : ∃ r', r.refill = some r' ∧ r'.Inv ∧ r'.cap = r.cap ∧
    r'.rest = r.rest ∧ (r'.buf.size = 0 → r.rest = []) := by
  unfold refill
  split <;> rename_i hempty
  · obtain ⟨n, r', heq, hspec⟩ := fillFromSocket_spec h hempty
    exact ⟨r', by rw [heq]; rfl, hspec⟩
  · exact ⟨r, rfl, h, rfl, rfl, fun h0 => absurd h0 hempty⟩

/-- A read takes the next bytes of the stream, at least one if it may and there is one. -/
theorem read_spec (h : r.Inv) (length : Int) :
    ∃ out r', r.read length = some (out, r') ∧ r'.Inv ∧ r'.cap = r.cap ∧ r.rest = out ++ r'.rest ∧
      out.length ≤ length.toNat ∧ (0 < length → r.rest ≠ [] → out ≠ []) := by
  unfold read
  split <;> rename_i hlength
  · exact ⟨[], r, rfl, h, rfl, rfl, Nat.zero_le _, fun hpos => absurd hpos (by omega)⟩
  · obtain ⟨r₁, hfill, hinv, hcap, hrest, hend⟩ := refill_spec h
    rw [hfill]
    simp only [bind, Option.bind_some]
    split <;> rename_i hempty
    · refine ⟨[], r₁, rfl, hinv, hcap, hrest.symm, Nat.zero_le _,
        fun _ hne => absurd (hend hempty) hne⟩
    · obtain ⟨buf, heq, hbuf, hbcap, hitems⟩ := RingBuffer.read_spec hinv.ring
      have hlen : r₁.buf.contents.length = r₁.buf.size :=
        Ring.length_items (by rw [hinv.ring.length]; exact hinv.ring.size)
      rw [heq]
      refine ⟨r₁.buf.contents.take length.toNat, _, rfl,
        ⟨hbuf, hbcap.trans hinv.cap, hinv.fill, hinv.chunk, hinv.eof⟩, hcap, ?_,
        List.length_take_le _ _, fun _ _ hnil => ?_⟩
      · show r.rest = _ ++ (buf.contents ++ r₁.stream.rest)
        rw [hitems, ← List.append_assoc, List.take_append_drop, ← hrest]
        rfl
      · rcases List.take_eq_nil_iff.mp hnil with h0 | h0
        · omega
        · rw [h0] at hlen
          exact hempty hlen.symm

/-- What a call leaves: the answer of the stream in memory, and the rest of the stream. -/
def Serves (r : AsyncReader) (c : Call) (result : Option (Answer × AsyncReader)) : Prop :=
  ∃ a r', result = some (a, r') ∧ r'.Inv ∧ r'.cap = r.cap ∧ Answers r.rest c a ∧
    r.rest = a.delivered ++ r'.rest

theorem readExactFrom_spec (h : r.Inv) (fuel : Nat) (out : List UInt8)
    (hout : out.length ≤ length.toNat)
    (hfuel : length.toNat < out.length + fuel) :
    ∃ a r', readExactFrom length fuel r out = some (a, r') ∧ r'.Inv ∧ r'.cap = r.cap ∧
      Answers (out ++ r.rest) (.readExact length) a ∧ out ++ r.rest = a.delivered ++ r'.rest := by
  induction fuel generalizing r out with
  | zero => omega
  | succ fuel ih =>
    rw [readExactFrom]
    split <;> rename_i hlt
    · obtain ⟨got, r₁, heq, hinv, hcap, hrest, hle, hsome⟩ := read_spec h (length - out.length)
      rw [heq]
      simp only [bind, Option.bind_some]
      split <;> rename_i hgot
      · obtain rfl : got = [] := List.length_eq_zero_iff.mp hgot
        have hnil : r.rest = [] := Classical.byContradiction fun hne => hsome (by omega) hne rfl
        rw [hnil, List.nil_append] at hrest
        refine ⟨.raised out, r₁, rfl, hinv, hcap, ?_, ?_⟩
        · rw [hnil, List.append_nil]
          exact ⟨hlt, rfl⟩
        · rw [hnil, ← hrest]
          rfl
      · have hlen : (out ++ got).length ≤ length.toNat := by
          rw [List.length_append]
          omega
        obtain ⟨a, r', heq', hinv', hcap', hans, hsplit⟩ := ih hinv (out ++ got) hlen (by
          rw [List.length_append]
          omega)
        rw [List.append_assoc, ← hrest] at hans hsplit
        exact ⟨a, r', heq', hinv', hcap'.trans hcap, hans, hsplit⟩
    · refine ⟨.bytes out, r, rfl, h, rfl, ⟨?_, ?_⟩, rfl⟩
      · rw [List.length_append]
        omega
      · rw [show length.toNat = out.length by omega, List.take_left]

theorem readExact_spec (h : r.Inv) (length : Int) :
    r.Serves (.readExact length) (r.readExact length) := by
  obtain ⟨a, r', heq, hinv, hcap, hans, hrest⟩ := readExactFrom_spec h (length.toNat + 1) []
    (Nat.zero_le length.toNat) (by simp)
  exact ⟨a, r', heq, hinv, hcap, hans, hrest⟩

theorem next_spec (h : r.Inv) : r.Serves .next r.next := by
  have hpos : 0 < r.chunkSize := by
    have := h.ring.head
    rw [h.chunk, ← h.cap]
    omega
  obtain ⟨got, r', heq, hinv, hcap, hrest, -, hsome⟩ := read_spec h r.chunkSize
  unfold Serves AsyncReader.next
  rw [heq]
  simp only [bind, Option.bind_some]
  split <;> rename_i hgot
  · obtain rfl : got = [] := List.length_eq_zero_iff.mp hgot
    have hnil : r.rest = [] := Classical.byContradiction fun hne => hsome (by omega) hne rfl
    exact ⟨_, r', rfl, hinv, hcap, ⟨by simp, fun _ => hnil, fun _ => rfl⟩, hrest⟩
  · have hne : got ≠ [] := fun h0 => hgot (h0 ▸ rfl)
    refine ⟨_, r', rfl, hinv, hcap, ⟨?_, ?_⟩, hrest⟩
    · simpa using hne
    · rw [hrest]
      simp [hne]

/-! ## The array of a record -/

/-- The lengths that the array of `readUntil` may have. -/
def Doubled (room : Int) : Prop := ∃ k ≤ 24, room = (64 * 2 ^ k : Nat)

theorem doubled_le (h : Doubled room) : room ≤ 1073741824 := by
  obtain ⟨k, hk, rfl⟩ := h
  have := Nat.pow_le_pow_right (by decide : 0 < 2) hk
  omega

theorem grow_spec {n : Nat} (h : Doubled room) (hlen : (n : Nat) ≤ room) (hn : n < 1073741824) :
    ∃ room', grow n room = some room' ∧ Doubled room' ∧ (n : Nat) < room' := by
  unfold grow
  split <;> rename_i hge
  · obtain ⟨k, hk, rfl⟩ := h
    have hk' : k < 24 := by
      refine Nat.lt_of_le_of_ne hk fun heq => ?_
      subst heq
      omega
    generalize hroom : 64 * 2 ^ k = room at hge hlen hk'
    have hdouble : Doubled ((room : Nat) * 2) := by
      refine ⟨k + 1, hk', ?_⟩
      rw [Nat.pow_succ, ← Nat.mul_assoc, hroom, Int.natCast_mul]
      rfl
    have hle := doubled_le hdouble
    have hpos : 0 < room := hroom ▸ Nat.mul_pos (by decide) (Nat.pow_pos (by decide))
    have hi32 : Cells.i32 (room * 2) = room * 2 := Cells.i32_eq (by omega) (by omega)
    dsimp only
    rw [hi32, if_neg (by omega)]
    exact ⟨_, rfl, hdouble, by omega⟩
  · exact ⟨room, rfl, h, by omega⟩

theorem grow_full : grow 1073741824 1073741824 = none := by decide

theorem readUntilFrom_spec (h : r.Inv) (hd : d ∉ acc)
    (hmax : 0 < maxBytes → (acc.length : Int) < maxBytes) (hcap : Doubled room)
    (hlen : (acc.length : Int) ≤ room) (hfuel : r.rest.length < fuel)
    (hfit : RecordFits d maxBytes (acc ++ r.rest)) :
    ∃ a r', readUntilFrom d maxBytes fuel r acc room = some (a, r') ∧ r'.Inv ∧ r'.cap = r.cap ∧
      Answers (acc ++ r.rest) (.readUntil d maxBytes) a ∧
        acc ++ r.rest = a.delivered ++ r'.rest := by
  induction fuel generalizing r acc room with
  | zero => omega
  | succ fuel ih =>
    obtain ⟨one, r₁, heq, hinv, hrcap, hrest, hle, hsome⟩ := read_spec h 1
    rw [readUntilFrom, heq]
    simp only [bind, Option.bind_some]
    cases one with
    | nil =>
      have hnil : r.rest = [] := Classical.byContradiction fun hne => hsome (by decide) hne rfl
      refine ⟨.bytes acc, r₁, rfl, hinv, hrcap, ?_, ?_⟩
      · rw [hnil, List.append_nil]
        exact (record_of_end hd hmax).symm
      · rw [hrest]
        rfl
    | cons b bs =>
      obtain rfl : bs = [] := List.length_eq_zero_iff.mp (by
        rw [List.length_cons] at hle
        omega)
      rw [List.singleton_append] at hrest
      have hwhole : acc ++ r.rest = acc ++ [b] ++ r₁.rest := by rw [hrest]; simp
      rw [hrest] at hfit
      obtain ⟨room', hgrow, hcap', hlt⟩ := grow_spec hcap hlen (hfit.lt hd hmax)
      simp only [List.getElem?_cons_zero, hgrow, Option.bind_some]
      rw [if_pos hlt]
      split <;> rename_i hbd
      · refine ⟨.bytes (acc ++ [b]), r₁, rfl, hinv, hrcap, ?_, hwhole⟩
        rw [hrest, hbd]
        exact (record_of_delimiter hd hmax _).symm
      · have hd' : d ∉ acc ++ [b] := by
          rw [List.mem_append, List.mem_singleton]
          rintro (hmem | hmem)
          · exact hd hmem
          · exact hbd hmem.symm
        split <;> rename_i hfull
        · refine ⟨.bytes (acc ++ [b]), r₁, rfl, hinv, hrcap, ?_, hwhole⟩
          have := hmax hfull.1
          rw [List.length_append, List.length_singleton] at hfull
          rw [hrest]
          exact (record_of_cap hd' hfull.1 (by omega) _).symm
        · obtain ⟨a, r', heq', hinv', hrcap', hans, hsplit⟩ := ih hinv hd' (fun hpos => by
              rw [List.length_append] at hfull ⊢
              omega) hcap' (by rw [List.length_append, List.length_singleton]; omega) (by
              rw [hrest, List.length_cons] at hfuel
              omega) (by rwa [List.append_assoc])
          rw [← hwhole] at hans hsplit
          exact ⟨a, r', heq', hinv', hrcap'.trans hrcap, hans, hsplit⟩

theorem readUntil_spec (h : r.Inv) (hfit : RecordFits d maxBytes r.rest) :
    r.Serves (.readUntil d maxBytes) (r.readUntil d maxBytes) :=
  readUntilFrom_spec h List.not_mem_nil (fun hpos => hpos) ⟨0, Nat.zero_le _, rfl⟩
    (by decide) (Nat.lt_succ_self _) hfit

/-! ## Runs -/

theorem exec_spec (h : r.Inv) (ha : r.Admits (c, a)) : r.Serves c (r.exec c) := by
  cases c with
  | read length =>
    obtain ⟨out, r', heq, hinv, hcap, hrest, hle, hsome⟩ := read_spec h length
    exact ⟨.bytes out, r', by rw [exec, heq]; rfl, hinv, hcap, ⟨hle, hsome⟩, hrest⟩
  | readExact length => exact readExact_spec h length
  | readUntil d maxBytes => exact readUntil_spec h ha
  | next => exact next_spec h

theorem step_spec (h : r.Inv) (ha : r.Admits label) (hs : r.Step label r') :
    r'.Inv ∧ r'.cap = r.cap ∧ r.rest = label.2.delivered ++ r'.rest := by
  obtain ⟨a, r₁, heq, hinv, hcap, -, hrest⟩ := exec_spec h ha
  obtain ⟨rfl, rfl⟩ := Prod.ext_iff.mp (Option.some.inj (hs.symm.trans heq))
  exact ⟨hinv, hcap, hrest⟩

theorem run_spec (hs : Steps (Steps.guarded Step Admits) r labels r') (h : r.Inv) :
    r'.Inv ∧ r'.cap = r.cap ∧ r.rest = (labels.map (·.2.delivered)).flatten ++ r'.rest := by
  induction hs with
  | nil => exact ⟨h, rfl, rfl⟩
  | cons ha _ ih =>
    obtain ⟨hinv, hcap, hrest⟩ := step_spec h ha.1 ha.2
    obtain ⟨hinv', hcap', hrest'⟩ := ih hinv
    refine ⟨hinv', hcap'.trans hcap, ?_⟩
    rw [hrest, hrest', List.map_cons, List.flatten_cons, List.append_assoc]

/-- However the reads of the socket are cut and whatever the capacity is: as long as records end
within 2^30 bytes, every run delivers the stream in order, and each call answers as it would on the
stream in memory. -/
theorem delivers_stream
    (hs : Steps (Steps.guarded Step Admits) (make ⟨bytes, cuts, 0⟩ capacity) labels r) :
    r.Exact capacity bytes (labels.map (·.2.delivered)).flatten := by
  obtain ⟨hinv, hcap, hrest⟩ := run_spec hs (.make ..)
  rw [rest_make] at hrest
  refine ⟨hrest, ?_, fun c ha => ?_⟩
  · have hsize := hinv.ring.size
    rw [hinv.cap, hcap] at hsize
    unfold make at hsize
    dsimp only at hsize
    split at hsize <;> omega
  · obtain ⟨a, r', heq, -, -, hans, hsplit⟩ := exec_spec hinv ha
    exact ⟨a, r', heq, hans, hsplit⟩

/-- A line and the rest of five bytes, read one by one into a ring of two. -/
theorem delivers_stream_five : ∃ r, Exact r 2 [97, 10, 98, 99, 100] [97, 10, 98, 99, 100] := by
  have hrun : ∃ r, Steps (Steps.guarded Step Admits) (make ⟨[97, 10, 98, 99, 100], fun _ => 0, 0⟩ 2)
      [(.readUntil 10 0, .bytes [97, 10]), (.readExact 2, .bytes [98, 99]),
        (.next, .chunk (some [100]))] r := by
    refine ⟨_, .cons ⟨.inl ?_, rfl⟩ (.cons ⟨trivial, rfl⟩ (.cons ⟨trivial, rfl⟩ .nil))⟩
    rw [rest_make]
    decide
  obtain ⟨r, hr⟩ := hrun
  exact ⟨r, delivers_stream hr⟩

theorem readUntilFrom_overflow (h : r.Inv) (hd : d ∉ r.rest) (hmax : maxBytes ≤ 0)
    (hroom : Doubled room) (hlen : (acc.length : Int) ≤ room)
    (hlong : 1073741824 < acc.length + r.rest.length) :
    readUntilFrom d maxBytes fuel r acc room = none := by
  induction fuel generalizing r acc room with
  | zero => rfl
  | succ fuel ih =>
    obtain ⟨one, r₁, heq, hinv, -, hrest, hle, hsome⟩ := read_spec h 1
    have hbound := doubled_le hroom
    rw [readUntilFrom, heq]
    simp only [bind, Option.bind_some]
    cases one with
    | nil =>
      refine absurd rfl (hsome (by decide) fun hnil => ?_)
      rw [hnil, List.length_nil] at hlong
      omega
    | cons b bs =>
      obtain rfl : bs = [] := List.length_eq_zero_iff.mp (by
        rw [List.length_cons] at hle
        omega)
      rw [List.singleton_append] at hrest
      rw [hrest, List.mem_cons] at hd
      rw [hrest, List.length_cons] at hlong
      rcases Nat.lt_or_ge acc.length 1073741824 with hlt | hge
      · obtain ⟨room', hgrow, hroom', hlt'⟩ := grow_spec hroom hlen hlt
        simp only [List.getElem?_cons_zero, hgrow, Option.bind_some]
        rw [if_pos hlt', if_neg fun hbd => hd (.inl hbd.symm), if_neg fun hpos => by omega]
        refine ih hinv (fun hmem => hd (.inr hmem)) hroom' ?_ ?_ <;>
          rw [List.length_append, List.length_singleton] <;> omega
      · obtain ⟨hacc, rfl⟩ : acc.length = 1073741824 ∧ room = 1073741824 := by omega
        simp only [List.getElem?_cons_zero, hacc, grow_full, Option.bind_none]

/-- 2^30 + 1 bytes without a delimiter end the program. -/
theorem unlimited_record_lost :
    (make ⟨List.replicate 1073741825 97, fun _ => 0, 0⟩ 8192).exec (.readUntil 10 0) = none := by
  have hrest := rest_make ⟨List.replicate 1073741825 97, fun _ => 0, 0⟩ 8192
  dsimp only at hrest
  refine readUntilFrom_overflow (.make ..) ?_ (Int.le_refl 0) ⟨0, Nat.zero_le _, rfl⟩ (by decide) ?_
  · rw [hrest, List.mem_replicate]
    decide
  · rw [hrest, List.length_replicate]
    decide

end AsyncReader

end Cajeta.Net
