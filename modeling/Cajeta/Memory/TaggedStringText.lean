import Cajeta.Memory.TaggedString

/-!
# The text of a tagged string

In all of its layouts a string denotes a text, and the routines make from it a string that denotes
the same text or a slice of it, whatever the layouts are.
-/

namespace Cajeta.Memory.TaggedString

/-- The text that the string denotes. A long one is a window of its root, and says so if the root
may not be written. -/
structure Denotes (m : Heap) (s : Layout) (text : Text) : Prop where
  len : s.len = text.length
  short : s.len ≤ inlineCap → s.data.take s.len = text
  window : inlineCap < s.len → ∃ r, m.roots s.base = some r ∧
    0 ≤ s.off ∧ s.off + s.len < 2147483648 ∧ s.off.toNat + s.len ≤ r.bytes.length ∧
    Bytes.slice r.bytes s.off.toNat s.len = text ∧
    (r.readOnly = true → s.lenTag &&& staticBit ≠ 0)

namespace Heap

/-- Every root is still there, with the same bytes. -/
def Le (m m' : Heap) : Prop :=
  ∀ a r, m.roots a = some r →
    ∃ r', m'.roots a = some r' ∧ r'.bytes = r.bytes ∧ r'.readOnly = r.readOnly

theorem Le.refl (m : Heap) : m.Le m := fun _ r h => ⟨r, h, rfl, rfl⟩

theorem Le.update {m : Heap} (h : ∀ r, m.roots a = some r →
      ∃ r', new = some r' ∧ r'.bytes = r.bytes ∧ r'.readOnly = r.readOnly) :
    m.Le ⟨Function.update m.roots a new⟩ := by
  intro b r hr
  by_cases hb : b = a
  · subst hb
    obtain ⟨r', hr', h'⟩ := h r hr
    exact ⟨r', (Function.update_self ..).trans hr', h'⟩
  · exact ⟨r, (Function.update_of_ne hb ..).trans hr, rfl, rfl⟩

theorem le_newRoot {m : Heap} (hbuf : m.roots buf = none) : m.Le (m.newRoot buf text) :=
  .update fun r hr => by rw [hbuf] at hr; cases hr

theorem le_retain (m : Heap) (base : Addr) : m.Le (m.retain base) :=
  .update fun r hr => ⟨{ r with stakes := r.stakes.map (· + 1) }, by rw [hr]; rfl, rfl, rfl⟩

theorem exists_promote {m : Heap} (hr : m.roots base = some r) (hro : r.readOnly = false) :
    ∃ m', m.promote grow base n = some m' ∧ m.Le m' := by
  unfold promote
  split
  · exact ⟨m, rfl, .refl m⟩
  simp only [hr, hro]
  cases r.stakes with
  | some rc =>
    refine ⟨_, rfl, .update fun r' hr' => ?_⟩
    rw [hr] at hr'
    cases hr'
    exact ⟨_, rfl, rfl, hro.symm⟩
  | none =>
    refine ⟨_, rfl, .update fun r' hr' => ?_⟩
    rw [hr] at hr'
    cases hr'
    exact ⟨_, rfl, rfl, hro.symm⟩

end Heap

theorem Denotes.mono {m : Heap} (h : Denotes m s text) (hm : m.Le m') : Denotes m' s text := by
  refine ⟨h.len, h.short, fun hlen => ?_⟩
  obtain ⟨r, hr, hoff, hfit, hin, htext, hro⟩ := h.window hlen
  obtain ⟨r', hr', hbytes, hread⟩ := hm _ r hr
  exact ⟨r', hr', hoff, hfit, by rwa [hbytes], by rwa [hbytes], by rwa [hread]⟩

theorem len_le_mask (s : Layout) : s.len ≤ 0x1FFFFFFF := by
  have h : s.len = s.lenTag.toNat &&& 0x1FFFFFFF := by
    rw [Layout.len, BitVec.toNat_and]
    rfl
  rw [h]
  exact Nat.and_le_right

theorem toNat_lenTag (n : Nat) (tag : BitVec 32) (hn : n ≤ 0x1FFFFFFF)
    (ht : tag &&& lenMask = 0#32) :
    ((BitVec.ofNat 32 n ||| tag) &&& lenMask).toNat = n := by
  have hor : (BitVec.ofNat 32 n ||| tag) &&& lenMask = BitVec.ofNat 32 n &&& lenMask := by
    rw [BitVec.and_or_distrib_right, ht]
    exact BitVec.or_zero
  have hmask : lenMask.toNat = 2 ^ 29 - 1 := rfl
  rw [hor, BitVec.toNat_and, BitVec.toNat_ofNat, hmask, Nat.and_two_pow_sub_one_eq_mod]
  omega

theorem lenTag_static (h : tag &&& staticBit ≠ 0) : (len ||| tag) &&& staticBit ≠ 0 := by
  intro h0
  rw [BitVec.and_or_distrib_right] at h0
  exact h (BitVec.or_eq_zero_iff.mp h0).2

theorem off_setWindow {off : Int} (h0 : 0 ≤ off) (h : off < 2147483648) :
    (Layout.setWindow tag off base).off = off := by
  have htake : (Layout.setWindow tag off base).data.take 4 =
      Bytes.toLE 4 (off % 4294967296).toNat := List.take_left' (Bytes.length_toLE ..)
  have hmod : off % 4294967296 = off := Int.emod_eq_of_lt h0 (by omega)
  have hnat : (off.toNat : Int) = off := Int.toNat_of_nonneg h0
  have hle : Bytes.ofLE (Bytes.toLE 4 off.toNat) = off.toNat :=
    Bytes.ofLE_toLE_of_lt (by omega)
  have hbmod : off.bmod 4294967296 = off := Int.bmod_eq_of_le (by omega) (by omega)
  unfold Layout.off
  rw [htake, hmod, hle, hnat]
  exact hbmod

theorem base_setWindow (h : base < 256 ^ 8) : (Layout.setWindow tag off base).base = base := by
  rw [Layout.base, Layout.setWindow, List.drop_left' (Bytes.length_toLE ..),
    Bytes.ofLE_toLE_of_lt h]

theorem base_lt (s : Layout) : s.base < 256 ^ 8 := by
  have h := Bytes.ofLE_lt (s.data.drop 4)
  rwa [List.length_drop, s.size] at h

theorem Denotes.setInline (h : text.length ≤ 12) :
    ∃ out, Layout.setInline text = some out ∧ Denotes m out text := by
  rw [Layout.setInline, dif_pos h]
  refine ⟨_, rfl, ?_⟩
  have hlen : (BitVec.ofNat 32 text.length &&& lenMask).toNat = text.length := by
    have := toNat_lenTag text.length 0#32 (by omega) (by decide)
    rwa [BitVec.or_zero] at this
  refine ⟨hlen, fun _ => ?_, fun hlt => ?_⟩
  · rw [Layout.len, hlen]
    exact List.take_left' rfl
  · rw [Layout.len, hlen] at hlt
    exact absurd h (Nat.not_le.mpr hlt)

theorem Denotes.setWindow {m : Heap} (off : Int) (n : Nat) (tag : BitVec 32)
    (hr : m.roots base = some r) (hbase : base < 256 ^ 8)
    (hoff : 0 ≤ off) (hfit : off + n < 2147483648) (hin : off.toNat + n ≤ r.bytes.length)
    (hlong : inlineCap < n) (hmask : n ≤ 0x1FFFFFFF) (htag : tag &&& lenMask = 0#32)
    (hro : r.readOnly = true → tag &&& staticBit ≠ 0) :
    Denotes m (.setWindow (BitVec.ofNat 32 n ||| tag) off base)
      (Bytes.slice r.bytes off.toNat n) := by
  have hlen : (Layout.setWindow (BitVec.ofNat 32 n ||| tag) off base).len = n :=
    toNat_lenTag n tag hmask htag
  have hoff' : (Layout.setWindow (BitVec.ofNat 32 n ||| tag) off base).off = off :=
    off_setWindow hoff (by omega)
  refine ⟨?_, fun hle => ?_, fun _ => ⟨r, ?_⟩⟩
  · rw [hlen, Bytes.slice, List.length_take, List.length_drop]
    omega
  · rw [hlen] at hle
    exact absurd hlong (Nat.not_lt.mpr hle)
  · rw [hlen, hoff', base_setWindow hbase]
    exact ⟨hr, hoff, hfit, hin, rfl, fun h => lenTag_static (hro h)⟩

theorem Denotes.newRoot (text : List UInt8) {m : Heap} (hbuf : buf < 256 ^ 8)
    (hlong : inlineCap < text.length) (hmask : text.length ≤ 0x1FFFFFFF) :
    Denotes (m.newRoot buf text) (.setWindow (BitVec.ofNat 32 text.length) 0 buf) text := by
  have h := Denotes.setWindow (m := m.newRoot buf text) 0 text.length 0#32
    (Function.update_self ..) hbuf (Int.le_refl 0) (by omega) (by simp) hlong hmask (by decide)
      (by simp)
  rw [BitVec.or_zero] at h
  rwa [show Bytes.slice (text ++ [0]) (0 : Int).toNat text.length = text from
    List.take_left' rfl] at h

theorem slice_slice (pos : Nat) (h : b + n ≤ k) :
    Bytes.slice (Bytes.slice l pos k) b n = Bytes.slice l (pos + b) n := by
  rw [Bytes.slice, Bytes.slice, Bytes.slice, List.drop_take, List.take_take, List.drop_drop,
    Nat.min_eq_left (by omega)]

theorem Denotes.read_root {m : Heap} (h : Denotes m s text) (hlong : inlineCap < s.len)
    (hb : b + n ≤ text.length) :
    m.read s.base (s.off + (b : Nat)) n = some (Bytes.slice text b n) := by
  obtain ⟨r, hr, hoff, -, hin, htext, -⟩ := h.window hlong
  have hn : (s.off + (b : Nat)).toNat = s.off.toNat + b := by omega
  rw [← h.len] at hb
  rw [Heap.read, hr]
  simp only [hn]
  rw [if_pos ⟨by omega, by omega⟩, ← htext, slice_slice _ hb]

theorem Denotes.read {m : Heap} (h : Denotes m s text) (hb : b + n ≤ text.length) :
    s.read m (b : Nat) n = some (Bytes.slice text b n) := by
  rw [Layout.read]
  split
  · next hp => exact h.read_root (of_decide_eq_true hp) hb
  · next hp =>
    have hle : s.len ≤ inlineCap := Nat.not_lt.mp fun hlt => hp (decide_eq_true hlt)
    have hlen := h.len
    rw [if_pos ⟨by omega, by unfold inlineCap at hle; omega⟩, ← h.short hle]
    have := slice_slice 0 (l := s.data) (b := b) (n := n) (k := s.len) (by omega)
    rw [Nat.zero_add] at this
    rw [Int.toNat_natCast, ← this]
    rfl

/-! ## Strings from strings -/

/-- The call goes through, keeps every root, and makes a string of the text. -/
def Makes (m : Heap) (result : Option (Heap × Layout)) (text : Text) : Prop :=
  ∃ m' out, result = some (m', out) ∧ m.Le m' ∧ Denotes m' out text

theorem length_slice {text : List UInt8} (h : b + n ≤ text.length) :
    (Bytes.slice text b n).length = n := by
  rw [Bytes.slice, List.length_take, List.length_drop]
  omega

theorem slice_zero (text : List UInt8) : Bytes.slice text 0 text.length = text :=
  List.take_length

theorem Makes.setInline {m : Heap} (h : text.length ≤ 12) :
    Makes m (do let out ← Layout.setInline text; return (m, out)) text := by
  obtain ⟨out, hout, hd⟩ := Denotes.setInline (m := m) h
  exact ⟨m, out, by rw [hout]; rfl, .refl m, hd⟩

theorem Denotes.window_slice {m m' : Heap} (h : Denotes m s text) (hm : m.Le m')
    (hb : b + n ≤ text.length) (hlong : inlineCap < n) (htag : tag &&& lenMask = 0#32)
    (hro : s.lenTag &&& staticBit ≠ 0 → tag &&& staticBit ≠ 0) :
    Denotes m' (.setWindow (BitVec.ofNat 32 n ||| tag) (s.off + (b : Nat)) s.base)
      (Bytes.slice text b n) := by
  rw [← h.len] at hb
  obtain ⟨r, hr, hoff, hfit, hin, htext, hread⟩ := h.window (by omega)
  have hmask := len_le_mask s
  have hn : (s.off + (b : Nat)).toNat = s.off.toNat + b := by omega
  have := Denotes.setWindow (s.off + (b : Nat)) n tag hr (base_lt s)
    (by omega) (by omega) (by omega) hlong (by omega) htag fun h => hro (hread h)
  rw [hn, ← slice_slice _ hb, htext] at this
  exact this.mono hm

theorem Denotes.exists_promote {m : Heap} (grow : Bool) (n : Int) (h : Denotes m s text)
    (hlong : inlineCap < s.len) (hs : s.lenTag &&& staticBit = 0) :
      ∃ m', m.promote grow s.base n = some m' ∧ m.Le m' := by
  obtain ⟨r, hr, -, -, -, -, hread⟩ := h.window hlong
  refine Heap.exists_promote hr ?_
  cases hro : r.readOnly with
  | false => rfl
  | true => exact absurd hs (hread hro)

theorem slice_makes {m : Heap} (h : Denotes m s text) (hbuf : m.roots env.buf = none)
    (haddr : env.buf < 256 ^ 8) (hb : b + n ≤ text.length) :
    Makes m (slice env m s (b : Nat) (n : Nat)) (Bytes.slice text b n) := by
  have hlen := h.len
  have hsl := length_slice hb
  unfold slice
  split
  · next h0 =>
    have hnil : Bytes.slice text b n = [] := List.length_eq_zero_iff.mp (by omega)
    rw [hnil]
    exact .setInline (Nat.zero_le _)
  split
  · next hle =>
    rw [Int.toNat_natCast, h.read hb]
    exact .setInline (by unfold inlineCap at hle; omega)
  next hlong =>
  have hn : inlineCap < n := by omega
  rw [BitVec.ofInt_natCast]
  split
  · rw [Int.toNat_natCast, h.read_root (by omega) hb]
    refine ⟨_, _, rfl, Heap.le_newRoot hbuf, ?_⟩
    have := Denotes.newRoot (Bytes.slice text b n) (m := m) haddr (by omega)
      (by have := len_le_mask s; omega)
    rwa [hsl] at this
  split
  · exact ⟨_, _, rfl, .refl m, h.window_slice (.refl m) hb hn (by decide) fun _ => by decide⟩
  next hstatic =>
  have hs : s.lenTag &&& staticBit = 0 := Decidable.not_not.mp hstatic
  split
  · have hle := Heap.le_retain m s.base
    exact ⟨_, _, rfl, hle, h.window_slice hle hb hn (by decide) fun h => absurd hs h⟩
  · obtain ⟨m', hm', hle⟩ := h.exists_promote env.grow 2 (by omega) hs
    rw [hm']
    exact ⟨_, _, rfl, hle, h.window_slice hle hb hn (by decide) fun h => absurd hs h⟩

theorem sliceBorrow_makes {m : Heap} (h : Denotes m s text) (hb : b + n ≤ text.length) :
    Makes m (sliceBorrow m s (b : Nat) (n : Nat)) (Bytes.slice text b n) := by
  have hlen := h.len
  have hsl := length_slice hb
  unfold sliceBorrow
  split
  · next h0 =>
    have hnil : Bytes.slice text b n = [] := List.length_eq_zero_iff.mp (by omega)
    rw [hnil]
    exact .setInline (Nat.zero_le _)
  split
  · next hle =>
    rw [Int.toNat_natCast, h.read hb]
    exact .setInline (by unfold inlineCap at hle; omega)
  next hlong =>
  rw [BitVec.ofInt_natCast, BitVec.or_assoc]
  refine ⟨_, _, rfl, .refl m, h.window_slice (.refl m) hb (by omega) ?_ fun hs h0 => ?_⟩
  · rw [BitVec.and_or_distrib_right, BitVec.and_assoc]
    simp [borrowBit, staticBit, lenMask]
  · rw [BitVec.and_or_distrib_right, BitVec.and_assoc, BitVec.and_self] at h0
    exact hs (BitVec.or_eq_zero_iff.mp h0).2

theorem resolve_makes {m : Heap} (h : Denotes m s text) (hbuf : m.roots env.buf = none)
    (haddr : env.buf < 256 ^ 8) : Makes m (resolve env m s) text := by
  have hlen := h.len
  have hmask := len_le_mask s
  have hwhole : Bytes.slice text 0 s.len = text := by rw [hlen, slice_zero]
  unfold resolve
  split
  · next hp =>
    have hle : s.len ≤ inlineCap := by
      rw [Layout.isPointer, Bool.not_eq_true', decide_eq_false_iff_not] at hp
      omega
    rw [h.short hle]
    exact .setInline (by unfold inlineCap at hle; omega)
  next hp =>
  have hlong : inlineCap < s.len := by
    rw [Layout.isPointer, Bool.not_eq_true', decide_eq_false_iff_not] at hp
    omega
  have hroot := h.read_root (b := 0) (n := s.len) hlong (by omega)
  rw [Int.natCast_zero, Int.add_zero, hwhole] at hroot
  have hwin {m' tag} (hm : m.Le m') (htag : tag &&& lenMask = 0#32)
      (hro : s.lenTag &&& staticBit ≠ 0 → tag &&& staticBit ≠ 0) :
      Denotes m' (.setWindow (BitVec.ofNat 32 s.len ||| tag) s.off s.base) text := by
    have := h.window_slice (b := 0) (n := s.len) hm (by omega) hlong htag hro
    rwa [Int.natCast_zero, Int.add_zero, hwhole] at this
  split
  · exact ⟨_, _, rfl, .refl m, hwin (.refl m) (by decide) fun _ => by decide⟩
  next hstatic =>
  have hs : s.lenTag &&& staticBit = 0 := Decidable.not_not.mp hstatic
  split
  · rw [hroot, hlen]
    exact ⟨_, _, rfl, Heap.le_newRoot hbuf, .newRoot _ haddr (by omega) (by omega)⟩
  · obtain ⟨m', hm', hle⟩ := h.exists_promote env.grow 2 hlong hs
    rw [hm']
    exact ⟨_, _, rfl, hle, hwin hle (by decide) fun h => absurd hs h⟩

theorem clone_makes {m : Heap} (h : Denotes m s text) (hbuf : m.roots env.buf = none)
    (haddr : env.buf < 256 ^ 8) : Makes m (clone env m s) text := by
  have hlen := h.len
  have hmask := len_le_mask s
  have hread := h.read (b := 0) (n := s.len) (by omega)
  rw [Int.natCast_zero, hlen, slice_zero] at hread
  unfold clone
  rw [hlen, hread]
  split
  · next hle => exact .setInline hle
  · exact ⟨_, _, rfl, Heap.le_newRoot hbuf, .newRoot _ haddr (by omega) (by omega)⟩

/-! ## Chains -/

def Op.text (src : Text) : Op → Text
  | .slice _ b e => (src.take e).drop b
  | .sliceBorrow _ b e => (src.take e).drop b
  | .resolve _ => src
  | .clone _ => src

def Op.Within (src : Text) : Op → Prop
  | .slice _ b e => b ≤ e ∧ e ≤ src.length
  | .sliceBorrow _ b e => b ≤ e ∧ e ≤ src.length
  | .resolve _ => True
  | .clone _ => True

theorem Op.makes {m : Heap} {text : Text} {env : Env} {op : Op} (h : Denotes m s text)
    (hbuf : m.roots env.buf = none) (haddr : env.buf < 256 ^ 8) (hop : op.Within text) :
    Makes m (op.apply env m s) (op.text text) := by
  have hslice {b e : Nat} (hb : b ≤ e) : (text.take e).drop b = Bytes.slice text b (e - b) :=
    List.drop_take ..
  cases op with
  | slice i b e =>
    obtain ⟨hbe, he⟩ := hop
    rw [Op.apply, Op.text, hslice hbe, ← Int.natCast_sub hbe]
    exact slice_makes h hbuf haddr (by omega)
  | sliceBorrow i b e =>
    obtain ⟨hbe, he⟩ := hop
    rw [Op.apply, Op.text, hslice hbe, ← Int.natCast_sub hbe]
    exact sliceBorrow_makes h (by omega)
  | resolve => exact resolve_makes h hbuf haddr
  | clone => exact clone_makes h hbuf haddr

def chainTexts (texts : List Text) : List (Env × Op) → List Text
  | [] => texts
  | (_, op) :: ops => chainTexts (texts ++ [op.text (texts.getD op.index [])]) ops

namespace State

/-- Each operation of the chain is on a string that is there, within its text, and the allocator
returns an address where no buffer is. -/
def Admits (s : State) (texts : List Text) : List (Env × Op) → Prop
  | [] => True
  | (env, op) :: ops =>
    s.mem.roots env.buf = none ∧ env.buf < 256 ^ 8 ∧ op.index < texts.length ∧
      op.Within (texts.getD op.index []) ∧
      ∀ s', s.step env op = some s' → s'.Admits (texts ++ [op.text (texts.getD op.index [])]) ops

def Denote (s : State) (texts : List Text) : Prop :=
  List.Forall₂ (Denotes s.mem) s.strings texts

theorem Denote.step {s : State} (h : s.Denote texts) (hbuf : s.mem.roots env.buf = none)
    (haddr : env.buf < 256 ^ 8) (hi : op.index < texts.length)
    (hop : op.Within (texts.getD op.index [])) :
    ∃ s', s.step env op = some s' ∧ s'.Denote (texts ++ [op.text (texts.getD op.index [])]) := by
  have hlen : s.strings.length = texts.length := List.Forall₂.length_eq h
  have hget : Denotes s.mem s.strings[op.index] (texts.getD op.index []) := by
    rw [List.getD_eq_getElem?_getD, List.getElem?_eq_getElem hi]
    exact List.Forall₂.get h _ hi
  obtain ⟨m', out, hmake, hle, hd⟩ := Op.makes hget hbuf haddr hop
  refine ⟨⟨m', s.strings ++ [out]⟩, ?_, ?_⟩
  · rw [State.step, List.getElem?_eq_getElem (by omega)]
    simp only [hmake]
    rfl
  · exact List.rel_append (List.Forall₂.imp (fun _ _ hd => hd.mono hle) h) (.cons hd .nil)

/-- A chain of slices, borrows, resolves and clones, from strings in any layouts, never reads or
writes outside of a root, and each string that it makes has the bytes and the length of its text. -/
theorem run_denotes {s : State} (h : s.Denote texts) (hops : s.Admits texts ops) :
    ∃ s', s.run ops = some s' ∧
      List.Forall₂ (fun str text => str.len = text.length ∧ str.read s'.mem 0 str.len = some text)
        s'.strings (chainTexts texts ops) := by
  induction ops generalizing s texts with
  | nil =>
    refine ⟨s, rfl, List.Forall₂.imp (fun str text hd => ⟨hd.len, ?_⟩) h⟩
    have hread := hd.read (b := 0) (n := str.len) (by rw [hd.len, Nat.zero_add])
    rwa [Int.natCast_zero, hd.len, slice_zero, ← hd.len] at hread
  | cons eop ops ih =>
    obtain ⟨env, op⟩ := eop
    obtain ⟨hbuf, haddr, hi, hop, hrest⟩ := hops
    obtain ⟨s₁, hs₁, h₁⟩ := h.step hbuf haddr hi hop
    obtain ⟨s', hrun, hall⟩ := ih h₁ (hrest s₁ hs₁)
    exact ⟨s', by rw [run, hs₁]; exact hrun, hall⟩

/-- A literal of 20 bytes is sliced to 15 of them, and the slice is cloned. -/
theorem run_denotes_literal :
    let text : Text := List.replicate 20 65
    let env : Env := ⟨64, fun _ => false, true⟩
    let m : Heap := ⟨fun a => if a = 8 then some ⟨20, text, none, true⟩ else none⟩
    let s : State := ⟨m, [.setWindow (BitVec.ofNat 32 20 ||| staticBit) 0 8]⟩
    ∃ s', s.run [(env, .slice 0 2 17), (env, .clone 1)] = some s' ∧
      List.Forall₂ (fun str text => str.len = text.length ∧ str.read s'.mem 0 str.len = some text)
        s'.strings [text, List.replicate 15 65, List.replicate 15 65] := by
  intro text env m s
  have h : Denotes m (.setWindow (BitVec.ofNat 32 20 ||| staticBit) 0 8) text := by
    have hr : m.roots 8 = some ⟨20, text, none, true⟩ := rfl
    exact .setWindow 0 20 staticBit hr (by decide) (by decide) (by decide) (by decide) (by decide)
      (by decide)
      (by decide) fun _ => by decide
  have hs : s.Denote [text] := .cons h .nil
  refine run_denotes hs ⟨rfl, by decide, by decide, ⟨by decide, by decide⟩, ?_⟩
  · intro s' hs'
    cases Option.some.inj hs'
    exact ⟨rfl, by decide, by decide, trivial, fun _ _ => trivial⟩

end State

end Cajeta.Memory.TaggedString
