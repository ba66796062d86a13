import Cajeta.Lib.Bytes
import Cajeta.Lib.Result

/-!
# Pages of the disk-backed tree

How the pager packs a node into one fixed-size page and rebuilds it from there. Every access to the
page and to an array of a node is checked, so that an access outside of it is a fault of the run.
-/

namespace Cajeta.Collection.Ltm
open Except Bytes

abbrev ByteString := List UInt8

/-- Why the work on a page stops. -/
inductive PageFault where
  /-- a byte outside of the page -/
  | outside
  /-- an index outside of an array of the node -/
  | slot
  /-- an array of negative length -/
  | length
  deriving DecidableEq

abbrev PageM := Except PageFault

/-- The codec that returns a fresh buffer. -/
structure Encoder (T : Type u) where
  encode : T → ByteString
  decode : ByteString → T

/-- The codec that writes into a buffer of the caller, given by the bytes it writes. -/
structure BufferEncoder (T : Type u) where
  bytes : T → ByteString

/-- Writes `part` from position `off` on. -/
def store (buf : ByteString) (off : Nat) (part : ByteString) : PageM ByteString :=
  if off + part.length ≤ buf.length then .ok (patch buf off part) else .error .outside

/-- The `len` bytes at position `off`. -/
def load (buf : ByteString) (off len : Nat) : PageM ByteString :=
  if off + len ≤ buf.length then .ok (slice buf off len) else .error .outside

def BufferEncoder.encodeInto (fast : BufferEncoder T) (value : T) (dst : ByteString) (off : Nat) :
    PageM (ByteString × Nat) := do
  return (← store dst off (fast.bytes value), (fast.bytes value).length)

def putI32 (b : ByteString) (off v : Nat) : PageM ByteString := store b off (toLE 4 v)

def getI32 (b : ByteString) (off : Nat) : PageM Int := do
  return (BitVec.ofNat 32 (ofLE (← load b off 4))).toInt

def putI64 (b : ByteString) (off : Nat) (v : BitVec 64) : PageM ByteString :=
  store b off (toLE 8 v.toNat)

def getI64 (b : ByteString) (off : Nat) : PageM (BitVec 64) := do
  return BitVec.ofNat 64 (ofLE (← load b off 8))

/-- The image of one page. The arrays hold their live part: `order + 1` slots are allocated for
keys, values and tombstones and `order + 2` for child ids. -/
structure LtmBPlusTreeNode (K : Type u) (V : Type v) where
  pageId : BitVec 64
  leaf : Bool
  keys : List K
  values : List V
  dead : List Bool
  childIds : List (BitVec 64)
  nextLeafId : BitVec 64
  dirty : Bool
  deriving DecidableEq

def LtmBPlusTreeNode.numKeys (node : LtmBPlusTreeNode K V) : Nat := node.keys.length

structure LtmPager (K : Type u) (V : Type v) where
  keyEnc : Encoder K
  valEnc : Encoder V
  keyFast : Option (BufferEncoder K)
  valFast : Option (BufferEncoder V)
  order : Nat
  pageSize : Nat

section Writing

/-- One length-prefixed entry, written behind its length first. -/
def putEntry (enc : Encoder T) (fast : Option (BufferEncoder T)) (x : T) (buf : ByteString)
    (p : Nat) : PageM (ByteString × Nat) := do
  let (buf, len) ← match fast with
    | some fast => fast.encodeInto x buf (p + 4)
    | none => do
      let bytes := enc.encode x
      let buf ← store buf (p + 4) bytes
      pure (buf, bytes.length)
  let buf ← putI32 buf p len
  return (buf, p + 4 + len)

def putEntries (enc : Encoder T) (fast : Option (BufferEncoder T)) :
    List T → ByteString → Nat → PageM (ByteString × Nat)
  | [], buf, p => .ok (buf, p)
  | x :: xs, buf, p => do
    let (buf, p) ← putEntry enc fast x buf p
    putEntries enc fast xs buf p

def deadByte (dead : Bool) : UInt8 := if dead then 1 else 0

def putDead : List Bool → ByteString → Nat → PageM (ByteString × Nat)
  | [], buf, p => .ok (buf, p)
  | d :: ds, buf, p => do
    let buf ← store buf p [deadByte d]
    putDead ds buf (p + 1)

def putChildIds : List (BitVec 64) → ByteString → Nat → PageM (ByteString × Nat)
  | [], buf, p => .ok (buf, p)
  | cid :: cids, buf, p => do
    let buf ← putI64 buf p cid
    putChildIds cids buf (p + 8)

/-- The elements that a loop over the first `n` slots meets. -/
def firstSlots (n : Nat) (xs : List α) : PageM (List α) :=
  if n ≤ xs.length then .ok (xs.take n) else .error .slot

/-- `fresh` is the content of the buffer as it is allocated. -/
def LtmPager.serializeNode (pager : LtmPager K V) (node : LtmBPlusTreeNode K V)
    (fresh : ByteString) : PageM ByteString := do
  let leafByte : UInt8 := if node.leaf then 2 else 0
  let buf ← store fresh 0 [leafByte]
  let buf ← putI32 buf 1 node.numKeys
  let buf ← putI64 buf 5 node.nextLeafId
  let (buf, p) ← putEntries pager.keyEnc pager.keyFast node.keys buf 13
  if node.leaf then do
    let values ← firstSlots node.numKeys node.values
    let (buf, p) ← putEntries pager.valEnc pager.valFast values buf p
    let dead ← firstSlots node.numKeys node.dead
    let (buf, _) ← putDead dead buf p
    return buf
  else do
    let childIds ← firstSlots (node.numKeys + 1) node.childIds
    let (buf, _) ← putChildIds childIds buf p
    return buf

end Writing

section Reading

/-- The new array that a slice is copied to. -/
def sliceAt (buf : ByteString) (p : Nat) (len : Int) : PageM ByteString := do
  require (0 ≤ len) .length
  load buf p len.toNat

/-- Reads `n` entries from `p` on into the slots from `i` on, of which there are `slots`. -/
def getEntries (enc : Encoder T) (buf : ByteString) (slots : Nat) :
    (n i p : Nat) → PageM (List T × Nat)
  | 0, _, p => .ok ([], p)
  | n + 1, i, p => do
    let len ← getI32 buf p
    let bytes ← sliceAt buf (p + 4) len
    require (i < slots) .slot
    let (xs, p) ← getEntries enc buf slots n (i + 1) (p + 4 + len.toNat)
    return (enc.decode bytes :: xs, p)

def getDead (buf : ByteString) (slots : Nat) : (n i p : Nat) → PageM (List Bool)
  | 0, _, _ => .ok []
  | n + 1, i, p => do
    let byte ← load buf p 1
    require (i < slots) .slot
    let dead ← getDead buf slots n (i + 1) (p + 1)
    return decide (byte = [1]) :: dead

def getChildIds (buf : ByteString) (slots : Nat) : (n i p : Nat) → PageM (List (BitVec 64))
  | 0, _, _ => .ok []
  | n + 1, i, p => do
    let cid ← getI64 buf p
    require (i < slots) .slot
    let cids ← getChildIds buf slots n (i + 1) (p + 8)
    return cid :: cids

def LtmPager.deserializeNode (pager : LtmPager K V) (pageId : BitVec 64) (buf : ByteString) :
    PageM (LtmBPlusTreeNode K V) := do
  let leafByte ← load buf 0 1
  let leaf : Bool := leafByte = [1] ∨ leafByte = [2]
  let numKeys ← getI32 buf 1
  let nextLeafId ← getI64 buf 5
  let (keys, p) ← getEntries pager.keyEnc buf (pager.order + 1) numKeys.toNat 0 13
  if leaf then do
    let (values, p) ← getEntries pager.valEnc buf (pager.order + 1) numKeys.toNat 0 p
    -- Pages of format 1 carry no tombstones: all of their entries are alive.
    let dead ← if leafByte = [2] then getDead buf (pager.order + 1) numKeys.toNat 0 p
      else pure (List.replicate numKeys.toNat false)
    return { pageId, leaf, keys, values, dead, childIds := [], nextLeafId, dirty := false }
  else do
    let childIds ← getChildIds buf (pager.order + 2) (numKeys + 1).toNat 0 p
    return { pageId, leaf, keys, values := [], dead := [], childIds, nextLeafId, dirty := false }

end Reading

/-!
## Reading back a written page

The writer puts the parts of a node one behind the other, so what it has written so far is always a
prefix of the page. The reader meets the same parts at the same positions.
-/

def LtmBPlusTreeNode.leafByte (node : LtmBPlusTreeNode K V) : UInt8 := if node.leaf then 2 else 0

/-- The bytes that an entry is written as, with the codec that the pager prefers. -/
def encoded (enc : Encoder T) (fast : Option (BufferEncoder T)) (x : T) : ByteString :=
  match fast with
  | some fast => fast.bytes x
  | none => enc.encode x

def entryBytes (bytes : ByteString) : ByteString := toLE 4 bytes.length ++ bytes

def entriesBytes (enc : Encoder T) (fast : Option (BufferEncoder T)) (xs : List T) : ByteString :=
  xs.flatMap fun x => entryBytes (encoded enc fast x)

def headerBytes (node : LtmBPlusTreeNode K V) : ByteString :=
  [node.leafByte] ++ toLE 4 node.numKeys ++ toLE 8 node.nextLeafId.toNat

def trailerBytes (pager : LtmPager K V) (node : LtmBPlusTreeNode K V) : ByteString :=
  if node.leaf then
    entriesBytes pager.valEnc pager.valFast node.values ++ node.dead.map deadByte
  else node.childIds.flatMap fun cid => toLE 8 cid.toNat

def pageBytes (pager : LtmPager K V) (node : LtmBPlusTreeNode K V) : ByteString :=
  headerBytes node ++ entriesBytes pager.keyEnc pager.keyFast node.keys ++ trailerBytes pager node

/-- The arrays of a node of the tree, between two operations or just before a split. -/
structure LtmBPlusTreeNode.WellFormed (node : LtmBPlusTreeNode K V) (order : Nat) : Prop where
  numKeys_le : node.numKeys ≤ order + 1
  values : node.values.length = if node.leaf then node.numKeys else 0
  dead : node.dead.length = if node.leaf then node.numKeys else 0
  childIds : node.childIds.length = if node.leaf then 0 else node.numKeys + 1

/-- `decode` undoes both ways to encode. -/
structure Decodes (enc : Encoder T) (fast : Option (BufferEncoder T)) : Prop where
  encode : ∀ x, enc.decode (enc.encode x) = x
  encodeInto : ∀ f ∈ fast, ∀ x, enc.decode (f.bytes x) = x

theorem Decodes.decode_encoded {enc : Encoder T} (h : Decodes enc fast) (x : T) :
    enc.decode (encoded enc fast x) = x := by
  cases fast with
  | none => exact h.encode x
  | some f => exact h.encodeInto f rfl x

theorem entriesBytes_cons : entriesBytes enc fast (x :: xs) =
    entryBytes (encoded enc fast x) ++ entriesBytes enc fast xs := List.flatMap_cons

theorem length_entryBytes (bytes : ByteString) :
    (entryBytes bytes).length = 4 + bytes.length := by
  simp [entryBytes]

theorem length_headerBytes (node : LtmBPlusTreeNode K V) : (headerBytes node).length = 13 := by
  simp [headerBytes]

theorem length_le_entriesBytes (enc : Encoder T) (fast : Option (BufferEncoder T)) (xs : List T) :
    4 * xs.length ≤ (entriesBytes enc fast xs).length := by
  induction xs with
  | nil => exact Nat.zero_le _
  | cons x xs ih =>
    rw [entriesBytes_cons, List.length_append, length_entryBytes, List.length_cons]
    omega

/-! ## Writing -/

/-- `w` is what has been written to the page so far. -/
def Written (w buf : ByteString) (size : Nat) : Prop := w <+: buf ∧ buf.length = size

theorem Written.store (part : ByteString) (h : Written w buf size) (hp : p = w.length)
    (hfit : (w ++ part).length ≤ size) :
    ∃ buf', store buf p part = .ok buf' ∧ Written (w ++ part) buf' size := by
  obtain ⟨⟨rest, rfl⟩, hsize⟩ := h
  subst hp
  rw [List.length_append] at hfit hsize
  have hbound : w.length + part.length ≤ (w ++ rest).length := by rw [List.length_append]; omega
  refine ⟨patch (w ++ rest) w.length part, if_pos hbound, ⟨rest.drop part.length, ?_⟩, ?_⟩
  · rw [patch, List.take_left, List.drop_append,
      List.drop_eq_nil_of_le (Nat.le_add_right w.length part.length), Nat.add_sub_cancel_left,
      List.nil_append]
  · rw [length_patch _ hbound, List.length_append, hsize]

/-- The length of an entry goes in front of its bytes, which are there already. -/
theorem Written.entry (h : Written w buf size) (hp : p = w.length)
    (hfit : (w ++ entryBytes bytes).length ≤ size) :
    ∃ buf₁ buf₂, Ltm.store buf (p + 4) bytes = .ok buf₁ ∧ putI32 buf₁ p bytes.length = .ok buf₂ ∧
      Written (w ++ entryBytes bytes) buf₂ size := by
  obtain ⟨⟨rest, rfl⟩, hsize⟩ := h
  rw [List.length_append, length_entryBytes] at hfit
  rw [List.length_append] at hsize
  have hgap : (rest.take 4).length = 4 := by rw [List.length_take]; omega
  -- the four bytes of the length are left as they are by the first of the two stores
  have hfirst : Written (w ++ rest.take 4) (w ++ rest) size :=
    ⟨⟨rest.drop 4, by rw [List.append_assoc, List.take_append_drop]⟩, by
      rw [List.length_append, hsize]⟩
  obtain ⟨buf₁, hstore₁, ⟨post, rfl⟩, hsize₁⟩ := hfirst.store bytes (p := p + 4)
    (by rw [List.length_append, hgap, hp]) (by simp only [List.length_append, hgap]; omega)
  have hsecond : w.length + (toLE 4 bytes.length).length ≤
      (w ++ rest.take 4 ++ bytes ++ post).length := by
    simp only [List.length_append, hgap, length_toLE]
    omega
  refine ⟨_, w ++ toLE 4 bytes.length ++ (bytes ++ post), hstore₁, ?_, ⟨post, ?_⟩, ?_⟩
  · rw [putI32, Ltm.store, hp, if_pos hsecond, List.append_assoc (w ++ rest.take 4),
      patch_append _ _ _ _ (by rw [hgap, length_toLE])]
  · simp only [entryBytes, List.append_assoc]
  · simp only [List.length_append, hgap, length_toLE] at hsize₁ ⊢
    omega

theorem putEntry_spec (h : Written w buf size) (hp : p = w.length)
    (hfit : (w ++ entryBytes (encoded enc fast x)).length ≤ size) :
    ∃ buf', putEntry enc fast x buf p =
        .ok (buf', (w ++ entryBytes (encoded enc fast x)).length) ∧
      Written (w ++ entryBytes (encoded enc fast x)) buf' size := by
  obtain ⟨buf₁, buf₂, hstore, hput, hwritten⟩ := h.entry hp hfit
  have hcursor : p + 4 + (encoded enc fast x).length =
      (w ++ entryBytes (encoded enc fast x)).length := by
    rw [List.length_append, length_entryBytes, hp, Nat.add_assoc]
  refine ⟨buf₂, ?_, hwritten⟩
  rw [← hcursor]
  cases fast with
  | none =>
    simp only [encoded] at hstore hput
    simp only [putEntry, hstore, ok_bind, pure_bind, hput, encoded]
    rfl
  | some fast =>
    simp only [encoded] at hstore hput
    simp only [putEntry, BufferEncoder.encodeInto, hstore, ok_bind, hput, encoded, pure_bind]
    rfl

theorem putEntries_spec (enc : Encoder T) (fast : Option (BufferEncoder T)) (xs : List T)
    (h : Written w buf size) (hp : p = w.length)
    (hfit : (w ++ entriesBytes enc fast xs).length ≤ size) :
    ∃ buf', putEntries enc fast xs buf p = .ok (buf', (w ++ entriesBytes enc fast xs).length) ∧
      Written (w ++ entriesBytes enc fast xs) buf' size := by
  induction xs generalizing w buf p with
  | nil =>
    have hnil : entriesBytes enc fast [] = [] := rfl
    rw [hnil, List.append_nil]
    exact ⟨buf, by rw [putEntries, hp], h⟩
  | cons x xs ih =>
    rw [entriesBytes_cons, ← List.append_assoc] at hfit ⊢
    have hle := hfit
    rw [List.length_append] at hle
    obtain ⟨buf₁, hput, hwritten⟩ := putEntry_spec h hp (Nat.le_of_add_right_le hle)
    obtain ⟨buf₂, hrest, hwritten₂⟩ := ih hwritten rfl hfit
    exact ⟨buf₂, by rw [putEntries, hput, ok_bind]; exact hrest, hwritten₂⟩

theorem putDead_spec (ds : List Bool) (h : Written w buf size) (hp : p = w.length)
    (hfit : (w ++ ds.map deadByte).length ≤ size) :
    ∃ buf', putDead ds buf p = .ok (buf', (w ++ ds.map deadByte).length) ∧
      Written (w ++ ds.map deadByte) buf' size := by
  induction ds generalizing w buf p with
  | nil =>
    rw [List.map_nil, List.append_nil]
    exact ⟨buf, by rw [putDead, hp], h⟩
  | cons d ds ih =>
    rw [List.map_cons, List.append_cons] at hfit ⊢
    have hle := hfit
    rw [List.length_append] at hle
    obtain ⟨buf₁, hput, hwritten⟩ := h.store _ hp (Nat.le_of_add_right_le hle)
    obtain ⟨buf₂, hrest, hwritten₂⟩ := ih (p := p + 1) hwritten
      (by rw [List.length_append, hp]; rfl) hfit
    exact ⟨buf₂, by rw [putDead, hput, ok_bind]; exact hrest, hwritten₂⟩

theorem putChildIds_spec (cids : List (BitVec 64)) (h : Written w buf size) (hp : p = w.length)
    (hfit : (w ++ cids.flatMap fun cid => toLE 8 cid.toNat).length ≤ size) :
    ∃ buf', putChildIds cids buf p =
        .ok (buf', (w ++ cids.flatMap fun cid => toLE 8 cid.toNat).length) ∧
      Written (w ++ cids.flatMap fun cid => toLE 8 cid.toNat) buf' size := by
  induction cids generalizing w buf p with
  | nil =>
    rw [List.flatMap_nil, List.append_nil]
    exact ⟨buf, by rw [putChildIds, hp], h⟩
  | cons cid cids ih =>
    rw [List.flatMap_cons, ← List.append_assoc] at hfit ⊢
    have hle := hfit
    rw [List.length_append] at hle
    obtain ⟨buf₁, hput, hwritten⟩ := h.store _ hp (Nat.le_of_add_right_le hle)
    obtain ⟨buf₂, hrest, hwritten₂⟩ := ih (p := p + 8) hwritten
      (by rw [List.length_append, hp, length_toLE]) hfit
    exact ⟨buf₂, by rw [putChildIds, putI64, hput, ok_bind]; exact hrest, hwritten₂⟩

theorem firstSlots_length (xs : List α) : firstSlots xs.length xs = .ok xs := by
  rw [firstSlots, if_pos (Nat.le_refl _), List.take_length]

theorem serializeNode_spec (pager : LtmPager K V) {node : LtmBPlusTreeNode K V}
    (hnode : node.WellFormed pager.order) (hfit : (pageBytes pager node).length ≤ pager.pageSize)
    (hfresh : fresh.length = pager.pageSize) :
    ∃ page, pager.serializeNode node fresh = .ok page ∧
      Written (pageBytes pager node) page pager.pageSize := by
  rw [pageBytes] at hfit ⊢
  have hkeys := hfit
  rw [List.length_append] at hkeys
  replace hkeys := Nat.le_of_add_right_le hkeys
  have hheader := hkeys
  rw [List.length_append, length_headerBytes] at hheader
  have hstart : Written [] fresh pager.pageSize := ⟨List.nil_prefix, hfresh⟩
  obtain ⟨buf₁, hleaf, hw₁⟩ := hstart.store [node.leafByte] (p := 0) rfl (by simp; omega)
  obtain ⟨buf₂, hcount, hw₂⟩ := hw₁.store (toLE 4 node.numKeys) (p := 1) rfl
    (by simp; omega)
  obtain ⟨buf₃, hnext, hw₃⟩ := hw₂.store (toLE 8 node.nextLeafId.toNat) (p := 5) (by simp)
    (by simp; omega)
  obtain ⟨buf₄, hput, hw₄⟩ := putEntries_spec pager.keyEnc pager.keyFast
    node.keys (w := headerBytes node) (p := 13) hw₃ (length_headerBytes node).symm hkeys
  have hleafByte : (if node.leaf then 2 else 0 : UInt8) = node.leafByte := rfl
  simp only [LtmPager.serializeNode, hleafByte, hleaf, ok_bind, putI32, hcount, putI64, hnext, hput]
  have hvalues := hnode.values
  have hdead := hnode.dead
  have hchildIds := hnode.childIds
  rw [trailerBytes] at hfit ⊢
  split at hfit
  · next hisLeaf =>
    rw [if_pos hisLeaf] at hvalues hdead
    rw [if_pos hisLeaf, if_pos hisLeaf]
    rw [← List.append_assoc] at hfit ⊢
    have hle := hfit
    rw [List.length_append] at hle
    obtain ⟨buf₅, hputValues, hw₅⟩ :=
      putEntries_spec _ _ node.values hw₄ rfl (Nat.le_of_add_right_le hle)
    obtain ⟨buf₆, hputDead, hw₆⟩ := putDead_spec node.dead hw₅ rfl hfit
    refine ⟨buf₆, ?_, hw₆⟩
    rw [← hvalues, firstSlots_length, ok_bind, hputValues, ok_bind, hvalues, ← hdead,
      firstSlots_length, ok_bind, hputDead]
    rfl
  · next hisInternal =>
    rw [if_neg hisInternal] at hchildIds
    rw [if_neg hisInternal, if_neg hisInternal]
    obtain ⟨buf₅, hputChildIds, hw₅⟩ := putChildIds_spec node.childIds hw₄ rfl hfit
    refine ⟨buf₅, ?_, hw₅⟩
    rw [← hchildIds, firstSlots_length, ok_bind, hputChildIds]
    rfl

/-! ## Reading -/

/-- `part` stands at position `p` of the page. -/
def Stands (page : ByteString) (p : Nat) (part : ByteString) : Prop :=
  p ≤ page.length ∧ At page p part

theorem Stands.length_le (h : Stands page p part) : p + part.length ≤ page.length := by
  have hle := h.2.length_le
  have hp := h.1
  omega

theorem Stands.left (h : Stands page p (part ++ rest)) : Stands page p part := ⟨h.1, h.2.left⟩

theorem Stands.right (h : Stands page p (part ++ rest)) (hp : q = p + part.length) :
    Stands page q rest := by
  subst hp
  exact ⟨h.left.length_le, h.2.right⟩

theorem Written.stands (h : Written w page size) : Stands page 0 w := ⟨Nat.zero_le _, h.1⟩

theorem Stands.load (h : Stands page p part) (hn : n = part.length) : load page p n = .ok part := by
  subst hn
  rw [Ltm.load, if_pos h.length_le, h.2.slice]

theorem Stands.getI32 (h : Stands page p (toLE 4 v)) (hv : v < 2 ^ 31) :
    getI32 page p = .ok (v : Int) := by
  rw [Ltm.getI32, h.load (length_toLE 4 v).symm, ok_bind, ofLE_toLE_of_lt (by omega)]
  have hint : (BitVec.ofNat 32 v).toInt = v := by
    rw [BitVec.toInt_eq_toNat_of_lt (by rw [BitVec.toNat_ofNat]; omega), BitVec.toNat_ofNat,
      Nat.mod_eq_of_lt (by omega)]
  rw [hint]
  rfl

theorem Stands.getI64 (v : BitVec 64) (h : Stands page p (toLE 8 v.toNat)) :
    getI64 page p = .ok v := by
  rw [Ltm.getI64, h.load (length_toLE 8 _).symm, ok_bind,
    ofLE_toLE_of_lt (by have := v.isLt; omega), BitVec.ofNat_toNat, BitVec.setWidth_eq]
  rfl

theorem Stands.sliceAt (h : Stands page p part) : sliceAt page p part.length = .ok part := by
  have hnonneg : (0 : Int) ≤ part.length := Int.natCast_nonneg _
  rw [Ltm.sliceAt, require, if_pos hnonneg, ok_bind, Int.toNat_natCast, h.load rfl]

theorem getEntries_spec {enc : Encoder T} (slots : Nat) (hdec : Decodes enc fast) (xs : List T)
    (h : Stands page p (entriesBytes enc fast xs)) (hpage : page.length < 2 ^ 31)
    (hslots : i + xs.length ≤ slots) :
    getEntries enc page slots xs.length i p =
      .ok (xs, p + (entriesBytes enc fast xs).length) := by
  induction xs generalizing i p with
  | nil => rfl
  | cons x xs ih =>
    rw [List.length_cons] at hslots
    rw [entriesBytes_cons] at h ⊢
    have hentry := h.left
    have hrest := h.right rfl
    have hin := hentry.length_le
    rw [entryBytes] at hentry
    rw [length_entryBytes] at hrest hin
    have hbytes := hentry.right (q := p + 4) (by rw [length_toLE])
    have ih := ih (i := i + 1) hrest (by omega)
    have hslot : require (i < slots) PageFault.slot = .ok () := if_pos (by omega)
    rw [List.length_cons, getEntries, hentry.left.getI32 (by omega), ok_bind, hbytes.sliceAt,
      ok_bind, hslot, ok_bind, Int.toNat_natCast, Nat.add_assoc, ih, ok_bind, hdec.decode_encoded,
      List.length_append, length_entryBytes, Nat.add_assoc]
    rfl

theorem getDead_spec (slots : Nat) (ds : List Bool) (h : Stands page p (ds.map deadByte))
    (hslots : i + ds.length ≤ slots) : getDead page slots ds.length i p = .ok ds := by
  induction ds generalizing i p with
  | nil => rfl
  | cons d ds ih =>
    rw [List.length_cons] at hslots
    rw [List.map_cons, ← List.singleton_append] at h
    have ih := ih (i := i + 1) (h.right (q := p + 1) rfl) (by omega)
    have hslot : require (i < slots) PageFault.slot = .ok () := if_pos (by omega)
    rw [List.length_cons, getDead, h.left.load (n := 1) rfl, ok_bind, hslot, ok_bind, ih, ok_bind]
    cases d <;> rfl

theorem getChildIds_spec (slots : Nat) (cids : List (BitVec 64))
    (h : Stands page p (cids.flatMap fun cid => toLE 8 cid.toNat))
    (hslots : i + cids.length ≤ slots) : getChildIds page slots cids.length i p = .ok cids := by
  induction cids generalizing i p with
  | nil => rfl
  | cons cid cids ih =>
    rw [List.length_cons] at hslots
    rw [List.flatMap_cons] at h
    have ih := ih (i := i + 1) (h.right (q := p + 8) (by rw [length_toLE])) (by omega)
    have hslot : require (i < slots) PageFault.slot = .ok () := if_pos (by omega)
    rw [List.length_cons, getChildIds, h.left.getI64, ok_bind, hslot, ok_bind, ih]
    rfl

theorem deserializeNode_spec (pager : LtmPager K V) {node : LtmBPlusTreeNode K V}
    (hkeyDec : Decodes pager.keyEnc pager.keyFast) (hvalDec : Decodes pager.valEnc pager.valFast)
    (hnode : node.WellFormed pager.order) (hpage : page.length < 2 ^ 31)
    (h : Stands page 0 (pageBytes pager node)) :
    pager.deserializeNode node.pageId page = .ok { node with dirty := false } := by
  rw [pageBytes] at h
  have hkeys := h.left.right (q := 13) (by rw [length_headerBytes])
  have htrailer := h.right rfl
  rw [List.length_append, length_headerBytes, Nat.zero_add] at htrailer
  have hheader := h.left.left
  rw [headerBytes] at hheader
  have hleafByte := hheader.left.left.load (n := 1) rfl
  have hcount := hheader.left.right (q := 1) rfl
  have hnext := hheader.right (q := 5) (by simp)
  have hnum : node.numKeys < 2 ^ 31 := by
    have hin := hkeys.length_le
    have hlen := length_le_entriesBytes pager.keyEnc pager.keyFast node.keys
    unfold LtmBPlusTreeNode.numKeys
    omega
  have hgetKeys := getEntries_spec (i := 0) (pager.order + 1) hkeyDec node.keys hkeys hpage
    (by rw [Nat.zero_add]; exact hnode.numKeys_le)
  have hvalues := hnode.values
  have hdead := hnode.dead
  have hchildIds := hnode.childIds
  have hle := hnode.numKeys_le
  have hkeysLength : node.keys.length = node.numKeys := rfl
  rw [LtmPager.deserializeNode, hleafByte, ok_bind, hcount.getI32 hnum, ok_bind, hnext.getI64,
    ok_bind, Int.toNat_natCast, ← hkeysLength, hgetKeys, ok_bind]
  obtain ⟨pageId, leaf, keys, values, dead, childIds, nextLeafId, dirty⟩ := node
  cases leaf with
  | true =>
    have hbyte : LtmBPlusTreeNode.leafByte (⟨pageId, true, keys, values, dead, childIds, nextLeafId,
      dirty⟩ : LtmBPlusTreeNode K V) = 2 := rfl
    obtain rfl : childIds = [] := List.eq_nil_of_length_eq_zero hchildIds
    replace hvalues : values.length = keys.length := hvalues
    replace hdead : dead.length = keys.length := hdead
    have hroom : 0 + keys.length ≤ pager.order + 1 := by rw [Nat.zero_add]; exact hle
    have hgetValues := getEntries_spec (i := 0) (pager.order + 1) hvalDec values
      htrailer.left hpage (by rw [hvalues]; exact hroom)
    have hgetDead := getDead_spec (i := 0) (pager.order + 1) dead (htrailer.right rfl)
      (by rw [hdead]; exact hroom)
    rw [hvalues] at hgetValues
    rw [hdead] at hgetDead
    simp only [hbyte] at hgetValues hgetDead ⊢
    rw [if_pos (by decide), hgetValues, ok_bind, if_pos trivial, hgetDead]
    rfl
  | false =>
    have hbyte : LtmBPlusTreeNode.leafByte (⟨pageId, false, keys, values, dead, childIds,
      nextLeafId,
      dirty⟩ : LtmBPlusTreeNode K V) = 0 := rfl
    obtain rfl : values = [] := List.eq_nil_of_length_eq_zero hvalues
    obtain rfl : dead = [] := List.eq_nil_of_length_eq_zero hdead
    replace hchildIds : childIds.length = keys.length + 1 := hchildIds
    replace hle : keys.length ≤ pager.order + 1 := hle
    have hgetChildIds := getChildIds_spec (i := 0) (pager.order + 2) childIds htrailer
      (by omega)
    have hcount : ((keys.length : Int) + 1).toNat = childIds.length := by omega
    simp only [hbyte]
    rw [if_neg (by decide), hcount, hgetChildIds]
    rfl

/-- The page written for a node is read back as that node, and no access to the page or to an array
of the node on either way is out of bounds. -/
theorem serializeNode_roundTrip (pager : LtmPager K V) (node : LtmBPlusTreeNode K V)
    (fresh : ByteString) (hkeyDec : Decodes pager.keyEnc pager.keyFast)
    (hvalDec : Decodes pager.valEnc pager.valFast) (hnode : node.WellFormed pager.order)
    (hfit : (pageBytes pager node).length ≤ pager.pageSize) (hsize : pager.pageSize < 2 ^ 31)
    (hfresh : fresh.length = pager.pageSize) :
    ∃ page, pager.serializeNode node fresh = .ok page ∧ page.length = pager.pageSize ∧
      pager.deserializeNode node.pageId page = .ok { node with dirty := false } := by
  obtain ⟨page, hpage, hwritten⟩ := serializeNode_spec pager hnode hfit hfresh
  refine ⟨page, hpage, hwritten.2, ?_⟩
  exact deserializeNode_spec pager hkeyDec hvalDec hnode (hwritten.2 ▸ hsize) hwritten.stands

/-- Keys go through the buffer codec, values through the allocating one. -/
def textPager : LtmPager ByteString ByteString where
  keyEnc := ⟨id, id⟩
  valEnc := ⟨List.reverse, List.reverse⟩
  keyFast := some ⟨id⟩
  valFast := none
  order := 2
  pageSize := 64

def textLeaf : LtmBPlusTreeNode ByteString ByteString where
  pageId := 7
  leaf := true
  keys := [[1], [2, 3], []]
  values := [[9, 8], [], [7]]
  dead := [false, true, false]
  childIds := []
  nextLeafId := -1
  dirty := true

theorem textLeaf_roundTrip : ∃ page,
    textPager.serializeNode textLeaf (List.replicate 64 0) = .ok page ∧ page.length = 64 ∧
      textPager.deserializeNode 7 page = .ok { textLeaf with dirty := false } :=
  serializeNode_roundTrip textPager textLeaf (List.replicate 64 0)
    ⟨fun _ => rfl, by rintro f ⟨⟩ x; rfl⟩ ⟨List.reverse_reverse, by rintro f ⟨⟩⟩
    ⟨by decide, rfl, rfl, rfl⟩ (by decide) (by decide) rfl

end Cajeta.Collection.Ltm
