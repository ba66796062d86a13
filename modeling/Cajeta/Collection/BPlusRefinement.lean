import Mathlib.Data.List.Perm.Subperm
import Mathlib.Data.List.TakeWhile
import Cajeta.Collection.BPlusInsert

/-!
# `BPlusTree` as an ordered map

The entries of the leaves from left to right are a `SortedMap`, and each operation is that of the
map.
-/

namespace Cajeta.Collection.BPlusTree
open BTree Slots
variable {K V : Type} {t t' : BPlusTree K V} {d D : Nat}

theorem Shows.length_le {T : BTree Nat K V D} (h : Shows t T) : T.addrs.length ≤ t.registered := by
  have hsub : T.addrs ⊆ List.range t.registered := fun a ha =>
    List.mem_range.mpr (h.registered a ha)
  simpa using (List.subperm_of_subset h.nodup hsub).length_le

theorem Shows.leafAt {path : Path Nat K V D 0} (h : Shows t (plug path (leaf a es))) :
    LeafAt t.order (t.nodes a) es ∧ (t.nodes a).parent = path.parent :=
  (rep_plug.mp h.rep).2

/-! ## Writing a leaf -/

theorem Shows.setLeaf {path : Path Nat K V D 0} (h : Shows t (plug path (leaf a es)))
    (hleaf : LeafAt t.order n es') (hparent : n.parent = (t.nodes a).parent)
    (hnext : n.next = (t.nodes a).next) : Shows (t.setNode a n) (plug path (leaf a es')) := by
  obtain ⟨haround, -, hp⟩ := rep_plug.mp h.rep
  have hself : (t.setNode a n).nodes a = n := nodes_setNode_self ..
  have haddrs : (plug path (leaf a es')).addrs = (plug path (leaf a es)).addrs := by
    rw [addrs, addrs, walk_plug, walk_plug]
    rfl
  have hleaves : (plug path (leaf a es')).leaves = (plug path (leaf a es)).leaves := by
    rw [leaves, leaves, walk_plug, walk_plug]
    rfl
  refine ⟨?_, rep_plug.mpr ⟨?_, ?_⟩, haddrs ▸ h.nodup, haddrs ▸ h.registered, ?_⟩
  · exact h.root.trans (congrArg some (addr_plug_congr path rfl))
  · have hnd := h.nodup
    rw [addrs, walk_plug] at hnd
    refine haround.congr fun b hb => nodes_setNode_of_ne ?_
    rintro rfl
    obtain ⟨hfront, -, hback⟩ := List.nodup_append.mp hnd
    rcases List.mem_append.mp hb with hb | hb
    · exact (List.nodup_append.mp hfront).2.2 b hb b (List.mem_singleton_self b) rfl
    · exact hback b (List.mem_append_right _ (List.mem_singleton_self b)) b hb rfl
  · change LeafAt t.order ((t.setNode a n).nodes a) es' ∧ ((t.setNode a n).nodes a).parent = _
    rw [hself]
    exact ⟨hleaf, hparent.trans hp⟩
  · rw [hleaves]
    refine h.chain.congr fun b _ => ?_
    rcases eq_or_ne b a with rfl | hb
    · rw [hself, hnext]
    · rw [nodes_setNode_of_ne hb]

/-- A leaf that overflows is split, and the tree lists the same entries with one more separator for
each node that was split. -/
theorem splitLeaf_spec [Inhabited K] [Inhabited V] {path : Path Nat K V D 0}
    (h : Shows t (plug path (leaf a (E₁ ++ e :: E₂))))
    (hpath : PathFilled t.order path) (hlen : (E₁ ++ e :: E₂).length = t.order + 1)
    (hmid : E₁.length = (t.order + 1) / 2) (horder : 0 < t.order) :
    ∃ t' D', ∃ T : BTree Nat K V D', t.splitLeaf a = some t' ∧
      Joined t t' path (leaf a E₁) e.1 (leaf t.registered (e :: E₂)) T := by
  obtain ⟨hat, hp⟩ := h.leafAt
  obtain ⟨haround, -⟩ := rep_plug.mp h.rep
  obtain ⟨n, hn⟩ : ∃ n, t.nodes a = n := ⟨_, rfl⟩
  rw [hn] at hat hp
  obtain ⟨x, hx⟩ : ∃ x, t.registered = x := ⟨_, rfl⟩
  have hnum : n.numKeys = t.order + 1 := hat.numKeys.trans hlen
  obtain ⟨keys, hkeys, hkeys', hkeysLen⟩ := copyFrom_prefix (P := E₁.map Prod.fst)
    (M := (e :: E₂).map Prod.fst) (D := (BPlusTreeNode.new (K := K) (V := V) true t.order).keys)
    (by simpa using hat.keys) (by simp at hlen; simp [BPlusTreeNode.new]; omega)
  obtain ⟨values, hvalues, hvalues', hvaluesLen⟩ := copyFrom_prefix (P := E₁.map Prod.snd)
    (M := (e :: E₂).map Prod.snd) (D := (BPlusTreeNode.new (K := K) (V := V) true t.order).values)
    (by simpa using hat.values) (by simp at hlen; simp [BPlusTreeNode.new]; omega)
  have hrest : (e :: E₂).length = n.numKeys - n.numKeys / 2 := by
    rw [List.length_append] at hlen
    omega
  rw [List.length_map, List.length_map, hmid, ← hnum, hrest] at hkeys hvalues
  obtain ⟨r, hr⟩ : ∃ r : BPlusTreeNode K V, r = ⟨true, n.numKeys - n.numKeys / 2, keys, values, [],
    n.next, n.parent⟩ := ⟨_, rfl⟩
  obtain ⟨t₁, ht₁⟩ : ∃ t₁, t₁ = (t.register r).setNode a
    { n with numKeys := n.numKeys / 2, next := some x } := ⟨_, rfl⟩
  have hsep : keys[0]? = some e.1 := getElem?_of_start (A := []) hkeys'
  have hnd := h.nodup
  have hreg := h.registered
  have hchain := h.chain
  rw [addrs, walk_plug] at hnd hreg
  rw [leaves, walk_plug] at hchain
  change (before addrVisit path ++ [a] ++ after addrVisit path).Nodup at hnd
  change ∀ b ∈ before addrVisit path ++ [a] ++ after addrVisit path, _ at hreg
  change Chain t.nodes (before leafVisit path ++ [a] ++ after leafVisit path) at hchain
  have hax : a ≠ x := hx ▸ (hreg a (by simp)).ne
  have ha₁ : t₁.nodes a = { n with numKeys := n.numKeys / 2, next := some x } :=
    ht₁ ▸ nodes_setNode_self ..
  have hx₁ : t₁.nodes x = r := by
    rw [ht₁, nodes_setNode_of_ne hax.symm, ← hx]
    exact nodes_register_self
  have hothers : ∀ b, b ≠ a → b ≠ x → t₁.nodes b = t.nodes b := by
    intro b hba hbx
    rw [ht₁, nodes_setNode_of_ne hba]
    exact nodes_register_of_ne (hx ▸ hbx)
  have haround' : ∀ b ∈ before addrVisit path ++ after addrVisit path, b ≠ a ∧ b ≠ x := by
    intro b hb
    obtain ⟨hfront, -, hback⟩ := List.nodup_append.mp hnd
    rcases List.mem_append.mp hb with hb | hb
    · refine ⟨?_, hx ▸ (hreg b (by simp [hb])).ne⟩
      exact (List.nodup_append.mp hfront).2.2 b hb a (List.mem_singleton_self a)
    · refine ⟨?_, hx ▸ (hreg b (by simp [hb])).ne⟩
      exact (hback a (List.mem_append_right _ (List.mem_singleton_self a)) b hb).symm
  have hperm : (before addrVisit path ++ ([a] ++ [x]) ++ after addrVisit path).Perm
      (x :: (before addrVisit path ++ [a] ++ after addrVisit path)) := by
    rw [← List.append_assoc, List.append_assoc _ [x]]
    exact List.perm_middle
  have hpending : Pending t₁ path (leaf a E₁) (leaf x (e :: E₂)) := by
    refine ⟨?_, ?_, ?_, ?_, ?_, ?_, ?_⟩
    · rw [ht₁]
      exact h.root.trans (congrArg some (addr_plug_congr path rfl))
    · rw [ht₁]
      refine haround.congr fun b hb => ?_
      rw [← ht₁]
      exact hothers b (haround' b hb).1 (haround' b hb).2
    · rw [ht₁]
      change LeafAt t.order ((((t.register r).setNode a _).nodes) a) E₁ ∧ _
      rw [nodes_setNode_self]
      refine ⟨⟨hat.leaf, ?_, ?_, ?_, hat.keysLength, hat.valuesLength⟩, ?_⟩
      · rw [hmid, hnum]
      · refine List.IsPrefix.trans ?_ hat.keys
        rw [List.map_append]
        exact List.prefix_append ..
      · refine List.IsPrefix.trans ?_ hat.values
        rw [List.map_append]
        exact List.prefix_append ..
      · change ((((t.register r).setNode a _).nodes) a).parent = _
        rw [nodes_setNode_self]
        exact hp
    · change LeafAt t₁.order (t₁.nodes x) (e :: E₂) ∧ (t₁.nodes x).parent = _
      have horder₁ : t₁.order = t.order := by rw [ht₁]; rfl
      rw [hx₁, hr, horder₁]
      refine ⟨⟨rfl, hrest.symm, hkeys', hvalues', ?_, ?_⟩, hp⟩
      · exact hkeysLen.trans (by simp [BPlusTreeNode.new])
      · exact hvaluesLen.trans (by simp [BPlusTreeNode.new])
    · refine hperm.nodup_iff.mpr (List.nodup_cons.mpr ⟨fun hmem => ?_, hnd⟩)
      exact (hx ▸ hreg x hmem).false
    · intro b hb
      have hreg₁ : t₁.registered = t.registered + 1 := by rw [ht₁]; rfl
      rw [hreg₁]
      rcases List.mem_cons.mp (hperm.mem_iff.mp hb) with rfl | hb
      · exact hx ▸ Nat.lt_succ_self _
      · exact Nat.lt_succ_of_lt (hreg b hb)
    · have hsub := leaves_around_subset path
      have hlist : before leafVisit path ++ [a] ++ after leafVisit path =
          before leafVisit path ++ a :: after leafVisit path := by simp
      have hlist' : before leafVisit path ++ ((leaf a E₁).leaves ++ (leaf x (e :: E₂)).leaves) ++
          after leafVisit path = before leafVisit path ++ a :: x :: after leafVisit path := by
        simp [leaves, walk, leafVisit, leaf]
      rw [hlist] at hchain
      rw [hlist']
      refine hchain.insert (by rw [ha₁]) (by rw [hx₁, hr, hn]) fun c hc => ?_
      obtain ⟨hca, hcx⟩ := haround' c (by
        rcases List.mem_append.mp hc with hc | hc
        · exact List.mem_append_left _ (hsub.1 hc)
        · exact List.mem_append_right _ (hsub.2 hc))
      rw [hothers c hca hcx]
  have hfuel : path.length < t₁.registered := by
    have hle := length_path_le path
    have hlen := h.length_le
    rw [addrs, walk_plug] at hlen
    simp only [List.length_append] at hlen
    rw [ht₁]
    change path.length < t.registered + 1
    omega
  have horder₁ : t₁.order = t.order := by rw [ht₁]; rfl
  have hcount : E₁.length + E₂.length = t.order := by
    rw [List.length_append, List.length_cons] at hlen
    omega
  have hfillL : Filled t₁.order false (leaf a E₁ : BTree Nat K V 0) := by
    change minKeys t₁.order 0 false ≤ E₁.length ∧ E₁.length ≤ t₁.order
    rw [horder₁]
    simp only [minKeys, Bool.false_eq_true, if_false, if_true]
    omega
  have hfillR : Filled t₁.order false (leaf x (e :: E₂) : BTree Nat K V 0) := by
    change minKeys t₁.order 0 false ≤ (e :: E₂).length ∧ (e :: E₂).length ≤ t₁.order
    rw [horder₁]
    simp only [minKeys, Bool.false_eq_true, if_false, if_true, List.length_cons]
    omega
  obtain ⟨t', D', T, hins, hjoined⟩ := insertIntoParent_spec hpending e.1 (horder₁ ▸ hpath) hfillL
    hfillR (horder₁ ▸ horder) hfuel
  refine ⟨t', D', T, ?_, hjoined.shown, ?_, hjoined.order.trans horder₁, hx ▸ hjoined.walk,
    horder₁ ▸ hjoined.filled⟩
  · have hins' : insertIntoParent t₁.registered t₁ a e.1 x = some t' := hins
    rw [splitLeaf]
    simp only [hn, hkeys, hvalues, hsep, hx, Option.bind_eq_bind, Option.bind_some]
    rw [ht₁, hr] at hins'
    exact hins'
  · rw [hjoined.sizeCount, ht₁]
    rfl

/-! ## Searching -/

variable [LinearOrder K] {m : SortedMap K V}

theorem findLeaf_spec (key : K) (path : Path Nat K V D d) {s : BTree Nat K V d}
    (h : Shows t (plug path s)) (ho : Ordered (plug path s)) (hloc : Located key path)
    (hfuel : d < fuel) : ∃ (path' : Path Nat K V D 0) (a : Nat) (es : List (K × V)),
      plug path s = plug path' (leaf a es) ∧ t.findLeaf key fuel s.addr = some a ∧
        Located key path' := by
  induction d generalizing fuel with
  | zero =>
    obtain ⟨fuel, rfl⟩ : ∃ k, fuel = k + 1 := ⟨fuel - 1, by omega⟩
    have hat : LeafAt t.order (t.nodes s.addr) s.2 := (rep_plug.mp h.rep).2.1
    exact ⟨path, s.addr, s.2, rfl, by simp [findLeaf, hat.leaf], hloc⟩
  | succ d ih =>
    obtain ⟨fuel, rfl⟩ : ∃ k, fuel = k + 1 := ⟨fuel - 1, by omega⟩
    obtain ⟨i, hi⟩ : ∃ i, i = ((InnerNode.keys s).takeWhile fun k => decide (¬ key < k)).length :=
      ⟨_, rfl⟩
    obtain ⟨l, c, r, hs, hl⟩ := InnerNode.exists_fork s (i := i)
      (hi ▸ (List.takeWhile_prefix _).length_le)
    obtain ⟨a, ha⟩ : ∃ a, InnerNode.addr s = a := ⟨_, rfl⟩
    rw [ha] at hs
    replace hs : s = fork a l c r := hs
    subst hs
    obtain ⟨⟨hat, -⟩, -⟩ := rep_fork.mp (rep_plug.mp h.rep).2
    have hkeys : InnerNode.keys (fork a l c r) = l.map Prod.snd ++ r.map Prod.fst :=
      InnerNode.keys_fork ..
    rw [hkeys, ← hl] at hi
    have hsplit := takeWhile_append_eq (hi.symm.trans (List.length_map ..).symm)
    have hfirst : firstIndex (fun k => decide (¬ key < k)) (t.nodes a).keys 0 (t.nodes a).numKeys =
        some l.length := by
      rw [hat.numKeys, firstIndex_prefix _ hat.keys, hi]
    have hchild : (t.nodes a).children[l.length]? = some (some c.addr) := by
      have hget := getElem?_of_start (A := (l.map (addr ∘ Prod.fst)).map some) (x := some c.addr)
        (B := (r.map (addr ∘ Prod.snd)).map some) (by simpa using hat.children)
      simpa using hget
    have hloc' : Located key (.step a l r path) := by
      refine hloc.step ho (fun p hp => ?_) fun p hp => ?_
      · simpa using hsplit.1 p.2 (List.mem_map_of_mem hp)
      · have hhead : p.1 ∈ (r.map Prod.fst).head? := by
          rw [List.head?_map]
          exact Option.mem_map_of_mem _ hp
        simpa using hsplit.2 p.1 hhead
    obtain ⟨path', b, es, hplug, hfind, hlocated⟩ := ih (.step a l r path) (s := c) h ho
      hloc' (Nat.lt_of_succ_lt_succ hfuel)
    refine ⟨path', b, es, hplug, ?_, hlocated⟩
    rw [addr_fork, findLeaf]
    simp only [hat.leaf, Bool.false_eq_true, if_false, hfirst, hchild, Option.bind_eq_bind,
      Option.bind_some]
    exact hfind

/-- The nodes form a B+ tree whose entries are those of the map. -/
structure Refines (t : BPlusTree K V) (T : BTree Nat K V D) (m : SortedMap K V) : Prop where
  shown : Shows t T
  filled : Filled t.order true T
  ordered : Ordered T
  entries : T.entries = m.entries
  size : t.sizeCount = m.size

/-- The state of a tree that stands for the map: without a root when it is empty. -/
def Represents (t : BPlusTree K V) (m : SortedMap K V) : Prop :=
  (t.root = none ∧ m.entries = []) ∨ ∃ D, ∃ T : BTree Nat K V D, Refines t T m

/-- The leaf of a key is at the end of the path, with the entries `A` before the key and `B` behind
it. -/
structure Place (m : SortedMap K V) (key : K) (path : Path Nat K V D 0) (A B : List (K × V)) :
    Prop where
  located : Located key path
  take : ((A ++ B).map Prod.fst).takeWhile (fun k => decide (k < key)) = A.map Prod.fst
  less : ∀ e ∈ A, e.1 < key
  notLess : ∀ e ∈ B.head?, key ≤ e.1
  sorted : (A ++ B).Pairwise fun e e' => e.1 < e'.1
  entries : m.entries = before entryVisit path ++ (A ++ B) ++ after entryVisit path

theorem Refines.locate {T : BTree Nat K V D} (h : Refines t T m) (key : K) :
    ∃ (path : Path Nat K V D 0) (a : Nat) (A B : List (K × V)) (root : Nat),
      T = plug path (leaf a (A ++ B)) ∧ t.root = some root ∧
      t.findLeaf key t.registered root = some a ∧ Place m key path A B := by
  have hfuel : D < t.registered := T.lt_length_addrs.trans_le h.shown.length_le
  obtain ⟨path, a, es, hplug, hfind, hloc⟩ := findLeaf_spec key .root h.shown h.ordered
    (located_root key) hfuel
  replace hplug : T = plug path (leaf a es) := hplug
  have hentries := h.entries
  rw [hplug, BTree.entries, walk_plug] at hentries
  replace hentries : before entryVisit path ++ es ++ after entryVisit path = m.entries := hentries
  have hsorted := m.sorted
  rw [← hentries] at hsorted
  have hes := (List.pairwise_append.mp (List.pairwise_append.mp hsorted).1).2.1
  have hcut := List.takeWhile_append_dropWhile (p := fun e : K × V => decide (e.1 < key)) (l := es)
  refine ⟨path, a, es.takeWhile fun e => decide (e.1 < key), es.dropWhile fun e =>
    decide (e.1 < key), _, ?_, h.shown.root, hfind, hloc, ?_, fun e he => ?_,
      fun e he => ?_, ?_, ?_⟩
  · rw [hcut]
    exact hplug
  · rw [hcut, List.takeWhile_map]
    rfl
  · simpa using List.mem_takeWhile_imp he
  · have hhead := List.head?_dropWhile_not (fun e : K × V => decide (e.1 < key)) es
    rw [he] at hhead
    simpa using hhead
  · rwa [hcut]
  · rw [hcut, hentries]

section
variable {path : Path Nat K V D 0} {A B : List (K × V)}

theorem Place.below (h : Place m key path A B) : ∀ e ∈ before entryVisit path ++ A, e.1 < key := by
  intro e he
  rcases List.mem_append.mp he with he | he
  · exact h.located.before _ ((mem_around_entries path e).1 he) e.2
  · exact h.less e he

theorem Place.above (h : Place m key path A B) : ∀ e ∈ after entryVisit path, key < e.1 :=
  fun e he => h.located.after _ ((mem_around_entries path e).2 he) e.2

theorem Place.firstIndex (h : Place m key path A B) {n : BPlusTreeNode K V}
    (hat : LeafAt o n (A ++ B)) :
    firstIndex (fun k => decide (k < key)) n.keys 0 n.numKeys = some A.length := by
  have hlive := firstIndex_prefix (fun k => decide (k < key)) hat.keys
  rwa [h.take, List.length_map, List.length_map, ← hat.numKeys] at hlive

theorem Place.found (h : Place m key path A B) :
    (∃ e B', B = e :: B' ∧ e.1 = key) ∨ ∀ e ∈ B, key < e.1 := by
  cases B with
  | nil => exact .inr (by simp)
  | cons e B =>
    rcases (h.notLess e rfl).eq_or_lt with heq | hlt
    · exact .inl ⟨e, B, rfl, heq.symm⟩
    · refine .inr fun e' he => ?_
      rcases List.mem_cons.mp he with rfl | he
      · exact hlt
      · exact hlt.trans ((List.pairwise_cons.mp (List.pairwise_append.mp h.sorted).2.1).1 e' he)

theorem Place.find?_some (h : Place m e.1 path A (e :: B)) : m.find? e.1 = some e.2 := by
  rw [SortedMap.find?_eq_some, h.entries]
  simp

theorem Place.find?_none (h : Place m key path A B) (hnew : ∀ e ∈ B, key < e.1) :
    m.find? key = none := by
  refine SortedMap.find?_eq_none.mpr fun e he => ?_
  rw [h.entries, ← List.append_assoc] at he
  rcases List.mem_append.mp he with he | he
  · rcases List.mem_append.mp he with he | he
    · exact (h.below e he).ne
    · exact (hnew e he).ne'
  · exact (h.above e he).ne'

theorem Place.firstEqual (h : Place m key path A B) {n : BPlusTreeNode K V}
    (hat : LeafAt o n (A ++ B)) :
    Slots.firstIndex (fun k => !(decide (¬ key < k) && decide (¬ k < key))) n.keys 0 n.numKeys =
      some (A.length + ((B.map Prod.fst).takeWhile fun k =>
        !(decide (¬ key < k) && decide (¬ k < key))).length) := by
  have hlive := firstIndex_prefix (fun k => !(decide (¬ key < k) && decide (¬ k < key))) hat.keys
  rw [List.length_map, ← hat.numKeys] at hlive
  have hA : ∀ k ∈ A.map Prod.fst, !(decide (¬ key < k) && decide (¬ k < key)) := by
    intro k hk
    obtain ⟨e, he, rfl⟩ := List.mem_map.mp hk
    simp [h.less e he]
  rwa [List.map_append, List.takeWhile_append_of_pos hA, List.length_append, List.length_map]
    at hlive

theorem Place.findInLeaf_some (h : Place m e.1 path A (e :: B)) {n : BPlusTreeNode K V}
    (hat : LeafAt o n (A ++ e :: B)) : findInLeaf n e.1 = some (some A.length) := by
  have hfirst := h.firstEqual hat
  rw [List.map_cons, List.takeWhile_cons_of_neg (by simp), List.length_nil, Nat.add_zero] at hfirst
  have hlt : A.length < n.numKeys := by
    rw [hat.numKeys]
    simp
  simp only [findInLeaf, hfirst, Option.bind_eq_bind, Option.bind_some, hlt, if_true]
  rfl

theorem Place.findInLeaf_none (h : Place m key path A B) (hnew : ∀ e ∈ B, key < e.1)
    {n : BPlusTreeNode K V} (hat : LeafAt o n (A ++ B)) : findInLeaf n key = some none := by
  have hB : ∀ k ∈ B.map Prod.fst, !(decide (¬ key < k) && decide (¬ k < key)) := by
    intro k hk
    obtain ⟨e, he, rfl⟩ := List.mem_map.mp hk
    simp [hnew e he]
  have hfirst := h.firstEqual hat
  rw [List.takeWhile_eq_self_iff.mpr hB, List.length_map, ← List.length_append, ← hat.numKeys]
    at hfirst
  simp only [findInLeaf, hfirst, Option.bind_eq_bind, Option.bind_some, Nat.lt_irrefl, if_false]
  rfl

end

/-! ## The operations -/

theorem Refines.overwrite {path : Path Nat K V D 0}
    (h : Refines t (plug path (leaf a (A ++ e :: B))) m) (hplace : Place m e.1 path A (e :: B))
    (value : V) : ∃ values, store (t.nodes a).values A.length value = some values ∧
      Refines (t.setNode a { t.nodes a with values }) (plug path (leaf a (A ++ (e.1, value) :: B)))
        (m.insert e.1 value) := by
  obtain ⟨hat, -⟩ := h.shown.leafAt
  obtain ⟨hpath, hfill⟩ := filled_plug.mp h.filled
  obtain ⟨-, hsortedB, -⟩ := List.pairwise_append.mp hplace.sorted
  obtain ⟨hafterB, -⟩ := List.pairwise_cons.mp hsortedB
  obtain ⟨values, hstore, hvalues, hvaluesLen⟩ := store_prefix (A := A.map Prod.snd) (x := e.2)
    (B := B.map Prod.snd) value (by simpa using hat.values)
  rw [List.length_map] at hstore
  have hkeys : (A ++ (e.1, value) :: B).map Prod.fst = (A ++ e :: B).map Prod.fst := by simp
  have hlen : (A ++ (e.1, value) :: B).length = (A ++ e :: B).length := by simp
  have hleaf : LeafAt t.order { t.nodes a with values } (A ++ (e.1, value) :: B) :=
    ⟨hat.leaf, hat.numKeys.trans hlen.symm, hkeys ▸ hat.keys, by simpa using hvalues,
      hat.keysLength, hvaluesLen.trans hat.valuesLength⟩
  have hinsert := SortedMap.insert_entries (v := value) (k := e.1)
    (A := before entryVisit path ++ A) (B := [e]) (C := B ++ after entryVisit path)
    (by rw [hplace.entries]; simp) hplace.below (fun e' he => List.mem_singleton.mp he ▸ rfl)
    (fun e' he => by
      rcases List.mem_append.mp he with he | he
      · exact hafterB e' he
      · exact hplace.above e' he)
  refine ⟨values, hstore, h.shown.setLeaf hleaf rfl rfl, filled_plug.mpr ⟨hpath, ?_⟩,
    hplace.located.insert h.ordered (fun e' he => ?_) ?_, ?_, ?_⟩
  · change minKeys t.order 0 path.isRoot ≤ (A ++ (e.1, value) :: B).length ∧
      (A ++ (e.1, value) :: B).length ≤ t.order
    rw [hlen]
    exact hfill
  · rcases List.mem_append.mp he with he | he
    · exact .inl (List.mem_append_left _ he)
    · rcases List.mem_cons.mp he with rfl | he
      · exact .inr rfl
      · exact .inl (List.mem_append_right _ (List.mem_cons_of_mem _ he))
  · have hsorted := List.pairwise_map (f := Prod.fst).mpr hplace.sorted
    rw [← hkeys] at hsorted
    exact List.pairwise_map.mp hsorted
  · rw [hinsert, BTree.entries, walk_plug]
    simp [walk, entryVisit, leaf]
  · rw [SortedMap.size, hinsert]
    refine h.size.trans ?_
    rw [SortedMap.size, hplace.entries]
    simp

omit [LinearOrder K] in
theorem Shows.setCount {T : BTree Nat K V D} (h : Shows t T) (c : Nat) :
    Shows { t with sizeCount := c } T := ⟨h.root, h.rep, h.nodup, h.registered, h.chain⟩

theorem Refines.insertNew [Inhabited K] [Inhabited V] {path : Path Nat K V D 0}
    (h : Refines t (plug path (leaf a (A ++ B))) m) (horder : 0 < t.order)
    (hplace : Place m key path A B) (hnew : ∀ e ∈ B, key < e.1) (value : V) :
    ∃ keys values t₁ t' D' T', insertAt (t.nodes a).keys (t.nodes a).numKeys A.length key =
      some keys ∧
      insertAt (t.nodes a).values (t.nodes a).numKeys A.length value = some values ∧
      t₁ = { t.setNode a { t.nodes a with keys, values, numKeys := (t.nodes a).numKeys + 1 } with
        sizeCount := t.sizeCount + 1 } ∧
      (if (t.nodes a).numKeys + 1 > t.order then t₁.splitLeaf a else some t₁) = some t' ∧
      t'.order = t.order ∧ Refines t' (D := D') T' (m.insert key value) := by
  obtain ⟨hat, -⟩ := h.shown.leafAt
  obtain ⟨hpath, hmin, hmax⟩ := filled_plug.mp h.filled
  change minKeys t.order 0 path.isRoot ≤ (A ++ B).length at hmin
  change (A ++ B).length ≤ t.order at hmax
  have hnum := hat.numKeys
  have hmap : ∀ {β : Type} (f : K × V → β), ((A ++ B).map f).length = (t.nodes a).numKeys := by
    intro β f
    rw [List.length_map, hnum]
  obtain ⟨keys, hkeys, hkeys', hkeysLen⟩ := insertAt_prefix (A := A.map Prod.fst)
    (B := B.map Prod.fst) key (by simpa using hat.keys) (by
      rw [← List.map_append, hmap, hat.keysLength]
      omega)
  obtain ⟨values, hvalues, hvalues', hvaluesLen⟩ := insertAt_prefix (A := A.map Prod.snd)
    (B := B.map Prod.snd) value (by simpa using hat.values) (by
      rw [← List.map_append, hmap, hat.valuesLength]
      omega)
  rw [← List.map_append, hmap, List.length_map] at hkeys hvalues
  have hleaf : LeafAt t.order { t.nodes a with
      keys := keys, values := values, numKeys := (t.nodes a).numKeys + 1 }
      (A ++ (key, value) :: B) :=
    ⟨hat.leaf, by simp [hnum]; omega, by simpa using hkeys', by simpa using hvalues',
      hkeysLen.trans hat.keysLength, hvaluesLen.trans hat.valuesLength⟩
  obtain ⟨t₁, ht₁⟩ : ∃ t₁, t₁ = { t.setNode a { t.nodes a with
    keys := keys, values := values, numKeys := (t.nodes a).numKeys + 1 } with
      sizeCount := t.sizeCount + 1 } := ⟨_, rfl⟩
  have hshown : Shows t₁ (plug path (leaf a (A ++ (key, value) :: B))) := by
    rw [ht₁]
    exact (h.shown.setLeaf hleaf rfl rfl).setCount _
  have hinsert := SortedMap.insert_entries (v := value) (k := key)
    (A := before entryVisit path ++ A) (B := []) (C := B ++ after entryVisit path)
    (by rw [hplace.entries]; simp) hplace.below (by simp)
    (fun e he => by
      rcases List.mem_append.mp he with he | he
      · exact hnew e he
      · exact hplace.above e he)
  have hsize : (m.insert key value).size = m.size + 1 := by
    rw [SortedMap.size, hinsert, SortedMap.size, hplace.entries]
    simp
    omega
  have hordered : Ordered (plug path (leaf a (A ++ (key, value) :: B))) := by
    refine hplace.located.insert h.ordered (fun e he => ?_) ?_
    · rcases List.mem_append.mp he with he | he
      · exact .inl (List.mem_append_left _ he)
      · rcases List.mem_cons.mp he with rfl | he
        · exact .inr rfl
        · exact .inl (List.mem_append_right _ he)
    · obtain ⟨hA, hB, hAB⟩ := List.pairwise_append.mp hplace.sorted
      refine List.pairwise_append.mpr ⟨hA, List.pairwise_cons.mpr ⟨hnew, hB⟩, fun x hx y hy => ?_⟩
      rcases List.mem_cons.mp hy with rfl | hy
      · exact hplace.less x hx
      · exact hAB x hx y hy
  have hlen : (A ++ (key, value) :: B).length = (t.nodes a).numKeys + 1 := by
    simp [hnum]
    omega
  have horder₁ : t₁.order = t.order := by rw [ht₁]; rfl
  have hcount₁ : t₁.sizeCount = t.sizeCount + 1 := by rw [ht₁]
  by_cases hfull : (t.nodes a).numKeys + 1 > t.order
  · obtain ⟨e₀, E₁, e, E₂, hes, hmid⟩ : ∃ e₀ E₁ e E₂, A ++ (key, value) :: B =
        (e₀ :: E₁) ++ e :: E₂ ∧ (e₀ :: E₁).length = (t.order + 1) / 2 := by
      have hlen' : (A ++ (key, value) :: B).length = t.order + 1 := by omega
      obtain ⟨es, hes⟩ : ∃ es, es = A ++ (key, value) :: B := ⟨_, rfl⟩
      rw [← hes] at hlen' ⊢
      have htake : (es.take ((t.order + 1) / 2)).length = (t.order + 1) / 2 := by
        rw [List.length_take]
        omega
      cases hfront : es.take ((t.order + 1) / 2) with
      | nil =>
        rw [hfront, List.length_nil] at htake
        omega
      | cons e₀ E₁ =>
        cases hback : es.drop ((t.order + 1) / 2) with
        | nil =>
          have hle := List.drop_eq_nil_iff.mp hback
          omega
        | cons e E₂ =>
          refine ⟨e₀, E₁, e, E₂, ?_, hfront ▸ htake⟩
          rw [← hfront, ← hback, List.take_append_drop]
    have hlen' : ((e₀ :: E₁) ++ e :: E₂).length = t₁.order + 1 := by
      rw [← hes, hlen, horder₁]
      omega
    obtain ⟨t', D', T', hsplit, hjoined⟩ := splitLeaf_spec (hes ▸ hshown) (horder₁ ▸ hpath) hlen'
      (horder₁ ▸ hmid) (horder₁ ▸ horder)
    refine ⟨keys, values, t₁, t', D', T', hkeys, hvalues, ht₁, ?_, hjoined.order.trans horder₁,
      hjoined.shown, ?_, ?_, ?_, ?_⟩
    · rw [if_pos hfull]
      exact hsplit
    · rw [hjoined.order]
      exact hjoined.filled
    · rw [Ordered, items, hjoined.walk itemVisit fun _ => rfl]
      rw [Ordered, items, walk_plug, hes] at hordered
      have hpair := pairwise_split hordered
      simpa [walk, itemVisit, leaf] using hpair
    · rw [BTree.entries, hjoined.walk entryVisit fun _ => rfl, hinsert]
      have hcat : walk entryVisit (leaf a (e₀ :: E₁) : BTree Nat K V 0) ++
          (entryVisit : Visit Nat K V (K × V)).sep e.1 ++
          walk entryVisit (leaf t₁.registered (e :: E₂)) = A ++ (key, value) :: B := by
        rw [hes]
        simp [walk, entryVisit, leaf]
      rw [hcat]
      simp
    · rw [hjoined.sizeCount, hcount₁, hsize, h.size]
  · refine ⟨keys, values, t₁, t₁, D, _, hkeys, hvalues, ht₁, if_neg hfull, horder₁, hshown,
      filled_plug.mpr ⟨horder₁ ▸ hpath, ?_⟩, hordered, ?_, ?_⟩
    · change minKeys t₁.order 0 path.isRoot ≤ (A ++ (key, value) :: B).length ∧
        (A ++ (key, value) :: B).length ≤ t₁.order
      rw [hlen, horder₁]
      omega
    · rw [hinsert, BTree.entries, walk_plug]
      simp [walk, entryVisit, leaf]
    · rw [hcount₁, hsize, h.size]

theorem Refines.put [Inhabited K] [Inhabited V] {T : BTree Nat K V D} (h : Refines t T m)
    (horder : 0 < t.order) (key : K) (value : V) :
    ∃ t' D' T', t.put key value = some t' ∧ t'.order = t.order ∧
      Refines t' (D := D') T' (m.insert key value) := by
  obtain ⟨path, a, A, B, root, rfl, hroot, hfind, hplace⟩ := h.locate key
  obtain ⟨hat, -⟩ := h.shown.leafAt
  have hpos := hplace.firstIndex hat
  rcases hplace.found with ⟨e, B, rfl, rfl⟩ | hnew
  · obtain ⟨values, hstore, hrefines⟩ := h.overwrite hplace value
    have hlt : A.length < (t.nodes a).numKeys := by
      rw [hat.numKeys]
      simp
    have hkey : (t.nodes a).keys[A.length]? = some e.1 := by
      have hget := getElem?_of_start (A := A.map Prod.fst) (B := B.map Prod.fst) (x := e.1)
        (by simpa using hat.keys)
      rwa [List.length_map] at hget
    refine ⟨_, D, _, ?_, ?_, hrefines⟩
    · simp [BPlusTree.put, hroot, hfind, hpos, hlt, hkey, hstore]
    · rfl
  · obtain ⟨keys, values, t₁, t', D', T', hkeys, hvalues, ht₁, hsplit, horder', hrefines⟩ :=
      h.insertNew horder hplace hnew value
    refine ⟨t', D', T', ?_, horder', hrefines⟩
    rw [ht₁] at hsplit
    by_cases hlt : A.length < (t.nodes a).numKeys
    · cases B with
      | nil =>
        rw [hat.numKeys, List.append_nil] at hlt
        exact absurd hlt (Nat.lt_irrefl _)
      | cons e B =>
        have hget := getElem?_of_start (A := A.map Prod.fst) (B := B.map Prod.fst) (x := e.1)
          (by simpa using hat.keys)
        rw [List.length_map] at hget
        have hkey : decide (¬ key < e.1) = false := by simp [hnew e List.mem_cons_self]
        simp only [BPlusTree.put, hroot, hfind, hpos, hlt, if_true, hget, Option.map_some, hkey,
          Bool.false_eq_true, if_false, hkeys, hvalues, Option.bind_eq_bind, Option.bind_some]
        exact hsplit
    · simp only [BPlusTree.put, hroot, hfind, hpos, hlt, if_false, Bool.false_eq_true, hkeys,
        hvalues, Option.bind_eq_bind, Option.bind_some]
      exact hsplit

theorem Refines.get [Inhabited V] {T : BTree Nat K V D} (h : Refines t T m) (key : K) :
    t.get key = some ((m.find? key).getD default) := by
  obtain ⟨path, a, A, B, root, rfl, hroot, hfind, hplace⟩ := h.locate key
  obtain ⟨hat, -⟩ := h.shown.leafAt
  rcases hplace.found with ⟨e, B, rfl, rfl⟩ | hnew
  · have hvalue : (t.nodes a).values[A.length]? = some e.2 := by
      have hget := getElem?_of_start (A := A.map Prod.snd) (B := B.map Prod.snd) (x := e.2)
        (by simpa using hat.values)
      rwa [List.length_map] at hget
    simp [BPlusTree.get, hroot, hfind, hplace.findInLeaf_some hat, hvalue, hplace.find?_some]
  · simp [BPlusTree.get, hroot, hfind, hplace.findInLeaf_none hnew hat, hplace.find?_none hnew]

theorem Refines.containsKey {T : BTree Nat K V D} (h : Refines t T m) (key : K) :
    t.containsKey key = some (m.contains key) := by
  obtain ⟨path, a, A, B, root, rfl, hroot, hfind, hplace⟩ := h.locate key
  obtain ⟨hat, -⟩ := h.shown.leafAt
  rcases hplace.found with ⟨e, B, rfl, rfl⟩ | hnew
  · simp [BPlusTree.containsKey, hroot, hfind, hplace.findInLeaf_some hat, SortedMap.contains,
      hplace.find?_some]
  · simp [BPlusTree.containsKey, hroot, hfind, hplace.findInLeaf_none hnew hat,
      SortedMap.contains, hplace.find?_none hnew]

end Cajeta.Collection.BPlusTree
