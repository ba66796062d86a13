import Mathlib.Data.List.Perm.Subperm
import Cajeta.Collection.RedBlackHeap

/-!
# `RedBlackTree` as an ordered map

The entries of the tree, read from left to right, are a `SortedMap`, and each operation is that of
the map.
-/

namespace Cajeta.Collection.RedBlackTree
open ColorTree
section Contents

variable {K V : Type} {t t' : RedBlackTree K V} {path : List (Frame Nat)} {T s : ColorTree Nat}

def entry (t : RedBlackTree K V) (a : Nat) : K × V := ((t.nodes a).key, (t.nodes a).value)

theorem SameEntries.entry (h : SameEntries t t') : t'.entry = t.entry :=
  funext fun a => Prod.ext (h.key a) (h.value a)

variable [LinearOrder K] {m : SortedMap K V}

def Ascending (t : RedBlackTree K V) (l : List Nat) : Prop :=
  l.Pairwise fun a b => (t.nodes a).key < (t.nodes b).key

structure Refines (t : RedBlackTree K V) (T : ColorTree Nat) (m : SortedMap K V) : Prop where
  shown : Shows t T
  ok : ∃ n, RedBlack T false n
  registered : ∀ a ∈ T.inorder, a < t.registered
  entries : T.inorder.map t.entry = m.entries
  size : t.sizeCount = m.size

theorem Refines.sorted (h : Refines t T m) : Ascending t T.inorder := by
  have hm := m.sorted
  rw [← h.entries, List.pairwise_map] at hm
  exact hm

theorem Refines.length_le (h : Refines t T m) : T.inorder.length ≤ t.registered := by
  have hsub : T.inorder ⊆ List.range t.registered := fun a ha =>
    List.mem_range.mpr (h.registered a ha)
  simpa using (List.subperm_of_subset h.shown.nodup hsub).length_le

theorem refines_new [Inhabited K] [Inhabited V] :
    Refines (new : RedBlackTree K V) .nil SortedMap.empty :=
  ⟨⟨rfl, trivial, List.nodup_nil⟩, ⟨0, .nil⟩, by simp [inorder], rfl, rfl⟩

/-! ## Searching -/

theorem Ascending.node {c : Bool} {l r : ColorTree Nat} (h : Ascending t (node c l a r).inorder) :
    Ascending t l.inorder ∧ Ascending t r.inorder ∧
      (∀ b ∈ l.inorder, (t.nodes b).key < (t.nodes a).key) ∧
      ∀ b ∈ r.inorder, (t.nodes a).key < (t.nodes b).key := by
  obtain ⟨hl, hr, hlr⟩ := List.pairwise_append.mp h
  obtain ⟨har, hr⟩ := List.pairwise_cons.mp hr
  exact ⟨hl, hr, fun b hb => hlr b hb a List.mem_cons_self, har⟩

theorem length_inorder_node (c : Bool) (l r : ColorTree Nat) (a : Nat) :
    (node c l a r).inorder.length = l.inorder.length + r.inorder.length + 1 := by
  simp only [inorder, List.length_append, List.length_cons]
  omega

/-- What the search for the place of a key finds in a subtree, when the nodes before the subtree
have smaller keys and those after it greater ones. -/
theorem findPlace_spec (key : K) (h : Shows t (plug path s)) (hs : s.top = some a)
    (hfuel : s.inorder.length ≤ fuel) (hbefore : ∀ b ∈ before path, (t.nodes b).key < key)
    (hafter : ∀ b ∈ after path, key < (t.nodes b).key) (hsorted : Ascending t s.inorder) :
    (∃ b, t.findPlace key fuel a = some (.holds b) ∧ b ∈ s.inorder ∧ (t.nodes b).key = key) ∨
    ∃ d c b u path', t.findPlace key fuel a = some (.free b d) ∧
      plug path s = plug (⟨d, c, b, u⟩ :: path') nil ∧
      (∀ x ∈ before (⟨d, c, b, u⟩ :: path'), (t.nodes x).key < key) ∧
      ∀ x ∈ after (⟨d, c, b, u⟩ :: path'), key < (t.nodes x).key := by
  induction s generalizing path a fuel with
  | nil => cases hs
  | node c l b r ihl ihr =>
    cases hs
    rw [length_inorder_node] at hfuel
    obtain ⟨fuel, rfl⟩ : ∃ k, fuel = k + 1 := ⟨fuel - 1, by omega⟩
    obtain ⟨hsl, hsr, hlb, hbr⟩ := hsorted.node
    obtain ⟨-, hl, hr, -⟩ := Shows.links (d := .left) h
    change (t.nodes b).left = l.top at hl
    change (t.nodes b).right = r.top at hr
    rcases lt_trichotomy key (t.nodes b).key with hlt | heq | hgt
    · -- The node and what is right of it come after the key.
      have hafter' : ∀ x ∈ after (⟨.left, c, b, r⟩ :: path), key < (t.nodes x).key := by
        intro x hx
        rcases List.mem_append.mp hx with hx | hx
        · rcases List.mem_cons.mp hx with rfl | hx
          · exact hlt
          · exact hlt.trans (hbr x hx)
        · exact hafter x hx
      have hbefore' : ∀ x ∈ before (⟨.left, c, b, r⟩ :: path), (t.nodes x).key < key := by
        simpa [before] using hbefore
      cases l with
      | nil =>
        refine .inr ⟨.left, c, b, r, path, ?_, rfl, hbefore', hafter'⟩
        simp [findPlace, hlt, hl, ColorTree.top]
      | node cl ll bl rl =>
        have hfind : t.findPlace key (fuel + 1) b = t.findPlace key fuel bl := by
          simp [findPlace, hlt, hl, ColorTree.top]
        rw [hfind]
        have hle : (ColorTree.node cl ll bl rl).inorder.length ≤ fuel := by omega
        rcases ihl (show Shows t (plug (⟨.left, c, b,
          r⟩ :: path) _) from h) rfl hle hbefore' hafter'
          hsl with ⟨x, hx, hmem, hkey⟩ | hfree
        · exact .inl ⟨x, hx, List.mem_append_left _ hmem, hkey⟩
        · exact .inr hfree
    · refine .inl ⟨b, ?_, by simp [inorder], heq.symm⟩
      simp [findPlace, heq]
    · have hbefore' : ∀ x ∈ before (⟨.right, c, b, l⟩ :: path), (t.nodes x).key < key := by
        intro x hx
        rcases List.mem_append.mp hx with hx | hx
        · exact hbefore x hx
        · rcases List.mem_append.mp hx with hx | hx
          · exact (hlb x hx).trans hgt
          · exact List.mem_singleton.mp hx ▸ hgt
      have hafter' : ∀ x ∈ after (⟨.right, c, b, l⟩ :: path), key < (t.nodes x).key := by
        simpa [after] using hafter
      cases r with
      | nil =>
        refine .inr ⟨.right, c, b, l, path, ?_, rfl, hbefore', hafter'⟩
        simp [findPlace, hgt, hgt.not_gt, hr, ColorTree.top]
      | node cr lr br rr =>
        have hfind : t.findPlace key (fuel + 1) b = t.findPlace key fuel br := by
          simp [findPlace, hgt, hgt.not_gt, hr, ColorTree.top]
        rw [hfind]
        have hle : (ColorTree.node cr lr br rr).inorder.length ≤ fuel := by omega
        rcases ihr (show Shows t (plug (⟨.right, c, b,
          l⟩ :: path) _) from h) rfl hle hbefore' hafter'
          hsr with ⟨x, hx, hmem, hkey⟩ | hfree
        · exact .inl ⟨x, hx, List.mem_append_right _ (List.mem_cons_of_mem _ hmem), hkey⟩
        · exact .inr hfree

/-- The search for a key in a subtree ends at the node that holds it, if there is one. -/
theorem find_spec (key : K) (h : Rep t.nodes p s) (hfuel : s.inorder.length ≤ fuel)
    (hsorted : Ascending t s.inorder) :
    ∃ o, t.find key fuel s.top = some o ∧
      ∀ a, o = some a ↔ a ∈ s.inorder ∧ (t.nodes a).key = key := by
  induction s generalizing p fuel with
  | nil =>
    refine ⟨none, by cases fuel <;> rfl, fun a => ?_⟩
    simp [inorder]
  | node c l b r ihl ihr =>
    rw [length_inorder_node] at hfuel
    obtain ⟨fuel, rfl⟩ : ∃ k, fuel = k + 1 := ⟨fuel - 1, by omega⟩
    obtain ⟨-, hl, hr, -, hrl, hrr⟩ := h
    obtain ⟨hsl, hsr, hlb, hbr⟩ := hsorted.node
    rcases lt_trichotomy key (t.nodes b).key with hlt | heq | hgt
    · obtain ⟨o, ho, hspec⟩ := ihl hrl (by omega : l.inorder.length ≤ fuel) hsl
      refine ⟨o, by simpa [find, ColorTree.top, hlt, hl] using ho, fun a => ?_⟩
      rw [hspec]
      refine and_congr_left fun ha => ⟨fun hmem => by simp [inorder, hmem], fun hmem => ?_⟩
      rcases List.mem_append.mp hmem with hmem | hmem
      · exact hmem
      · rcases List.mem_cons.mp hmem with rfl | hmem
        · exact absurd ha hlt.ne'
        · exact absurd ha (hlt.trans (hbr a hmem)).ne'
    · refine ⟨some b, by simp [find, ColorTree.top, heq], fun a => ?_⟩
      constructor
      · rintro ⟨⟩
        exact ⟨by simp [inorder], heq.symm⟩
      · rintro ⟨hmem, ha⟩
        rcases List.mem_append.mp hmem with hmem | hmem
        · exact absurd (ha.trans heq) (hlb a hmem).ne
        · rcases List.mem_cons.mp hmem with rfl | hmem
          · rfl
          · exact absurd (ha.trans heq) (hbr a hmem).ne'
    · obtain ⟨o, ho, hspec⟩ := ihr hrr (by omega : r.inorder.length ≤ fuel) hsr
      refine ⟨o, by simpa [find, ColorTree.top, hgt, hgt.not_gt, hr] using ho, fun a => ?_⟩
      rw [hspec]
      refine and_congr_left fun ha => ⟨fun hmem => by simp [inorder, hmem], fun hmem => ?_⟩
      rcases List.mem_append.mp hmem with hmem | hmem
      · exact absurd ha ((hlb a hmem).trans hgt).ne
      · rcases List.mem_cons.mp hmem with rfl | hmem
        · exact absurd ha hgt.ne
        · exact hmem

theorem Refines.find (h : Refines t T m) (key : K) :
    ∃ o, t.find key t.registered t.root = some o ∧
      o.map (fun a => (t.nodes a).value) = m.find? key := by
  obtain ⟨o, ho, hspec⟩ := find_spec key h.shown.rep h.length_le h.sorted
  refine ⟨o, h.shown.root ▸ ho, ?_⟩
  cases o with
  | none =>
    refine (SortedMap.find?_eq_none.mpr fun e he hkey => ?_).symm
    rw [← h.entries] at he
    obtain ⟨a, ha, rfl⟩ := List.mem_map.mp he
    cases (hspec a).mpr ⟨ha, hkey⟩
  | some a =>
    obtain ⟨ha, hkey⟩ := (hspec a).mp rfl
    refine (SortedMap.find?_eq_some.mpr ?_).symm
    rw [← h.entries, ← hkey]
    exact List.mem_map_of_mem ha

theorem Refines.get [Inhabited V] (h : Refines t T m) (key : K) :
    t.get key = some ((m.find? key).getD default) := by
  obtain ⟨o, ho, hvalue⟩ := h.find key
  rw [← hvalue]
  cases o <;> simp [RedBlackTree.get, ho]

theorem Refines.containsKey (h : Refines t T m) (key : K) :
    t.containsKey key = some (m.contains key) := by
  obtain ⟨o, ho, hvalue⟩ := h.find key
  rw [SortedMap.contains, ← hvalue]
  simp [RedBlackTree.containsKey, ho]

/-! ## Writing -/

omit [LinearOrder K] in
theorem Rep.setValue (h : Rep t.nodes p s) (a : Nat) (value : V) :
    Rep (t.setNode a { t.nodes a with value }).nodes p s := by
  have hlinks : ∀ b, ((t.setNode a { t.nodes a with value }).nodes b).parent = (t.nodes b).parent ∧
      ((t.setNode a { t.nodes a with value }).nodes b).left = (t.nodes b).left ∧
      ((t.setNode a { t.nodes a with value }).nodes b).right = (t.nodes b).right ∧
      ((t.setNode a { t.nodes a with value }).nodes b).red = (t.nodes b).red := by
    intro b
    rcases eq_or_ne b a with rfl | hb
    · simp
    · simp [nodes_setNode_of_ne hb]
  induction s generalizing p with
  | nil => trivial
  | node c l b r ihl ihr =>
    obtain ⟨hp, hl, hr, hc, hrl, hrr⟩ := h
    obtain ⟨hp', hl', hr', hc'⟩ := hlinks b
    exact ⟨hp'.trans hp, hl'.trans hl, hr'.trans hr, hc'.trans hc, ihl hrl, ihr hrr⟩

omit [LinearOrder K] in
theorem Shows.addLeaf (h : Shows t (plug (⟨d, c, b, u⟩ :: path) nil))
    (hz : z ∉ (plug (⟨d, c, b, u⟩ :: path) nil).inorder)
    (hleaf : t'.nodes z = { key, value, parent := some b })
    (hparent : t'.nodes b = (t.nodes b).withChild d (some z))
    (hothers : ∀ a, a ≠ z → a ≠ b → t'.nodes a = t.nodes a) (hroot : t'.root = t.root) :
    Shows t' (plug (⟨d, c, b, u⟩ :: path) (node true nil z nil)) := by
  have hin := inorder_plug (⟨d, c, b, u⟩ :: path) nil
  have hin' := inorder_plug (⟨d, c, b, u⟩ :: path) (node true nil z nil)
  simp only [inorder, List.append_nil, List.nil_append, List.append_assoc,
    List.singleton_append] at hin hin'
  have hperm := frame_perm ⟨d, c, b, u⟩ path
  have hnd := h.nodup
  rw [hin] at hnd hz
  have hb : b ∉ u.inorder ++ (before path ++ after path) :=
    (List.nodup_cons.mp (hperm.nodup_iff.mp hnd)).1
  have hold : ∀ a ∈ u.inorder ++ (before path ++ after path), t'.nodes a = t.nodes a := by
    intro a ha
    refine hothers a ?_ ?_
    · rintro rfl
      exact hz (hperm.mem_iff.mpr (List.mem_cons_of_mem _ ha))
    · rintro rfl
      exact hb ha
  obtain ⟨⟨hd, hf, hp, hc, hu, hrest⟩, -⟩ := rep_plug.mp ⟨h.root, h.rep⟩
  have haround : Around t'.nodes t'.root (some z) (⟨d, c, b, u⟩ :: path) := by
    refine ⟨?_, ?_, ?_, ?_, hu.congr fun a ha => hold a (List.mem_append_left _ ha),
      hroot ▸ hrest.congr fun a ha => hold a (List.mem_append_right _ ha)⟩
    · rw [hparent, RedBlackNode.child_withChild]
    · rw [hparent, RedBlackNode.child_withChild_flip, hf]
    · rw [hparent, RedBlackNode.parent_withChild, hp]
    · rw [hparent, RedBlackNode.red_withChild, hc]
  have hrep : Rep t'.nodes (parentOf (⟨d, c, b, u⟩ :: path)) (node true nil z nil) := by
    rw [Rep, hleaf]
    exact ⟨rfl, rfl, rfl, rfl, trivial, trivial⟩
  obtain ⟨hroot', hrep'⟩ := rep_plug.mpr ⟨haround, hrep⟩
  refine ⟨hroot', hrep', ?_⟩
  rw [hin']
  exact List.perm_middle.nodup_iff.mpr (List.nodup_cons.mpr ⟨hz, hnd⟩)

theorem Refines.overwrite (h : Refines t T m) (ha : a ∈ T.inorder) (hkey : (t.nodes a).key = key)
    (value : V) : Refines (t.setNode a { t.nodes a with value }) T (m.insert key value) := by
  obtain ⟨pre, post, hsplit⟩ := List.append_of_mem ha
  have hsorted := h.sorted
  have hnd := h.shown.nodup
  rw [Ascending, hsplit] at hsorted
  rw [hsplit] at hnd
  obtain ⟨-, hpost, hpre⟩ := List.pairwise_append.mp hsorted
  obtain ⟨-, hndpost, hdisj⟩ := List.nodup_append.mp hnd
  have hentries : m.entries = pre.map t.entry ++ [t.entry a] ++ post.map t.entry := by
    rw [← h.entries, hsplit]
    simp
  have hinsert := SortedMap.insert_entries (v := value) (k := key) hentries
    (fun e he => by
      obtain ⟨b, hb, rfl⟩ := List.mem_map.mp he
      exact hkey ▸ hpre b hb a List.mem_cons_self)
    (fun e he => List.mem_singleton.mp he ▸ hkey)
    (fun e he => by
      obtain ⟨b, hb, rfl⟩ := List.mem_map.mp he
      exact hkey ▸ (List.pairwise_cons.mp hpost).1 b hb)
  obtain ⟨t', ht'⟩ : ∃ t', t' = t.setNode a { t.nodes a with value } := ⟨_, rfl⟩
  have hold : ∀ b, b ≠ a → t'.entry b = t.entry b := by
    intro b hb
    rw [ht', entry, entry, nodes_setNode_of_ne hb]
  have hself : t'.entry a = (key, value) := by
    rw [ht', entry, nodes_setNode_self, ← hkey]
  refine ⟨⟨h.shown.root, h.shown.rep.setValue .., h.shown.nodup⟩, h.ok, h.registered, ?_, ?_⟩
  · rw [← ht', hinsert, hsplit, List.map_append, List.map_cons, hself,
      List.map_congr_left fun b hb => hold b fun heq => hdisj b hb a List.mem_cons_self heq,
      List.map_congr_left fun b hb => hold b fun heq => (List.nodup_cons.mp hndpost).1 (heq ▸ hb)]
  · refine h.size.trans ?_
    simp [SortedMap.size, hinsert, hentries]

theorem Refines.insertLeaf (h : Refines t (plug (⟨d, c, b, u⟩ :: path) nil) m)
    (hbefore : ∀ x ∈ before (⟨d, c, b, u⟩ :: path), (t.nodes x).key < key)
    (hafter : ∀ x ∈ after (⟨d, c, b, u⟩ :: path), key < (t.nodes x).key)
    (hleaf : t'.nodes t.registered = { key, value, parent := some b })
    (hparent : t'.nodes b = (t.nodes b).withChild d (some t.registered))
    (hothers : ∀ a, a ≠ t.registered → a ≠ b → t'.nodes a = t.nodes a) (hroot : t'.root = t.root)
    (hregistered : t'.registered = t.registered + 1) (hcount : t'.sizeCount = t.sizeCount + 1) :
    ∃ t'' T', t'.insertFixup t.registered = some t'' ∧ Refines t'' T' (m.insert key value) := by
  obtain ⟨path', hpath⟩ : ∃ path', path' = ⟨d, c, b, u⟩ :: path := ⟨_, rfl⟩
  have hfresh : t.registered ∉ (plug (⟨d, c, b, u⟩ :: path) nil).inorder := fun hmem =>
    (h.registered _ hmem).false
  have hshown := h.shown.addLeaf hfresh hleaf hparent hothers hroot
  obtain ⟨_, hok⟩ := h.ok
  obtain ⟨c', n, hnil, hfits⟩ := hok.of_plug
  have hlen := h.length_le
  have hentries := h.entries
  have hin := inorder_plug path' nil
  have hin' := inorder_plug path' (node true nil t.registered nil)
  simp only [inorder, List.append_nil, List.nil_append, List.append_assoc,
    List.singleton_append] at hin hin'
  rw [← hpath] at hfresh hshown hfits hbefore hafter hlen hentries
  have hbound := h.registered
  rw [← hpath, hin] at hbound
  have hbroken : Broken t' t.registered path' (node true nil t.registered nil) n := by
    cases hnil
    exact ⟨hshown, rfl, .red .nil .nil, hfits⟩
  have hfuel : path'.length ≤ t'.registered := by
    have hle := length_inorder_plug path' nil
    omega
  obtain ⟨t'', T', k, hfix, hsame, hT', hok', hinT⟩ := insertFixup_spec hbroken hfuel
  rw [hin'] at hinT
  rw [hin] at hentries hfresh
  have hself : t''.entry t.registered = (key, value) := by
    rw [hsame.entry, entry, hleaf]
  have hold : ∀ a ∈ before path' ++ after path', t''.entry a = t.entry a := by
    intro a ha
    rw [hsame.entry]
    have hne : a ≠ t.registered := by
      rintro rfl
      exact hfresh ha
    rcases eq_or_ne a b with rfl | hab
    · rw [entry, entry, hparent, RedBlackNode.key_withChild, RedBlackNode.value_withChild]
    · rw [entry, entry, hothers a hne hab]
  have hsplit : m.entries = (before path').map t.entry ++ [] ++ (after path').map t.entry := by
    rw [← hentries]
    simp
  have hinsert := SortedMap.insert_entries (v := value) (k := key) hsplit
    (fun e he => by
      obtain ⟨x, hx, rfl⟩ := List.mem_map.mp he
      exact hbefore x hx)
    (by simp)
    (fun e he => by
      obtain ⟨x, hx, rfl⟩ := List.mem_map.mp he
      exact hafter x hx)
  refine ⟨t'', T', hfix, hT', ⟨k, hok'⟩, fun a ha => ?_, ?_, ?_⟩
  · rw [hinT] at ha
    rw [hsame.registered, hregistered]
    rcases List.mem_append.mp ha with ha | ha
    · exact Nat.lt_succ_of_lt (hbound a (List.mem_append_left _ ha))
    · rcases List.mem_cons.mp ha with rfl | ha
      · exact Nat.lt_succ_self _
      · exact Nat.lt_succ_of_lt (hbound a (List.mem_append_right _ ha))
  · rw [hinT, hinsert, List.map_append, List.map_cons, hself,
      List.map_congr_left fun a ha => hold a (List.mem_append_left _ ha),
      List.map_congr_left fun a ha => hold a (List.mem_append_right _ ha)]
  · rw [hsame.sizeCount, hcount, h.size]
    simp [SortedMap.size, hinsert, hsplit]
    omega

theorem Refines.put (h : Refines t T m) (key : K) (value : V) :
    ∃ t' T', t.put key value = some t' ∧ Refines t' T' (m.insert key value) := by
  cases hT : T with
  | nil =>
    subst hT
    have hroot : t.root = none := h.shown.root
    have hm : m.entries = [] := h.entries.symm
    have hinsert := SortedMap.insert_entries (v := value) (k := key) (A := []) (B := [])
      (C := []) hm (by simp) (by simp) (by simp)
    refine ⟨_, .node false .nil t.registered .nil, by rw [RedBlackTree.put, hroot],
      ⟨rfl, ?_, by simp [inorder]⟩,
      ⟨1, .black .nil .nil⟩, ?_, ?_, ?_⟩
    · simp [Rep, RedBlackTree.setRed, register, ColorTree.top]
    · intro a ha
      obtain rfl : a = t.registered := by simpa [inorder] using ha
      exact Nat.lt_succ_self _
    · simp [inorder, hinsert, entry, register, RedBlackTree.setRed]
    · simp [SortedMap.size, hinsert]
  | node c l r u =>
    have hroot : t.root = some r := h.shown.root.trans (hT ▸ rfl)
    have hshown : Shows t (plug [] T) := h.shown
    rcases findPlace_spec key hshown (hT ▸ rfl : T.top = some r) h.length_le (by simp [before])
      (by simp [after]) h.sorted with ⟨a, hfind, ha, hkey⟩ | ⟨d, c', b, u', path, hfind, hplug,
        hbefore, hafter⟩
    · refine ⟨_, T, ?_, h.overwrite ha hkey value⟩
      simp [RedBlackTree.put, hroot, hfind]
    · have hplug' : T = plug (⟨d, c', b, u'⟩ :: path) nil := hplug
      have hb : b ∈ T.inorder := by
        rw [hplug', inorder_plug]
        cases d <;> simp [before, after]
      have hne : b ≠ t.registered := (h.registered b hb).ne
      obtain ⟨t₁, ht₁⟩ : ∃ t₁, t₁ = (t.register { key, value }).setParent t.registered (some b) :=
        ⟨_, rfl⟩
      have hnode : t₁.nodes t.registered = { key, value, parent := some b } := by
        rw [ht₁, nodes_setParent_self, register]
        simp
      have hsame : ∀ a, a ≠ t.registered → t₁.nodes a = t.nodes a := by
        intro a ha
        rw [ht₁, nodes_setParent_of_ne ha]
        exact nodes_setNode_of_ne ha
      have hleaf : (t₁.setChild d b (some t.registered)).nodes t.registered =
          { key, value, parent := some b } := (nodes_setChild_of_ne hne.symm).trans hnode
      have hparent : (t₁.setChild d b (some t.registered)).nodes b =
          (t.nodes b).withChild d (some t.registered) := by
        rw [nodes_setChild_self, hsame b hne]
      have hothers : ∀ a, a ≠ t.registered → a ≠ b →
          (t₁.setChild d b (some t.registered)).nodes a = t.nodes a := by
        intro a ha hab
        rw [nodes_setChild_of_ne hab, hsame a ha]
      obtain ⟨t₂, ht₂⟩ : ∃ t₂, t₂ = { t₁.setChild d b (some t.registered) with
        sizeCount := t.sizeCount + 1 } := ⟨_, rfl⟩
      have hnodes : t₂.nodes = (t₁.setChild d b (some t.registered)).nodes := by rw [ht₂]
      rw [← hnodes] at hleaf hparent hothers
      obtain ⟨t', T', hfix, hrefines⟩ := Refines.insertLeaf (hplug' ▸ h) hbefore hafter
        hleaf hparent hothers (by rw [ht₂, ht₁]; rfl) (by rw [ht₂, ht₁]; rfl) (by rw [ht₂])
      refine ⟨t', T', ?_, hrefines⟩
      simp only [RedBlackTree.put, hroot, hfind]
      rw [ht₂, ht₁] at hfix
      exact hfix

end Contents

/-!
## What `RedBlackTree` guarantees

The successor of a node is the next one from left to right, so that the traversal visits the keys in
ascending order; and what holds after every sequence of calls of `put`.
-/

variable {K V : Type} {t : RedBlackTree K V} {path : List (Frame Nat)} {T s : ColorTree Nat}

/-! ## Traversal -/

theorem inorder_eq_nil (h : s.top = none) : s.inorder = [] := by
  cases s with
  | nil => rfl
  | node => cases h

theorem outermost_left (h : Rep t.nodes p s) (hs : s.top = some a)
    (hfuel : s.inorder.length ≤ fuel) :
    ∃ b, t.outermost .left fuel a = some b ∧ s.inorder.head? = some b := by
  induction s generalizing p a fuel with
  | nil => cases hs
  | node c l x r ihl _ =>
    cases hs
    rw [length_inorder_node] at hfuel
    obtain ⟨fuel, rfl⟩ : ∃ k, fuel = k + 1 := ⟨fuel - 1, by omega⟩
    obtain ⟨-, hl, -, -, hrep, -⟩ := h
    cases htop : l.top with
    | none =>
      refine ⟨x, ?_, by simp [inorder, inorder_eq_nil htop]⟩
      simp [outermost, RedBlackNode.child, hl, htop]
    | some y =>
      obtain ⟨b, hb, hhead⟩ := ihl hrep htop (by omega : l.inorder.length ≤ fuel)
      refine ⟨b, ?_, by simp [inorder, List.head?_append, hhead]⟩
      simpa [outermost, RedBlackNode.child, hl, htop] using hb

theorem outermost_right (h : Rep t.nodes p s) (hs : s.top = some a)
    (hfuel : s.inorder.length ≤ fuel) :
    ∃ b, t.outermost .right fuel a = some b ∧ s.inorder.getLast? = some b := by
  induction s generalizing p a fuel with
  | nil => cases hs
  | node c l x r _ ihr =>
    cases hs
    rw [length_inorder_node] at hfuel
    obtain ⟨fuel, rfl⟩ : ∃ k, fuel = k + 1 := ⟨fuel - 1, by omega⟩
    obtain ⟨-, -, hr, -, -, hrep⟩ := h
    cases htop : r.top with
    | none =>
      refine ⟨x, ?_, by simp [inorder, inorder_eq_nil htop]⟩
      simp [outermost, RedBlackNode.child, hr, htop]
    | some y =>
      obtain ⟨b, hb, hlast⟩ := ihr hrep htop (by omega : r.inorder.length ≤ fuel)
      refine ⟨b, ?_, by simp [inorder, List.getLast?_append, List.getLast?_cons, hlast]⟩
      simpa [outermost, RedBlackNode.child, hr, htop] using hb

theorem climb_spec (h : Shows t (plug path s)) (hs : s.top = some a) (hfuel : path.length ≤ fuel) :
    t.climb fuel a (parentOf path) = some (after path).head? := by
  induction path generalizing s a fuel with
  | nil => cases fuel <;> rfl
  | cons f path ih =>
    obtain ⟨d, c, b, u⟩ := f
    obtain ⟨fuel, rfl⟩ : ∃ k, fuel = k + 1 := ⟨fuel - 1, by
      simp only [List.length_cons] at hfuel
      omega⟩
    rw [plug_frame] at h
    obtain ⟨hp, hd, hf, -⟩ := h.links
    cases d with
    | left =>
      have hne : (t.nodes b).right ≠ some a := fun hright => h.apart hs (hf.symm.trans hright)
      simp [climb, parentOf, after, hne]
    | right =>
      have heq : (t.nodes b).right = some a := hd.trans hs
      have hrest := ih h top_fork (Nat.le_of_succ_le_succ hfuel)
      rw [← hp] at hrest
      simpa [climb, parentOf, after, heq] using hrest

variable [LinearOrder K] {m : SortedMap K V}

theorem Refines.successor (h : Refines t T m) (hT : T.inorder = pre ++ a :: post) :
    t.successor a = some post.head? := by
  have ha : a ∈ T.inorder := by simp [hT]
  obtain ⟨path, c, l, r, hplug⟩ := exists_plug ha []
  replace hplug : T = plug path (node c l a r) := hplug
  have hshown := h.shown
  have hlen := h.length_le
  rw [hplug] at hshown hlen
  have hle := length_inorder_plug path (node c l a r)
  rw [length_inorder_node] at hle
  have hpost : post = r.inorder ++ after path := by
    have hsplit := hT
    rw [hplug, inorder_plug, inorder, List.append_assoc, List.append_assoc, List.cons_append,
      ← List.append_assoc] at hsplit
    have hnd := h.shown.nodup
    rw [hT] at hnd
    obtain ⟨-, hcons, hdisj⟩ := List.nodup_append.mp hnd
    refine ((List.append_cons_inj_of_notMem ?_ ?_).mp hsplit.symm).2.2
    · exact fun hmem => hdisj a hmem a List.mem_cons_self rfl
    · exact (List.nodup_cons.mp hcons).1
  obtain ⟨hp, -, hr, -⟩ := Shows.links (d := .left) hshown
  change (t.nodes a).right = r.top at hr
  cases htop : r.top with
  | none =>
    have hclimb := climb_spec hshown rfl (by omega : path.length ≤ t.registered)
    rw [← hp] at hclimb
    rw [RedBlackTree.successor, hr, htop, hpost, inorder_eq_nil htop]
    exact hclimb
  | some x =>
    obtain ⟨-, -, -, -, -, hrep⟩ := (rep_plug.mp ⟨hshown.root, hshown.rep⟩).2
    obtain ⟨b, hb, hhead⟩ := outermost_left hrep htop (by omega : r.inorder.length ≤ t.registered)
    rw [RedBlackTree.successor, hr, htop, hpost, List.head?_append, hhead]
    simp [hb]

theorem Refines.keysFrom (h : Refines t T m) (l : List Nat) (hT : T.inorder = l ++ rest)
    (hfuel : rest.length ≤ fuel) :
    t.keysFrom fuel rest.head? = some (rest.map fun a => (t.nodes a).key) := by
  induction rest generalizing l fuel with
  | nil => cases fuel <;> rfl
  | cons a rest ih =>
    obtain ⟨fuel, rfl⟩ : ∃ k, fuel = k + 1 := ⟨fuel - 1, by
      simp only [List.length_cons] at hfuel
      omega⟩
    have hrest := ih (l ++ [a]) (by simpa using hT) (Nat.le_of_succ_le_succ hfuel)
    simp [RedBlackTree.keysFrom, h.successor hT, hrest]

theorem Refines.minNode (h : Refines t T m) : t.minNode = some T.inorder.head? := by
  rw [RedBlackTree.minNode, h.shown.root]
  cases htop : T.top with
  | none => rw [inorder_eq_nil htop]; rfl
  | some a =>
    obtain ⟨b, hb, hhead⟩ := outermost_left h.shown.rep htop h.length_le
    simp [hb, hhead]

theorem Refines.keys (h : Refines t T m) : T.inorder.map (fun a => (t.nodes a).key) = m.keys := by
  rw [SortedMap.keys, ← h.entries, List.map_map]
  rfl

theorem Refines.keysInOrder (h : Refines t T m) : t.keysInOrder = some m.keys := by
  have hkeys := h.keysFrom [] rfl h.length_le
  rw [RedBlackTree.keysInOrder, h.minNode, ← h.keys]
  exact hkeys

theorem Refines.min [Inhabited K] (h : Refines t T m) :
    t.min = some (m.keys.head?.getD default) := by
  rw [RedBlackTree.min, h.minNode, ← h.keys, List.head?_map]
  cases T.inorder.head? <;> rfl

theorem Refines.max [Inhabited K] (h : Refines t T m) :
    t.max = some (m.keys.getLast?.getD default) := by
  rw [RedBlackTree.max, h.shown.root, ← h.keys, List.getLast?_map]
  cases htop : T.top with
  | none => rw [inorder_eq_nil htop]; rfl
  | some a =>
    obtain ⟨b, hb, hlast⟩ := outermost_right h.shown.rep htop h.length_le
    simp [hb, hlast]

theorem Refines.isEmpty (h : Refines t T m) : t.isEmpty = m.keys.isEmpty := by
  rw [RedBlackTree.isEmpty, h.shown.root, ← h.keys]
  cases T <;> simp [ColorTree.top, inorder]

/-- What holds of the nodes that are linked into the tree `T`, whose root is that of `t`. -/
structure Invariant (t : RedBlackTree K V) (T : ColorTree Nat) : Prop where
  shown : Shows t T
  /-- It is a binary search tree. -/
  ascending : Ascending t T.inorder
  black_root : ∀ a, t.root = some a → (t.nodes a).red = false
  red_child : ∀ a ∈ T.inorder, (t.nodes a).red = true → ∀ d b, (t.nodes a).child d = some b →
    (t.nodes b).red = false
  black_height : ∃ n, ∀ m ∈ T.leafDepths, m = n
  root_parent : ∀ a, t.root = some a → (t.nodes a).parent = none
  parent_child : ∀ a ∈ T.inorder, ∀ d b, (t.nodes a).child d = some b →
    b ∈ T.inorder ∧ (t.nodes b).parent = some a
  child_parent : ∀ b ∈ T.inorder, ∀ a, (t.nodes b).parent = some a →
    a ∈ T.inorder ∧ ∃ d, (t.nodes a).child d = some b

omit [LinearOrder K] in
theorem Shows.zoom (h : Shows t T) (ha : a ∈ T.inorder) (d : Dir) :
    ∃ path c s u, T = plug path (fork d c a s u) ∧ (t.nodes a).parent = parentOf path ∧
      (t.nodes a).child d = s.top ∧ (t.nodes a).red = c := by
  obtain ⟨path, c, l, r, hplug⟩ := exists_plug ha []
  obtain ⟨s, u, hfork⟩ : ∃ s u, node c l a r = fork d c a s u := by
    cases d
    · exact ⟨l, r, rfl⟩
    · exact ⟨r, l, rfl⟩
  replace hplug : T = plug path (fork d c a s u) := hfork ▸ hplug
  rw [hplug] at h
  obtain ⟨hp, hd, -, hc⟩ := h.links
  exact ⟨path, c, s, u, hplug, hp, hd, hc⟩

theorem Refines.invariant (h : Refines t T m) : Invariant t T := by
  obtain ⟨n, hok⟩ := h.ok
  have hchild : ∀ a ∈ T.inorder, ∀ d b, (t.nodes a).child d = some b → b ∈ T.inorder ∧
      (t.nodes b).parent = some a ∧ ((t.nodes a).red = true → (t.nodes b).red = false) := by
    intro a ha d b hb
    obtain ⟨path, c, s, u, hplug, -, hd, hc⟩ := h.shown.zoom ha d
    have hshown := h.shown
    rw [hplug] at hshown hok
    rw [hd] at hb
    cases s with
    | nil => cases hb
    | node c' l x r =>
      cases hb
      have hinner : Shows t (plug (⟨d, c, a, u⟩ :: path) (fork .left c' b l r)) := hshown
      obtain ⟨hp, -, -, hc'⟩ := hinner.links
      refine ⟨?_, hp, fun hred => ?_⟩
      · rw [hplug, inorder_plug]
        simp [mem_inorder_fork, inorder]
      · obtain ⟨c'', k, hsub, -⟩ := hok.of_plug
        obtain ⟨hs, -⟩ := hsub.of_fork.2.1 (hc.symm.trans hred)
        rw [hc']
        exact (RedBlack.of_fork (d := .left) hs).1.symm
  have hroot : ∀ a, t.root = some a → (t.nodes a).red = false ∧ (t.nodes a).parent = none := by
    intro a ha
    have hshown := h.shown
    rw [hshown.root] at ha
    cases hT : T with
    | nil =>
      rw [hT] at ha
      cases ha
    | node c l x r =>
      subst hT
      cases ha
      have hplug : Shows t (plug [] (fork .left c a l r)) := hshown
      obtain ⟨hp, -, -, hc⟩ := hplug.links
      exact ⟨hc.trans (RedBlack.of_fork (d := .left) hok).1.symm, hp⟩
  refine ⟨h.shown, h.sorted, fun a ha => (hroot a ha).1,
    fun a ha hred d b hb => (hchild a ha d b hb).2.2 hred, ⟨n, hok.leafDepths⟩,
    fun a ha => (hroot a ha).2,
    fun a ha d b hb => ⟨(hchild a ha d b hb).1, (hchild a ha d b hb).2.1⟩, ?_⟩
  intro b hb a hparent
  obtain ⟨path, c, s, u, hplug, hp, -, -⟩ := h.shown.zoom hb .left
  rw [hp] at hparent
  cases path with
  | nil => cases hparent
  | cons f path =>
    obtain ⟨d, c', x, u'⟩ := f
    cases hparent
    have hshown := h.shown
    rw [hplug, plug_frame] at hshown
    refine ⟨?_, d, hshown.links.2.1⟩
    rw [hplug, plug_frame, inorder_plug]
    simp [mem_inorder_fork]

theorem Refines.puts (h : Refines t T m) (entries : List (K × V)) :
    ∃ t' T', t.puts entries = some t' ∧
      Refines t' T' (entries.foldl (fun m e => m.insert e.1 e.2) m) := by
  induction entries generalizing t T m with
  | nil => exact ⟨t, T, rfl, h⟩
  | cons e entries ih =>
    obtain ⟨t₁, T₁, hput, h₁⟩ := h.put e.1 e.2
    obtain ⟨t', T', hputs, h'⟩ := ih h₁
    refine ⟨t', T', ?_, h'⟩
    rw [RedBlackTree.puts, List.foldlM_cons, hput]
    exact hputs

/-- After every sequence of calls of `put` the tree is a red-black tree, it answers as the map does
that the calls leave, and it is traversed in the order of the keys. -/
theorem puts_red_black [Inhabited K] [Inhabited V] (entries : List (K × V)) :
    ∃ (t : RedBlackTree K V) (T : ColorTree Nat), new.puts entries = some t ∧ Invariant t T ∧
      (∀ key, t.get key = some ((SortedMap.written entries key).getD default)) ∧
      (∀ key, t.containsKey key = some (SortedMap.written entries key).isSome) ∧
      ∃ keys, t.keysInOrder = some keys ∧ keys.Pairwise (· < ·) ∧
        (∀ k, k ∈ keys ↔ k ∈ entries.map Prod.fst) ∧ t.count = keys.length ∧
        t.isEmpty = keys.isEmpty ∧ t.min = some (keys.head?.getD default) ∧
        t.max = some (keys.getLast?.getD default) := by
  obtain ⟨t, T, hputs, h⟩ := refines_new.puts entries
  have hfind := SortedMap.find?_foldl_insert entries SortedMap.empty (fun _ => none) fun _ => rfl
  refine ⟨t, T, hputs, h.invariant, fun key => ?_, fun key => ?_, _, h.keysInOrder, ?_, fun k => ?_,
    ?_, h.isEmpty, h.min, h.max⟩
  · rw [h.get, hfind]
    rfl
  · rw [h.containsKey, SortedMap.contains, hfind]
    rfl
  · exact List.pairwise_map.mpr (SortedMap.sorted _)
  · rw [← SortedMap.isSome_written, ← SortedMap.isSome_find?, hfind]
    rfl
  · rw [count, h.size, SortedMap.size, SortedMap.keys, List.length_map]

end Cajeta.Collection.RedBlackTree
