import Cajeta.Collection.BPlusTree

/-!
# Splitting the nodes of `BPlusTree`

A split leaves two nodes where there was one, of which only the left one is linked to the parent.
Linking the right one either ends the insertion or splits the parent.
-/

namespace Cajeta.Collection.BPlusTree
open BTree Slots
variable {K V : Type} {t t' : BPlusTree K V} {d D : Nat} {L R N : BTree Nat K V d}

theorem Rep.parent {nodes : Nat → BPlusTreeNode K V} {T : BTree Nat K V d}
    (h : Rep n nodes p T) : (nodes T.addr).parent = p := by
  cases d with
  | zero => exact h.2
  | succ d => exact h.2.1

/-- The nodes form the tree with `L` in the hole, and another tree that belongs behind it. -/
structure Pending (t : BPlusTree K V) (path : Path Nat K V D d) (L R : BTree Nat K V d) : Prop where
  root : t.root = some (plug path L).addr
  around : Around t.order t.nodes path L.addr
  left : Rep t.order t.nodes path.parent L
  right : Rep t.order t.nodes path.parent R
  nodup : (before addrVisit path ++ (L.addrs ++ R.addrs) ++ after addrVisit path).Nodup
  registered : ∀ a ∈ before addrVisit path ++ (L.addrs ++ R.addrs) ++ after addrVisit path,
    a < t.registered
  chain : Chain t.nodes (before leafVisit path ++ (L.leaves ++ R.leaves) ++ after leafVisit path)

theorem linkChild_spec {up : Path Nat K V D (d + 1)} (h : Pending t (.step a l r up) L R)
    (hroom : l.length + r.length ≤ t.order) (sep : K) :
    ∃ t', t.linkChild a L.addr sep R.addr = some t' ∧ t'.root = t.root ∧
      t'.registered = t.registered ∧ t'.sizeCount = t.sizeCount ∧ t'.order = t.order ∧
      (∀ b, b ≠ a → t'.nodes b = t.nodes b) ∧ (∀ b, (t'.nodes b).next = (t.nodes b).next) ∧
      (t'.nodes a).parent = up.parent ∧
      InnerAt t.order (t'.nodes a) (l.map Prod.snd ++ ((sep, R) :: r).map Prod.fst)
        (l.map (addr ∘ Prod.fst) ++ L.addr :: ((sep, R) :: r).map (addr ∘ Prod.snd)) := by
  obtain ⟨⟨hat, hp, -, -⟩, -⟩ := h.around
  obtain ⟨hfront, -, -⟩ := List.nodup_append.mp h.nodup
  obtain ⟨-, -, hcross⟩ := List.nodup_append.mp hfront
  have hbefore : ∀ b ∈ before addrVisit (.step a l r up), b ≠ L.addr ∧ b ≠ R.addr := fun b hb =>
    ⟨hcross b hb _ (List.mem_append_left _ L.addr_mem),
      hcross b hb _ (List.mem_append_right _ R.addr_mem)⟩
  have hlL : ∀ c ∈ l.map (addr ∘ Prod.fst), c ≠ L.addr := by
    intro c hc
    obtain ⟨q, hq, rfl⟩ := List.mem_map.mp hc
    refine (hbefore _ ?_).1
    simp only [before, List.mem_append, List.mem_flatMap]
    exact .inr ⟨q, hq, .inl q.1.addr_mem⟩
  have haR : R.addr ≠ a := by
    refine Ne.symm (hbefore a ?_).2
    simp [before, addrVisit]
  obtain ⟨n, hn⟩ : ∃ n, t.nodes a = n := ⟨_, rfl⟩
  rw [hn] at hat hp
  have hnum : n.numKeys = (l.map Prod.snd ++ r.map Prod.fst).length := hat.numKeys
  have hfind : firstIndex (fun c => decide (c ≠ some L.addr)) n.children 0 (n.numKeys + 1) =
      some l.length := by
    have hlive := firstIndex_prefix (fun c => decide (c ≠ some L.addr)) hat.children
    have hlen : ((l.map (addr ∘ Prod.fst) ++ L.addr :: r.map (addr ∘ Prod.snd)).map some).length =
        n.numKeys + 1 := by
      simp [hnum]
      omega
    rw [hlen, List.map_append, List.takeWhile_append_of_pos, List.map_cons,
      List.takeWhile_cons_of_neg (by simp), List.append_nil, List.length_map, List.length_map]
      at hlive
    · exact hlive
    · intro c hc
      obtain ⟨b, hb, rfl⟩ := List.mem_map.mp hc
      simpa using hlL b hb
  have hlk : (l.map Prod.snd).length = l.length := List.length_map ..
  obtain ⟨keys, hkeys, hkeys', hkeysLen⟩ := insertAt_prefix sep hat.keys (by
    rw [hat.keysLength]
    simpa using Nat.lt_succ_of_le hroom)
  rw [← hnum, hlk] at hkeys
  obtain ⟨children, hchildren, hchildren', hchildrenLen⟩ := insertAt_prefix
    (A := (l.map (addr ∘ Prod.fst) ++ [L.addr]).map some)
    (B := (r.map (addr ∘ Prod.snd)).map some) (some R.addr) (by simpa using hat.children) (by
      rw [hat.childrenLength]
      simp
      omega)
  have hidx : ((l.map (addr ∘ Prod.fst) ++ [L.addr]).map some).length = l.length + 1 := by simp
  have hnumc : ((l.map (addr ∘ Prod.fst) ++ [L.addr]).map some ++
      (r.map (addr ∘ Prod.snd)).map some).length = n.numKeys + 1 := by
    simp [hnum]
    omega
  rw [hidx, hnumc] at hchildren
  obtain ⟨t₁, ht₁⟩ : ∃ t₁, t₁ = t.setNode a { n with keys, children, numKeys := n.numKeys + 1 } :=
    ⟨_, rfl⟩
  have ha : t₁.nodes a = { n with keys, children, numKeys := n.numKeys + 1 } :=
    ht₁ ▸ nodes_setNode_self ..
  have hothers : ∀ b, b ≠ a → t₁.nodes b = t.nodes b := fun b hb => ht₁ ▸ nodes_setNode_of_ne hb
  -- The right node has that parent already.
  have hR : ∀ b, (t₁.setParent R.addr (some a)).nodes b = t₁.nodes b := by
    intro b
    rcases eq_or_ne b R.addr with rfl | hb
    · have hparent : (t₁.nodes R.addr).parent = some a := by
        rw [hothers _ haR]
        exact h.right.parent
      rw [nodes_setParent_self, ← hparent]
    · exact nodes_setParent_of_ne hb
  refine ⟨t₁.setParent R.addr (some a), ?_, by rw [ht₁]; rfl, by rw [ht₁]; rfl, by rw [ht₁]; rfl,
    by rw [ht₁]; rfl, fun b hb => (hR b).trans (hothers b hb), fun b => ?_, ?_, ?_⟩
  · simp only [linkChild, hn, hfind, hkeys, hchildren, Option.bind_eq_bind, Option.bind_some, ht₁]
    rfl
  · rw [hR]
    rcases eq_or_ne b a with rfl | hb
    · rw [ha, hn]
    · rw [hothers b hb]
  · rw [hR, ha]
    exact hp
  · rw [hR, ha]
    refine ⟨hat.leaf, ?_, hkeys', by simpa using hchildren', hkeysLen.trans hat.keysLength,
      hchildrenLen.trans hat.childrenLength⟩
    simp [hnum]
    omega

/-- What a split of an inner node leaves: two nodes with the key between them, which list what the
node did. -/
structure Halved (t t' : BPlusTree K V) (N : BTree Nat K V (d + 1)) (p : Option Nat)
    (L : BTree Nat K V (d + 1)) (k : K) (R : BTree Nat K V (d + 1)) : Prop where
  root : t'.root = t.root
  registered : t'.registered = t.registered + 1
  sizeCount : t'.sizeCount = t.sizeCount
  order : t'.order = t.order
  others : ∀ b, b ∉ N.addrs → b ≠ t.registered → t'.nodes b = t.nodes b
  next : ∀ b, b ≠ t.registered → (t'.nodes b).next = (t.nodes b).next
  addrL : L.addr = N.addr
  addrR : R.addr = t.registered
  left : Rep t.order t'.nodes p L
  right : Rep t.order t'.nodes p R
  walk : ∀ {β : Type} (v : Visit Nat K V β), (∀ a, v.node a = []) →
    walk v L ++ v.sep k ++ walk v R = walk v N
  addrs : (L.addrs ++ R.addrs).Perm (t.registered :: N.addrs)
  filledL : Filled t.order false L
  filledR : Filled t.order false R

theorem halve_spec [Inhabited K] [Inhabited V] {N : BTree Nat K V (d + 1)}
    (hrep : Rep t.order t.nodes p N) (hnd : N.addrs.Nodup) (hreg : ∀ b ∈ N.addrs, b < t.registered)
    (hlen : (InnerNode.keys N).length = t.order + 1)
    (hfilled : ∀ c ∈ InnerNode.children N, Filled t.order false c) (horder : 0 < t.order) :
    ∃ t' L k R, t.halve N.addr = some (t', k) ∧ Halved t t' N p L k R := by
  obtain ⟨l, c, k, u, r, hN, hl⟩ := InnerNode.exists_fork_key N
    (i := (t.order + 1) / 2) (by omega)
  obtain ⟨a, ha⟩ : ∃ a, N.addr = a := ⟨_, rfl⟩
  replace hN : N = fork a l c ((k, u) :: r) := ha ▸ hN
  subst hN
  clear ha
  obtain ⟨⟨hat, hp, hrl, hrr⟩, hrc⟩ := rep_fork.mp hrep
  rw [fork, InnerNode.length_keys_fork, List.length_cons] at hlen
  obtain ⟨n, hn⟩ : ∃ n, t.nodes a = n := ⟨_, rfl⟩
  rw [hn] at hat hp
  obtain ⟨x, hx⟩ : ∃ x, t.registered = x := ⟨_, rfl⟩
  have hnum : n.numKeys = t.order + 1 := by
    rw [hat.numKeys]
    simp
    omega
  have hpromote : n.keys[n.numKeys / 2]? = some k := by
    have hget := getElem?_of_start (A := l.map Prod.snd) (B := r.map Prod.fst) (x := k)
      (by simpa using hat.keys)
    rwa [List.length_map, hl, ← hnum] at hget
  obtain ⟨keys, hkeys, hkeys', hkeysLen⟩ := copyFrom_prefix (P := l.map Prod.snd ++ [k])
    (M := r.map Prod.fst) (D := (BPlusTreeNode.new (K := K) (V := V) false t.order).keys)
    (by simpa using hat.keys) (by simp [BPlusTreeNode.new]; omega)
  obtain ⟨children, hchildren, hchildren', hchildrenLen⟩ := copyFrom_prefix
    (P := (l.map (addr ∘ Prod.fst) ++ [c.addr]).map some)
    (M := (u.addr :: r.map (addr ∘ Prod.snd)).map some)
    (D := (BPlusTreeNode.new (K := K) (V := V) false t.order).children)
    (by simpa using hat.children) (by simp [BPlusTreeNode.new]; omega)
  have hkP : (l.map Prod.snd ++ [k]).length = n.numKeys / 2 + 1 := by simp [hl, hnum]
  have hkM : (r.map Prod.fst).length = n.numKeys - n.numKeys / 2 - 1 := by
    simp [hnum]
    omega
  have hcP : ((l.map (addr ∘ Prod.fst) ++ [c.addr]).map some).length = n.numKeys / 2 + 1 := by
    simp [hl, hnum]
  have hcM : ((u.addr :: r.map (addr ∘ Prod.snd)).map some).length =
      n.numKeys - n.numKeys / 2 := by
    simp [hnum]
    omega
  rw [hkP, hkM] at hkeys
  rw [hcP, hcM] at hchildren
  have htake : children.take (n.numKeys - n.numKeys / 2) =
      (u.addr :: r.map (addr ∘ Prod.snd)).map some := by
    rw [← hcM]
    exact (List.prefix_iff_eq_take.mp hchildren').symm
  obtain ⟨t₁, ht₁⟩ : ∃ t₁, t₁ = t.register { BPlusTreeNode.new (K := K) (V := V) false t.order with
    keys, children, numKeys := n.numKeys - n.numKeys / 2 - 1, parent := n.parent } := ⟨_, rfl⟩
  obtain ⟨t₂, hadopt, hroot, hreg₂, hsize, horder₂, hnodes⟩ :=
    adopt_spec t₁ x (u.addr :: r.map (addr ∘ Prod.snd))
  obtain ⟨t₃, ht₃⟩ : ∃ t₃, t₃ = t₂.setNode a { t₂.nodes a with numKeys :=
    n.numKeys / 2 } := ⟨_, rfl⟩
  refine ⟨t₃, fork a l c [], k, fork x [] u r, ?_, ?_⟩
  · rw [addr_fork]
    simp only [halve, hn, hpromote, hkeys, hchildren, hx, htake, ← ht₁, hadopt, ← ht₃,
      Option.bind_eq_bind, Option.bind_some]
    rfl
  rw [addrs_fork] at hnd hreg
  obtain ⟨hndA, hndB, hAB⟩ := List.nodup_append.mp hnd
  have hkid : ∀ b ∈ u.addr :: r.map (addr ∘ Prod.snd), ∃ q ∈ (k, u) :: r, b = q.2.addr := by
    intro b hb
    rcases List.mem_cons.mp hb with rfl | hb
    · exact ⟨_, List.mem_cons_self, rfl⟩
    · obtain ⟨q, hq, rfl⟩ := List.mem_map.mp hb
      exact ⟨q, List.mem_cons_of_mem _ hq, rfl⟩
  have hmoved : ∀ q ∈ (k, u) :: r, q.2.addr ∈ u.addr :: r.map (addr ∘ Prod.snd) := by
    intro q hq
    rcases List.mem_cons.mp hq with rfl | hq
    · exact List.mem_cons_self
    · exact List.mem_cons_of_mem _ (List.mem_map_of_mem hq)
  have hkidB : ∀ b ∈ u.addr :: r.map (addr ∘ Prod.snd),
      b ∈ ((k, u) :: r).flatMap fun p => p.2.addrs := by
    intro b hb
    obtain ⟨q, hq, rfl⟩ := hkid b hb
    exact List.mem_flatMap.mpr ⟨q, hq, q.2.addr_mem⟩
  have hold₁ : ∀ b, b ≠ x → t₁.nodes b = t.nodes b := by
    intro b hb
    rw [ht₁]
    exact nodes_register_of_ne (hx ▸ hb)
  have hfresh : ∀ b ∈ a :: ((l.flatMap fun p => p.1.addrs) ++ c.addrs) ++
      ((k, u) :: r).flatMap fun p => p.2.addrs, b ≠ x := fun b hb => hx ▸ (hreg b hb).ne
  have hax : a ≠ x := hfresh a (by simp)
  have ha₃ : t₃.nodes a = { n with numKeys := n.numKeys / 2 } := by
    have hnot : a ∉ u.addr :: r.map (addr ∘ Prod.snd) := fun hmem =>
      hAB a List.mem_cons_self a (hkidB a hmem) rfl
    rw [ht₃, nodes_setNode_self, hnodes, if_neg hnot, hold₁ a hax, hn]
  have hx₃ : t₃.nodes x = { BPlusTreeNode.new (K := K) (V := V) false t.order with
      keys, children, numKeys := n.numKeys - n.numKeys / 2 - 1, parent := n.parent } := by
    have hnot : x ∉ u.addr :: r.map (addr ∘ Prod.snd) := fun hmem =>
      hfresh x (List.mem_append_right _ (hkidB x hmem)) rfl
    rw [ht₃, nodes_setNode_of_ne hax.symm, hnodes, if_neg hnot, ht₁, ← hx]
    exact nodes_register_self
  have hstay : ∀ b, b ≠ a → b ≠ x → b ∉ u.addr :: r.map (addr ∘ Prod.snd) →
      t₃.nodes b = t.nodes b := by
    intro b hba hbx hb
    rw [ht₃, nodes_setNode_of_ne hba, hnodes, if_neg hb, hold₁ b hbx]
  have hmove : ∀ b ∈ u.addr :: r.map (addr ∘ Prod.snd),
      t₃.nodes b = { t.nodes b with parent := some x } := by
    intro b hb
    have hba : b ≠ a := fun heq => hAB a List.mem_cons_self b (hkidB b hb) heq.symm
    rw [ht₃, nodes_setNode_of_ne hba, hnodes, if_pos hb,
      hold₁ b (hfresh b (List.mem_append_right _ (hkidB b hb)))]
  have hleft : ∀ b ∈ (l.flatMap fun p => p.1.addrs) ++ c.addrs, t₃.nodes b = t.nodes b := by
    intro b hb
    refine hstay b ?_ (hfresh b (List.mem_append_left _ (List.mem_cons_of_mem _ hb))) fun hmem =>
      hAB b (List.mem_cons_of_mem _ hb) b (hkidB b hmem) rfl
    rintro rfl
    exact (List.nodup_cons.mp hndA).1 hb
  have hmovedRep : ∀ q ∈ (k, u) :: r, Rep t.order t₃.nodes (some x) q.2 := by
    intro q hq
    have hq' : Rep t.order t.nodes (some a) q.2 := hrr q hq
    obtain ⟨hndq, hpair⟩ := List.pairwise_flatMap.mp hndB
    have : Std.Symm fun p q : K × BTree Nat K V d => ∀ y ∈ p.2.addrs, ∀ z ∈ q.2.addrs, y ≠ z :=
      ⟨fun _ _ h y hy z hz => (h z hz y hy).symm⟩
    refine hq'.reparent (hndq q hq) (hmove _ (hmoved q hq)) fun b hb hne => ?_
    have hbB : b ∈ ((k, u) :: r).flatMap fun p => p.2.addrs := List.mem_flatMap.mpr ⟨q, hq, hb⟩
    refine hstay b (fun heq => hAB a List.mem_cons_self b hbB heq.symm)
      (hfresh b (List.mem_append_right _ hbB)) fun hmem => ?_
    obtain ⟨q', hq'', rfl⟩ := hkid b hmem
    have hdiff : q ≠ q' := fun heq => hne (heq ▸ rfl)
    exact hpair.forall hq hq'' hdiff _ hb _ q'.2.addr_mem rfl
  have hatL : InnerAt t.order (t₃.nodes a) (l.map Prod.snd)
      (l.map (addr ∘ Prod.fst) ++ [c.addr]) := by
    rw [ha₃]
    refine ⟨hat.leaf, by simp [hl, hnum], (List.prefix_append ..).trans hat.keys, ?_,
      hat.keysLength, hat.childrenLength⟩
    refine List.IsPrefix.trans ?_ hat.children
    exact ⟨(u.addr :: r.map (addr ∘ Prod.snd)).map some, by simp⟩
  have hatR : InnerAt t.order (t₃.nodes x) (r.map Prod.fst)
      (u.addr :: r.map (addr ∘ Prod.snd)) := by
    rw [hx₃]
    refine ⟨by simp [BPlusTreeNode.new], hkM.symm, hkeys', hchildren', ?_, ?_⟩
    · exact hkeysLen.trans (by simp [BPlusTreeNode.new])
    · exact hchildrenLen.trans (by simp [BPlusTreeNode.new])
  rw [fork, InnerNode.children_fork] at hfilled
  refine ⟨?_, ?_, ?_, ?_, fun b hb hbx => ?_, fun b hbx => ?_, ?_, ?_, ?_, ?_, fun v hv => ?_, ?_,
    ?_, ?_⟩
  · rw [ht₃]
    exact hroot.trans (by rw [ht₁]; rfl)
  · rw [ht₃]
    exact hreg₂.trans (by rw [ht₁]; rfl)
  · rw [ht₃]
    exact hsize.trans (by rw [ht₁]; rfl)
  · rw [ht₃]
    exact horder₂.trans (by rw [ht₁]; rfl)
  · rw [addrs_fork] at hb
    refine hstay b (fun heq => hb (heq ▸ by simp)) (hx ▸ hbx) fun hmem => ?_
    exact hb (List.mem_append_right _ (hkidB b hmem))
  · rw [hx] at hbx
    rcases eq_or_ne b a with rfl | hba
    · rw [ha₃, hn]
    · by_cases hmem : b ∈ u.addr :: r.map (addr ∘ Prod.snd)
      · rw [hmove b hmem]
      · rw [hstay b hba hbx hmem]
  · rw [addr_fork, addr_fork]
  · rw [addr_fork, hx]
  · refine rep_fork.mpr ⟨⟨by simpa using hatL, ?_, fun q hq => ?_, by simp⟩, ?_⟩
    · rw [ha₃]
      exact hp
    · refine (hrl q hq).congr fun b hb => hleft b ?_
      exact List.mem_append_left _ (List.mem_flatMap.mpr ⟨q, hq, hb⟩)
    · exact hrc.congr fun b hb => hleft b (List.mem_append_right _ hb)
  · refine rep_fork.mpr ⟨⟨by simpa using hatR, ?_, by simp, fun q hq => ?_⟩, ?_⟩
    · rw [hx₃]
      exact hp
    · exact hmovedRep q (List.mem_cons_of_mem _ hq)
    · exact hmovedRep _ List.mem_cons_self
  · rw [walk_fork, walk_fork, walk_fork, hv, hv]
    simp
  · rw [addrs_fork, addrs_fork, addrs_fork, hx]
    simp only [List.flatMap_nil, List.append_nil, List.nil_append, List.flatMap_cons,
      List.cons_append]
    exact (List.perm_middle.cons a).trans (.swap ..)
  · refine filled_fork.mpr ⟨?_, ?_, fun q hq => ?_, ?_, by simp⟩
    · simp [minKeys, hl]
      omega
    · simp [hl]
      omega
    · exact hfilled _ (List.mem_append_left _ (List.mem_map_of_mem hq))
    · exact hfilled c (by simp)
  · refine filled_fork.mpr ⟨?_, ?_, by simp, ?_, fun q hq => ?_⟩
    · simp [minKeys]
      omega
    · simp
      omega
    · exact hfilled u (by simp)
    · refine hfilled _ (List.mem_append_right _ ?_)
      exact List.mem_cons_of_mem _ (List.mem_map_of_mem (List.mem_cons_of_mem _ hq))

/-- What an insertion leaves: a tree that lists the two nodes with the separator between them. -/
structure Joined (t t' : BPlusTree K V) (path : Path Nat K V D d) (L : BTree Nat K V d) (sep : K)
    (R : BTree Nat K V d) (T : BTree Nat K V D') : Prop where
  shown : Shows t' T
  sizeCount : t'.sizeCount = t.sizeCount
  order : t'.order = t.order
  walk : ∀ {β : Type} (v : Visit Nat K V β), (∀ a, v.node a = []) →
    walk v T = before v path ++ (walk v L ++ v.sep sep ++ walk v R) ++ after v path
  filled : Filled t.order true T

variable [Inhabited K] [Inhabited V]

theorem newRoot_spec (h : Pending t (.root : Path Nat K V d d) L R) (sep : K)
    (hL : Filled t.order false L) (hR : Filled t.order false R) (horder : 0 < t.order) :
    ∃ t', ∃ T : BTree Nat K V (d + 1), t.newRoot L.addr sep R.addr = some t' ∧
      Joined t t' (.root : Path Nat K V d d) L sep R T := by
  have hnd := h.nodup
  have hreg := h.registered
  have hchain := h.chain
  simp only [before, after, List.nil_append, List.append_nil] at hnd hreg hchain
  obtain ⟨hndL, hndR, hLR⟩ := List.nodup_append.mp hnd
  have hne : L.addr ≠ R.addr := hLR _ L.addr_mem _ R.addr_mem
  obtain ⟨x, hx⟩ : ∃ x, t.registered = x := ⟨_, rfl⟩
  have hfresh : ∀ b ∈ L.addrs ++ R.addrs, b ≠ x := fun b hb => hx ▸ (hreg b hb).ne
  have hLx : L.addr ≠ x := hfresh _ (List.mem_append_left _ L.addr_mem)
  have hRx : R.addr ≠ x := hfresh _ (List.mem_append_right _ R.addr_mem)
  obtain ⟨m, hm⟩ : ∃ m : BPlusTreeNode K V, m = ⟨false, 1,
    sep :: List.replicate t.order default, [],
    some L.addr :: some R.addr :: List.replicate t.order none, none, none⟩ := ⟨_, rfl⟩
  obtain ⟨t₁, ht₁⟩ : ∃ t₁, t₁ = ((t.register m).setParent L.addr (some x)).setParent R.addr
    (some x) := ⟨_, rfl⟩
  have hx₁ : t₁.nodes x = m := by
    rw [ht₁, nodes_setParent_of_ne hRx.symm, nodes_setParent_of_ne hLx.symm, ← hx]
    exact nodes_register_self
  have hL₁ : t₁.nodes L.addr = { t.nodes L.addr with parent := some x } := by
    rw [ht₁, nodes_setParent_of_ne hne, nodes_setParent_self,
      nodes_register_of_ne (hx ▸ hLx)]
  have hR₁ : t₁.nodes R.addr = { t.nodes R.addr with parent := some x } := by
    rw [ht₁, nodes_setParent_self, nodes_setParent_of_ne hne.symm,
      nodes_register_of_ne (hx ▸ hRx)]
  have hothers : ∀ b, b ≠ x → b ≠ L.addr → b ≠ R.addr → t₁.nodes b = t.nodes b := by
    intro b hbx hbL hbR
    rw [ht₁, nodes_setParent_of_ne hbR, nodes_setParent_of_ne hbL,
      nodes_register_of_ne (hx ▸ hbx)]
  have hnext : ∀ b, b ≠ x → (t₁.nodes b).next = (t.nodes b).next := by
    intro b hbx
    rcases eq_or_ne b L.addr with rfl | hbL
    · rw [hL₁]
    · rcases eq_or_ne b R.addr with rfl | hbR
      · rw [hR₁]
      · rw [hothers b hbx hbL hbR]
  refine ⟨{ t₁ with root := some x }, fork x [] L [(sep, R)], ?_, ⟨?_, ?_, ?_, ?_, ?_⟩, ?_, ?_,
    fun v hv => ?_, ?_⟩
  · simp only [newRoot, BPlusTreeNode.new, store, hx]
    simp [List.replicate_succ, ht₁, hm]
  · rw [addr_fork]
  · have hat : InnerAt t.order m [sep] [L.addr, R.addr] := by
      rw [hm]
      exact ⟨rfl, rfl, ⟨_, rfl⟩, ⟨_, rfl⟩, by simp, by simp⟩
    have horder₁ : t₁.order = t.order := by
      rw [ht₁]
      rfl
    change Rep t₁.order t₁.nodes none _
    rw [horder₁]
    refine rep_fork.mpr ⟨⟨hx₁ ▸ hat, by rw [hx₁, hm], by simp, fun q hq => ?_⟩, ?_⟩
    · obtain rfl := List.mem_singleton.mp hq
      refine h.right.reparent hndR hR₁ fun b hb hbR => ?_
      refine hothers b (hfresh b (List.mem_append_right _ hb)) ?_ hbR
      exact fun heq => hLR _ L.addr_mem b hb heq.symm
    · refine h.left.reparent hndL hL₁ fun b hb hbL => ?_
      exact hothers b (hfresh b (List.mem_append_left _ hb)) hbL fun heq =>
        hLR b hb _ R.addr_mem heq
  · rw [addrs_fork]
    refine List.nodup_cons.mpr ⟨fun hmem => hfresh x (by simpa using hmem) rfl, ?_⟩
    simpa using hnd
  · intro b hb
    change b < t₁.registered
    have hreg₁ : t₁.registered = t.registered + 1 := by
      rw [ht₁]
      rfl
    rw [addrs_fork] at hb
    rcases List.mem_cons.mp hb with rfl | hb
    · omega
    · have := hreg b (by simpa using hb)
      omega
  · have hleaves : (fork x [] L [(sep, R)]).leaves = L.leaves ++ R.leaves := by
      rw [leaves, walk_fork]
      simp [leafVisit, leaves]
    rw [hleaves]
    refine hchain.congr fun b hb => hnext b (hfresh b ?_)
    rcases List.mem_append.mp hb with hb | hb
    · exact List.mem_append_left _ (leaves_subset L hb)
    · exact List.mem_append_right _ (leaves_subset R hb)
  · rw [ht₁]
    rfl
  · rw [ht₁]
    rfl
  · rw [walk_fork, hv]
    simp [before, after]
  · refine filled_fork.mpr ⟨by simp [minKeys], by simpa using Nat.succ_le_of_lt horder, by simp, hL,
      fun q hq => ?_⟩
    obtain rfl := List.mem_singleton.mp hq
    exact hR

omit [Inhabited K] [Inhabited V] in
theorem walk_step {u : Path Nat K V D (d + 1)} (v : Visit Nat K V β) (sep : K) :
    before v (.step a l r u) ++ (walk v L ++ v.sep sep ++ walk v R) ++ after v (.step a l r u) =
      before v u ++ walk v (fork a l L ((sep, R) :: r)) ++ after v u := by
  rw [walk_fork, before, after]
  simp only [List.flatMap_cons, List.append_assoc]

/-- The node and those split off it are linked into the tree, and the tree stays balanced. -/
theorem insertIntoParent_spec {path : Path Nat K V D d} (h : Pending t path L R) (sep : K)
    (hpath : PathFilled t.order path) (hL : Filled t.order false L) (hR : Filled t.order false R)
    (horder : 0 < t.order) (hfuel : path.length < fuel) :
    ∃ t' D', ∃ T : BTree Nat K V D', insertIntoParent fuel t L.addr sep R.addr = some t' ∧
      Joined t t' path L sep R T := by
  induction path generalizing t sep fuel with
  | root =>
    obtain ⟨fuel, rfl⟩ : ∃ k, fuel = k + 1 := ⟨fuel - 1, by omega⟩
    obtain ⟨t', T, hroot, hjoined⟩ := newRoot_spec h sep hL hR horder
    refine ⟨t', _, T, ?_, hjoined⟩
    have hparent : (t.nodes L.addr).parent = none := h.left.parent
    rw [insertIntoParent, hparent]
    exact hroot
  | step a l r up ih =>
    obtain ⟨fuel, rfl⟩ : ∃ k, fuel = k + 1 := ⟨fuel - 1, by omega⟩
    obtain ⟨hmin, hmax, hl, hr, hup⟩ := hpath
    obtain ⟨t₁, hlink, hroot₁, hreg₁, hsize₁, horder₁, hothers₁, hnext₁, hparent₁, hat₁⟩ :=
      linkChild_spec h hmax sep
    have hparent : (t.nodes L.addr).parent = some a := h.left.parent
    obtain ⟨N, hN⟩ : ∃ N, N = fork a l L ((sep, R) :: r) := ⟨_, rfl⟩
    have hNa : N.addr = a := hN ▸ addr_fork ..
    have hlist : before addrVisit (.step a l r up) ++ (L.addrs ++ R.addrs) ++
        after addrVisit (.step a l r up) = before addrVisit up ++ N.addrs ++
          after addrVisit up := by
      have hstep := walk_step (L := L) (R := R) (l := l) (r := r) (a := a) (u := up) addrVisit sep
      rw [hN]
      rwa [show (addrVisit : Visit Nat K V Nat).sep sep = [] from rfl, List.append_nil] at hstep
    have hleaves : before leafVisit (.step a l r up) ++ (L.leaves ++ R.leaves) ++
        after leafVisit (.step a l r up) = before leafVisit up ++ N.leaves ++
          after leafVisit up := by
      have hstep := walk_step (L := L) (R := R) (l := l) (r := r) (a := a) (u := up) leafVisit sep
      rw [hN]
      rwa [show (leafVisit : Visit Nat K V Nat).sep sep = [] from rfl, List.append_nil] at hstep
    have hnd := h.nodup
    have hreg := h.registered
    have hchain := h.chain
    rw [hlist] at hnd hreg
    rw [hleaves] at hchain
    obtain ⟨hfront, -, hback⟩ := List.nodup_append.mp hnd
    obtain ⟨-, hndN, hcross⟩ := List.nodup_append.mp hfront
    have hup' : ∀ b ∈ before addrVisit up ++ after addrVisit up, b ∉ N.addrs := by
      intro b hb hmem
      rcases List.mem_append.mp hb with hb | hb
      · exact hcross b hb b hmem rfl
      · exact hback b (List.mem_append_right _ hmem) b hb rfl
    obtain ⟨⟨-, -, hrl, hrr⟩, haround⟩ := h.around
    have hbelow : ∀ b ∈ (l.flatMap fun p => p.1.addrs) ++ L.addrs ++
        ((sep, R) :: r).flatMap fun p => p.2.addrs, t₁.nodes b = t.nodes b := by
      intro b hb
      refine hothers₁ b ?_
      rintro rfl
      rw [hN, addrs_fork, List.cons_append] at hndN
      exact (List.nodup_cons.mp hndN).1 hb
    have hrep : Rep t₁.order t₁.nodes up.parent N := by
      rw [horder₁, hN]
      refine rep_fork.mpr ⟨⟨hat₁, hparent₁, fun q hq => ?_, fun q hq => ?_⟩, ?_⟩
      · refine (hrl q hq).congr fun b hb => hbelow b (List.mem_append_left _ ?_)
        exact List.mem_append_left _ (List.mem_flatMap.mpr ⟨q, hq, hb⟩)
      · have hq' : Rep t.order t.nodes (some a) q.2 := by
          rcases List.mem_cons.mp hq with rfl | hq
          · exact h.right
          · exact hrr q hq
        refine hq'.congr fun b hb => hbelow b (List.mem_append_right _ ?_)
        exact List.mem_flatMap.mpr ⟨q, hq, hb⟩
      · have hL' : Rep t.order t.nodes (some a) L := h.left
        exact hL'.congr fun b hb => hbelow b (List.mem_append_left _ (List.mem_append_right _ hb))
    have haround₁ : Around t.order t₁.nodes up a := haround.congr fun b hb =>
      hothers₁ b fun heq => hup' b hb (heq ▸ hNa ▸ N.addr_mem)
    have hroot : t₁.root = some (plug up N).addr := by
      rw [hroot₁, h.root]
      exact congrArg some (addr_plug_congr up ((addr_fork ..).trans hNa.symm))
    have hchain₁ := hchain.congr fun b _ => hnext₁ b
    have hstep : insertIntoParent (fuel + 1) t L.addr sep R.addr =
        if (t₁.nodes a).numKeys > t₁.order then (t₁.halve a).bind fun x =>
          insertIntoParent fuel x.1 a x.2 t₁.registered else some t₁ := by
      rw [insertIntoParent, hparent]
      simp only [hlink, Option.bind_eq_bind, Option.bind_some]
      rfl
    have hnum : (t₁.nodes a).numKeys = l.length + r.length + 1 := by
      rw [hat₁.numKeys]
      simp
      omega
    have hchildren : ∀ c ∈ InnerNode.children N, Filled t.order false c := by
      intro c hc
      rw [hN, fork, InnerNode.children_fork] at hc
      rcases List.mem_append.mp hc with hc | hc
      · obtain ⟨q, hq, rfl⟩ := List.mem_map.mp hc
        exact hl q hq
      · rcases List.mem_cons.mp hc with rfl | hc
        · exact hL
        · obtain ⟨q, hq, rfl⟩ := List.mem_map.mp hc
          rcases List.mem_cons.mp hq with rfl | hq
          · exact hR
          · exact hr q hq
    have hkeys : (InnerNode.keys N).length = l.length + r.length + 1 := by
      rw [hN, fork, InnerNode.length_keys_fork, List.length_cons, Nat.add_assoc]
    by_cases hfull : (t₁.nodes a).numKeys > t₁.order
    · rw [if_pos hfull] at hstep
      rw [hnum, horder₁] at hfull
      obtain ⟨t₂, L', k, R', hhalve, hhalved⟩ := halve_spec hrep hndN
        (fun b hb => hreg₁ ▸ hreg b (List.mem_append_left _ (List.mem_append_right _ hb)))
        (by rw [hkeys, horder₁]; omega) (by rwa [horder₁]) (by rwa [horder₁])
      rw [hNa] at hhalve
      have hLa : L'.addr = a := hhalved.addrL.trans hNa
      have horder₂ : t₂.order = t.order := hhalved.order.trans horder₁
      have hreg₂ : t₂.registered = t.registered + 1 := hhalved.registered.trans (hreg₁ ▸ rfl)
      have hperm : (before addrVisit up ++ (L'.addrs ++ R'.addrs) ++ after addrVisit up).Perm
          (t.registered :: (before addrVisit up ++ N.addrs ++ after addrVisit up)) := by
        have hin := (hhalved.addrs.append_left (before addrVisit up)).append_right
          (after addrVisit up)
        rw [hreg₁] at hin
        exact hin.trans (List.perm_middle.append_right _)
      have hpending : Pending t₂ up L' R' := by
        refine ⟨?_, ?_, ?_, ?_, ?_, fun b hb => ?_, ?_⟩
        · rw [hhalved.root, hroot]
          exact congrArg some (addr_plug_congr up hhalved.addrL.symm)
        · rw [hLa, horder₂]
          refine haround₁.congr fun b hb => hhalved.others b (hup' b hb) ?_
          have hlt : b < t.registered := hreg b (by
            rcases List.mem_append.mp hb with hb | hb
            · exact List.mem_append_left _ (List.mem_append_left _ hb)
            · exact List.mem_append_right _ hb)
          rw [hreg₁]
          exact hlt.ne
        · rw [hhalved.order]
          exact hhalved.left
        · rw [hhalved.order]
          exact hhalved.right
        · refine hperm.nodup_iff.mpr (List.nodup_cons.mpr ⟨fun hmem => ?_, hnd⟩)
          exact (hreg _ hmem).false
        · rw [hreg₂]
          rcases List.mem_cons.mp (hperm.mem_iff.mp hb) with rfl | hb
          · exact Nat.lt_succ_self _
          · exact Nat.lt_succ_of_lt (hreg b hb)
        · have hwalk : L'.leaves ++ R'.leaves = N.leaves := by
            simpa [leafVisit, leaves] using hhalved.walk leafVisit fun _ => rfl
          rw [hwalk]
          refine hchain₁.congr fun b hb => hhalved.next b ?_
          have hlt : b < t.registered := hreg b (by
            rcases List.mem_append.mp hb with hb | hb
            · rcases List.mem_append.mp hb with hb | hb
              · exact List.mem_append_left _
                  (List.mem_append_left _ ((leaves_around_subset up).1 hb))
              · exact List.mem_append_left _ (List.mem_append_right _ (leaves_subset N hb))
            · exact List.mem_append_right _ ((leaves_around_subset up).2 hb))
          rw [hreg₁]
          exact hlt.ne
      obtain ⟨t', D', T, hins, hjoined⟩ := ih hpending k (horder₂ ▸ hup)
        (by rw [horder₂, ← horder₁]; exact hhalved.filledL)
        (by rw [horder₂, ← horder₁]; exact hhalved.filledR) (horder₂ ▸ horder)
        (Nat.lt_of_succ_lt_succ hfuel)
      refine ⟨t', D', T, ?_, hjoined.shown, ?_, ?_, fun v hv => ?_, ?_⟩
      · rw [hstep, hhalve, Option.bind_some]
        rw [hLa, hhalved.addrR] at hins
        exact hins
      · rw [hjoined.sizeCount, hhalved.sizeCount, hsize₁]
      · rw [hjoined.order, horder₂]
      · rw [hjoined.walk v hv, hhalved.walk v hv, hN, walk_step]
      · rw [← horder₂]
        exact hjoined.filled
    · rw [if_neg hfull] at hstep
      refine ⟨t₁, _, plug up N, hstep, ⟨hroot, ?_, ?_, ?_, ?_⟩, hsize₁, horder₁, fun v hv => ?_, ?_⟩
      · rw [rep_plug, horder₁, hNa]
        exact ⟨haround₁, horder₁ ▸ hrep⟩
      · rw [addrs, walk_plug]
        exact hnd
      · intro b hb
        rw [addrs, walk_plug] at hb
        exact hreg₁ ▸ hreg b hb
      · rw [leaves, walk_plug]
        exact hchain₁
      · rw [walk_plug, hN, walk_step]
      · refine filled_plug.mpr ⟨hup, ?_⟩
        rw [hnum, horder₁] at hfull
        exact ⟨(hmin.trans (Nat.le_succ _)).trans_eq hkeys.symm, by rw [hkeys]; omega, hchildren⟩

end Cajeta.Collection.BPlusTree
