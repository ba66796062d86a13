import Cajeta.Collection.BPlusRefinement

/-!
# What `BPlusTree` guarantees

The chain of leaves lists the entries in order, and what holds after every sequence of calls of
`put`.
-/

namespace Cajeta.Collection.BPlusTree
open BTree Slots
variable {K V : Type} {t : BPlusTree K V} {d D : Nat} {nodes : Nat → BPlusTreeNode K V}

/-! ## Traversal -/

theorem Rep.leafAt {T : BTree Nat K V d} (h : Rep o nodes p T) :
    ∀ q ∈ T.runs, LeafAt o (nodes q.1) q.2 := by
  induction d generalizing p with
  | zero =>
    intro q hq
    obtain rfl := List.mem_singleton.mp hq
    exact h.1
  | succ d ih =>
    obtain ⟨-, -, hall⟩ := h
    intro q hq
    simp only [runs, walk, runVisit, List.nil_append, List.mem_append, List.mem_flatMap] at hq
    rcases hq with hq | ⟨c, hc, hq⟩
    · exact ih (hall _ List.mem_cons_self) q hq
    · exact ih (hall _ (List.mem_cons_of_mem _ (List.mem_map_of_mem hc))) q hq

theorem leftmost_spec {T : BTree Nat K V d} (h : Rep t.order t.nodes p T)
    (hfill : Filled t.order isRoot T) (horder : 0 < t.order) (hfuel : d < fuel) :
    ∃ a e es rest, T.runs = (a, e :: es) :: rest ∧ t.leftmost fuel T.addr = some a := by
  induction d generalizing p isRoot fuel with
  | zero =>
    obtain ⟨fuel, rfl⟩ : ∃ k, fuel = k + 1 := ⟨fuel - 1, by omega⟩
    obtain ⟨a, es⟩ := T
    cases es with
    | nil =>
      have hmin : minKeys t.order 0 isRoot ≤ 0 := hfill.1
      simp only [minKeys] at hmin
      split at hmin <;> simp at hmin
      omega
    | cons e es =>
      have hleaf : (t.nodes a).leaf = true := h.1.leaf
      exact ⟨a, e, es, [], rfl, by simp [leftmost, addr, hleaf]⟩
  | succ d ih =>
    obtain ⟨fuel, rfl⟩ : ∃ k, fuel = k + 1 := ⟨fuel - 1, by omega⟩
    obtain ⟨hat, -, hall⟩ := h
    obtain ⟨a, e, es, rest, hruns, hleft⟩ := ih (hall _ List.mem_cons_self)
      (hfill.2.2 _ List.mem_cons_self) (Nat.lt_of_succ_lt_succ hfuel)
    have hchild : (t.nodes (InnerNode.addr T)).children[0]? =
      some (some (InnerNode.first T).addr) :=
      getElem?_of_start (A := []) (x := some (InnerNode.first T).addr)
        (B := (((InnerNode.rest T).map Prod.snd).map addr).map some) hat.children
    have hleaf : (t.nodes (InnerNode.addr T)).leaf = false := hat.leaf
    refine ⟨a, e, es, rest ++ (InnerNode.rest T).flatMap fun p => walk runVisit p.2, ?_, ?_⟩
    · have hfirst : walk runVisit (InnerNode.first T) = (a, e :: es) :: rest := hruns
      rw [runs, walk, hfirst]
      rfl
    · change t.leftmost (fuel + 1) (InnerNode.addr T) = _
      simp only [leftmost, hleaf, Bool.false_eq_true, if_false, hchild, Option.bind_eq_bind,
        Option.bind_some]
      exact hleft

theorem keysFrom_spec {runs : List (Nat × List (K × V))}
    (hchain : Chain t.nodes (runs.map Prod.fst))
    (hleaf : ∀ q ∈ runs, LeafAt o (t.nodes q.1) q.2) (hfuel : runs.length ≤ fuel) :
    t.keysFrom fuel (runs.map Prod.fst).head? = some ((runs.flatMap Prod.snd).map Prod.fst) := by
  induction runs generalizing fuel with
  | nil => cases fuel <;> rfl
  | cons q runs ih =>
    obtain ⟨fuel, rfl⟩ : ∃ k, fuel = k + 1 := ⟨fuel - 1, by
      simp only [List.length_cons] at hfuel
      omega⟩
    obtain ⟨hnext, hchain⟩ := hchain
    have hat := hleaf q List.mem_cons_self
    have hrest := ih hchain (fun q' hq => hleaf q' (List.mem_cons_of_mem _ hq))
      (Nat.le_of_succ_le_succ hfuel)
    have hread := readFrom_prefix hat.keys
    rw [List.length_map, ← hat.numKeys] at hread
    rw [← hnext] at hrest
    simp [keysFrom, hread, hrest]

variable [LinearOrder K] {m : SortedMap K V}

theorem Refines.keys {T : BTree Nat K V D} (h : Refines t T m) :
    (T.runs.flatMap Prod.snd).map Prod.fst = m.keys := by
  rw [← entries_eq_flatMap, h.entries, SortedMap.keys]

theorem Refines.keysInOrder {T : BTree Nat K V D} (h : Refines t T m) (horder : 0 < t.order) :
    t.keysInOrder = some m.keys := by
  have hlen := h.shown.length_le
  obtain ⟨a, e, es, rest, hruns, hleft⟩ := leftmost_spec h.shown.rep h.filled horder
    (T.lt_length_addrs.trans_le hlen)
  have hchain := h.shown.chain
  have hcount := T.leaves_sublist.length_le
  rw [leaves_eq] at hchain hcount
  rw [List.length_map] at hcount
  have hkeys := keysFrom_spec hchain h.shown.rep.leafAt (hcount.trans hlen)
  rw [h.keys] at hkeys
  rw [hruns] at hkeys
  rw [BPlusTree.keysInOrder, h.shown.root]
  simp only [hleft, Option.bind_eq_bind, Option.bind_some]
  exact hkeys

theorem Refines.min [Inhabited K] {T : BTree Nat K V D} (h : Refines t T m) (horder : 0 < t.order) :
    t.min = some (m.keys.head?.getD default) := by
  obtain ⟨a, e, es, rest, hruns, hleft⟩ := leftmost_spec h.shown.rep h.filled horder
    (T.lt_length_addrs.trans_le h.shown.length_le)
  have hat : LeafAt t.order (t.nodes a) (e :: es) :=
    h.shown.rep.leafAt (a, e :: es) (hruns ▸ List.mem_cons_self)
  have hget := getElem?_of_start (A := []) hat.keys
  rw [← h.keys, hruns, BPlusTree.min, h.shown.root]
  simp only [hleft, Option.bind_eq_bind, Option.bind_some]
  exact hget

/-! ## Sequences of calls -/

theorem Represents.put [Inhabited K] [Inhabited V] (h : Represents t m) (horder : 0 < t.order)
    (key : K) (value : V) : ∃ t', t.put key value = some t' ∧ t'.order = t.order ∧
      ∃ D, ∃ T : BTree Nat K V D, Refines t' T (m.insert key value) := by
  rcases h with ⟨hroot, hempty⟩ | ⟨D, T, h⟩
  · have hinsert := SortedMap.insert_entries (v := value) (k := key) (A := []) (B := [])
      (C := []) hempty (by simp) (by simp) (by simp)
    obtain ⟨n, hn⟩ : ∃ n : BPlusTreeNode K V, n = ⟨true, 1, key :: List.replicate t.order default,
      value :: List.replicate t.order default, [], none, none⟩ := ⟨_, rfl⟩
    have hself : (t.register n).nodes t.registered = n := nodes_register_self
    refine ⟨{ t.register n with root := some t.registered, sizeCount := 1 }, ?_, rfl, 0,
      leaf t.registered [(key, value)], ⟨rfl, ?_, ?_, ?_, ?_⟩, ?_, ?_, ?_, ?_⟩
    · rw [BPlusTree.put, hroot, hn]
      simp [BPlusTreeNode.new, store, List.replicate_succ]
    · change LeafAt t.order ((t.register n).nodes t.registered) [(key, value)] ∧
        ((t.register n).nodes t.registered).parent = none
      rw [hself, hn]
      exact ⟨⟨rfl, rfl, ⟨_, rfl⟩, ⟨_, rfl⟩, by simp, by simp⟩, rfl⟩
    · exact List.pairwise_singleton ..
    · intro a ha
      obtain rfl := List.mem_singleton.mp ha
      exact Nat.lt_succ_self _
    · change ((t.register n).nodes t.registered).next = none ∧ True
      rw [hself, hn]
      exact ⟨rfl, trivial⟩
    · exact ⟨Nat.le_refl 1, horder⟩
    · exact List.pairwise_singleton ..
    · rw [hinsert]
      rfl
    · rw [SortedMap.size, hinsert]
      rfl
  · obtain ⟨t', D', T', hput, horder', h'⟩ := h.put horder key value
    exact ⟨t', hput, horder', D', T', h'⟩

theorem Represents.puts [Inhabited K] [Inhabited V] (h : Represents t m) (horder : 0 < t.order)
    (entries : List (K × V)) : ∃ t', t.puts entries = some t' ∧ t'.order = t.order ∧
      Represents t' (entries.foldl (fun m e => m.insert e.1 e.2) m) := by
  induction entries generalizing t m with
  | nil => exact ⟨t, rfl, rfl, h⟩
  | cons e entries ih =>
    obtain ⟨t₁, hput, horder₁, h₁⟩ := h.put horder e.1 e.2
    obtain ⟨t', hputs, horder', h'⟩ := ih (.inr h₁) (horder₁ ▸ horder)
    refine ⟨t', ?_, horder'.trans horder₁, h'⟩
    rw [BPlusTree.puts, List.foldlM_cons, hput]
    exact hputs

/-- After every sequence of calls of `put` the nodes form a search tree with its leaves at one
depth, none too full or too empty and the leaves chained, and the tree answers as the map does that
the calls leave. Every call returns, so none reads or writes beyond an array. -/
theorem puts_balanced [Inhabited K] [Inhabited V] (order : Nat) (horder : 0 < order)
    (entries : List (K × V)) :
    ∃ t : BPlusTree K V, (new order).puts entries = some t ∧
      (entries = [] ∧ t.root = none ∨ ∃ D, ∃ T : BTree Nat K V D, Shows t T ∧ t.order = order ∧
        Filled order true T ∧ Ordered T) ∧
      (∀ key, t.get key = some ((SortedMap.written entries key).getD default)) ∧
      (∀ key, t.containsKey key = some (SortedMap.written entries key).isSome) ∧
      ∃ keys, t.keysInOrder = some keys ∧ keys.Pairwise (· < ·) ∧
        (∀ k, k ∈ keys ↔ k ∈ entries.map Prod.fst) ∧ t.count = keys.length ∧
        t.isEmpty = keys.isEmpty ∧ t.min = some (keys.head?.getD default) := by
  have hnew : Represents (new order : BPlusTree K V) SortedMap.empty := .inl ⟨rfl, rfl⟩
  obtain ⟨t, hputs, horder', h⟩ := hnew.puts horder entries
  have hfind := SortedMap.find?_foldl_insert entries SortedMap.empty (fun _ => none) fun _ => rfl
  obtain ⟨m, hm⟩ : ∃ m, m = entries.foldl (fun m e => m.insert e.1 e.2) SortedMap.empty := ⟨_, rfl⟩
  rw [← hm] at h hfind
  replace hfind : ∀ k, m.find? k = SortedMap.written entries k := hfind
  have hmem : ∀ k, k ∈ m.keys ↔ k ∈ entries.map Prod.fst := by
    intro k
    rw [← SortedMap.isSome_written, ← SortedMap.isSome_find?, hfind]
  rcases h with ⟨hroot, hempty⟩ | ⟨D, T, h⟩
  · have hkeys : m.keys = [] := by rw [SortedMap.keys, hempty, List.map_nil]
    have hentries : entries = [] := by
      cases entries with
      | nil => rfl
      | cons e entries =>
        have hin := (hmem e.1).mpr List.mem_cons_self
        rw [hkeys] at hin
        cases hin
    subst hentries
    cases hputs
    exact ⟨new order, rfl, .inl ⟨rfl, rfl⟩, fun key => rfl, fun key => rfl, [], rfl, .nil,
      fun k => Iff.rfl, rfl, rfl, rfl⟩
  · replace horder' : t.order = order := horder'
    refine ⟨t, hputs, .inr ⟨D, T, h.shown, horder', horder' ▸ h.filled, h.ordered⟩, fun key => ?_,
      fun key => ?_, m.keys, h.keysInOrder (horder' ▸ horder), ?_, hmem, ?_, ?_,
      h.min (horder' ▸ horder)⟩
    · rw [h.get, hfind]
    · rw [h.containsKey, SortedMap.contains, hfind]
    · exact List.pairwise_map.mpr m.sorted
    · rw [count, h.size, SortedMap.size, SortedMap.keys, List.length_map]
    · obtain ⟨a, e, es, rest, hruns, -⟩ := leftmost_spec h.shown.rep h.filled (horder' ▸ horder)
        (Nat.lt_succ_self D)
      rw [isEmpty, h.shown.root, ← h.keys, hruns]
      rfl

theorem puts_balanced_sample :
    0 < 3 ∧ ∃ t : BPlusTree Nat Nat, (new 3).puts [(5, 0), (1, 1), (4, 2), (2, 3), (3, 4), (1, 5)] =
      some t ∧ ∃ keys, t.keysInOrder = some keys ∧ keys.Pairwise (· < ·) := by
  refine ⟨by decide, ?_⟩
  obtain ⟨t, hputs, -, -, -, keys, hkeys, hsorted, -⟩ := puts_balanced (K := Nat) (V := Nat) 3
    (by decide) [(5, 0), (1, 1), (4, 2), (2, 3), (3, 4), (1, 5)]
  exact ⟨t, hputs, keys, hkeys, hsorted⟩

end Cajeta.Collection.BPlusTree
