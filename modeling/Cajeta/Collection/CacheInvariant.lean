import Cajeta.Collection.Cache
import Cajeta.Collection.HashMapRefinement

/-!
# The invariant of `Cache`

The nodes of the list are what the map maps to, each under its own key, and the list is linked both
ways. Removing a node from both and putting one in both keep it.
-/

namespace Cajeta.Collection.Cache
variable {K V : Type} {c c' : Cache K V}

/-! ## Links -/

theorem links_setNext (c : Cache K V) (p y : Option Addr) :
    (c.setNext p y).links = { c.links with next := Function.update c.links.next p y } := by
  cases p with
  | none =>
    ext1
    · funext x
      cases x <;> simp [links, setNext]
    · rfl
  | some a =>
    ext1
    all_goals
      funext x
      cases x with
      | none => simp [links, setNext, setNode]
      | some b => by_cases hb : b = a <;> simp [links, setNext, setNode, hb]

theorem links_setPrev (c : Cache K V) (n y : Option Addr) :
    (c.setPrev n y).links = { c.links with prev := Function.update c.links.prev n y } := by
  cases n with
  | none =>
    ext1
    · rfl
    · funext x
      cases x <;> simp [links, setPrev]
  | some a =>
    ext1
    all_goals
      funext x
      cases x with
      | none => simp [links, setPrev, setNode]
      | some b => by_cases hb : b = a <;> simp [links, setPrev, setNode, hb]

/-- Nothing but links differs. -/
structure Relinked (c c' : Cache K V) : Prop where
  entries : c'.entries = c.entries
  allocated : c'.allocated = c.allocated
  maxEntries : c'.maxEntries = c.maxEntries
  maxAgeNanos : c'.maxAgeNanos = c.maxAgeNanos
  entryOf : c'.entryOf = c.entryOf

theorem Relinked.refl (c : Cache K V) : Relinked c c := ⟨rfl, rfl, rfl, rfl, rfl⟩

theorem Relinked.setNext (h : Relinked c c') (p y : Option Addr) : Relinked c (c'.setNext p y) := by
  cases p with
  | none => exact ⟨h.1, h.2, h.3, h.4, h.5⟩
  | some a =>
    refine ⟨h.1, h.2, h.3, h.4, h.5 ▸ funext fun b => ?_⟩
    by_cases hb : b = a <;> simp [Cache.entryOf, Cache.setNext, setNode, hb]

theorem Relinked.setPrev (h : Relinked c c') (n y : Option Addr) : Relinked c (c'.setPrev n y) := by
  cases n with
  | none => exact ⟨h.1, h.2, h.3, h.4, h.5⟩
  | some a =>
    refine ⟨h.1, h.2, h.3, h.4, h.5 ▸ funext fun b => ?_⟩
    by_cases hb : b = a <;> simp [Cache.entryOf, Cache.setPrev, setNode, hb]

theorem Relinked.unlinkOnly (h : Relinked c c') (a : Addr) : Relinked c (c'.unlinkOnly a) := by
  unfold Cache.unlinkOnly
  exact (((h.setNext _ _).setPrev _ _).setPrev _ _).setNext _ _

theorem Relinked.linkAtHead (h : Relinked c c') (a : Addr) : Relinked c (c'.linkAtHead a) := by
  have h₁ := (h.setPrev (some a) none).setNext (some a) (c'.setPrev (some a) none).mruHead
  unfold Cache.linkAtHead
  extract_lets c₁ c₂ c₃ c₄
  have h₃ : Relinked c c₃ := by
    simp only [c₃]
    split
    · exact h₁.setPrev _ _
    · exact h₁
  split <;> exact ⟨h₃.1, h₃.2, h₃.3, h₃.4, h₃.5⟩

/-- Unlinking is the removal from the ring, as a node of the list is not its own neighbour. -/
theorem links_unlinkOnly (h : c.links.Linked (pre ++ a :: post)) :
    (c.unlinkOnly a).links = c.links.unlink a := by
  obtain ⟨hpre, hpost⟩ := LinkRing.seg_append.mp h.seg
  obtain ⟨-, hnpost, hdisj⟩ := List.nodup_append.mp h.nodup
  have hprev : c.links.prev (some a) ≠ some a := by
    intro he
    rcases hpre.prev_mem with hp | ⟨b, hb, hp⟩
    · cases he.symm.trans hp
    · obtain rfl := Option.some.inj (he.symm.trans hp)
      exact hdisj a hb a List.mem_cons_self rfl
  have hnext : c.links.next (some a) ≠ some a := by
    intro he
    cases post with
    | nil => cases he.symm.trans hpost.1
    | cons b post =>
      obtain rfl := Option.some.inj (he.symm.trans hpost.1)
      exact (List.nodup_cons.mp hnpost).1 List.mem_cons_self
  have hsame : ((c.setNext (c.nodes a).prev (c.nodes a).next).nodes a).next = (c.nodes a).next ∧
      ((c.setNext (c.nodes a).prev (c.nodes a).next).nodes a).prev = (c.nodes a).prev := by
    change (c.nodes a).prev ≠ some a at hprev
    cases hp : (c.nodes a).prev with
    | none => simp [setNext, hp]
    | some p =>
      have hap : a ≠ p := by
        rintro rfl
        exact hprev hp
      simp [setNext, setNode, hap, hp]
  simp only [unlinkOnly, hsame, links_setNext, links_setPrev]
  rfl

/-- Linking at the head is the insertion after the null node, as the tail is null just when the
head is. -/
theorem links_linkAtHead (h : c.links.Linked ns) (ha : a ∉ ns) :
    (c.linkAtHead a).links = c.links.pushFront a := by
  cases ns with
  | nil =>
    have hhead : c.mruHead = none := h.seg.1
    have htail : c.lruTail = none := h.seg.2
    ext x : 2
    all_goals
      cases x with
      | none => simp [linkAtHead, setPrev, setNext, setNode, hhead, htail, links,
          LinkRing.pushFront, LinkRing.link]
      | some b =>
        by_cases hb : b = a <;> simp [linkAtHead, setPrev, setNext, setNode, hhead, htail, links,
          LinkRing.pushFront, LinkRing.link, hb]
  | cons b ns =>
    have hhead : c.mruHead = some b := h.seg.1
    have hba : b ≠ a := by
      rintro rfl
      exact ha List.mem_cons_self
    obtain ⟨t, htail⟩ : ∃ t, c.lruTail = some t := by
      rcases h.seg.2.2.prev_mem with hp | ⟨t, -, hp⟩
      · exact ⟨b, hp⟩
      · exact ⟨t, hp⟩
    ext x : 2
    all_goals
      cases x with
      | none => simp [linkAtHead, setPrev, setNext, setNode, hhead, htail, links,
          LinkRing.pushFront, LinkRing.link]
      | some d =>
        by_cases hda : d = a <;> by_cases hdb : d = b <;>
          simp [linkAtHead, setPrev, setNext, setNode, hhead, htail, links, LinkRing.pushFront,
            LinkRing.link, hda, hdb, hba, hba.symm]

/-! ## Nodes and keys -/

variable {ns pre post : List Addr}

theorem Relinked.lru (h : Relinked c c') (ns : List Addr) : c'.lru ns = c.lru ns := by
  simp only [Cache.lru, h.entryOf, h.maxEntries, h.maxAgeNanos]

section
variable [BEq K]

def nodeOf (c : Cache K V) (ns : List Addr) (k : K) : Option Addr :=
  ns.find? fun a => (c.entryOf a).key == k

omit [BEq K] in
theorem value_entryOf (c : Cache K V) (a : Addr) : (c.entryOf a).value = (c.nodes a).value := rfl

theorem nodeOf_some (h : c.nodeOf ns k = some a) : a ∈ ns ∧ ((c.entryOf a).key == k) = true :=
  ⟨List.mem_of_find?_eq_some h, by simpa using List.find?_some h⟩

theorem nodeOf_congr (h : ∀ a ∈ ns, c'.entryOf a = c.entryOf a) (k : K) :
    c'.nodeOf ns k = c.nodeOf ns k := by
  unfold nodeOf
  induction ns with
  | nil => rfl
  | cons a ns ih =>
    rw [List.find?_cons, List.find?_cons, h a List.mem_cons_self,
      ih fun b hb => h b (List.mem_cons_of_mem a hb)]

theorem nodeOf_cons (c : Cache K V) (a : Addr) (ns : List Addr) (k : K) :
    c.nodeOf (a :: ns) k = if (c.entryOf a).key == k then some a else c.nodeOf ns k := by
  rw [nodeOf, List.find?_cons]
  cases (c.entryOf a).key == k <;> rfl

variable [EquivBEq K]

theorem nodeOf_split (hd : (pre ++ a :: post).Pairwise fun a b =>
    ((c.entryOf a).key == (c.entryOf b).key) = false) (k : K) :
    c.nodeOf (pre ++ a :: post) k =
      if (c.entryOf a).key == k then some a else c.nodeOf (pre ++ post) k := by
  obtain ⟨-, -, hcross⟩ := List.pairwise_append.mp hd
  unfold nodeOf
  rw [List.find?_append, List.find?_cons, List.find?_append]
  cases hk : (c.entryOf a).key == k
  · rfl
  · have hpre : pre.find? (fun b => (c.entryOf b).key == k) = none := by
      refine List.find?_eq_none.mpr fun b hb hbk => ?_
      have hab := hcross b hb a List.mem_cons_self
      rw [BEq.trans hbk (BEq.symm hk)] at hab
      cases hab
    simp [hpre]

theorem nodeOf_drop (hd : (pre ++ a :: post).Pairwise fun a b =>
    ((c.entryOf a).key == (c.entryOf b).key) = false) (k : K) :
    c.nodeOf (pre ++ post) k =
      if (c.entryOf a).key == k then none else c.nodeOf (pre ++ a :: post) k := by
  rw [nodeOf_split hd]
  cases hk : (c.entryOf a).key == k
  · rfl
  · obtain ⟨-, hpost, hcross⟩ := List.pairwise_append.mp hd
    refine List.find?_eq_none.mpr fun b hb hbk => ?_
    rcases List.mem_append.mp hb with hb | hb
    · have hab := hcross b hb a List.mem_cons_self
      rw [BEq.trans hbk (BEq.symm hk)] at hab
      cases hab
    · have hab := (List.pairwise_cons.mp hpost).1 b hb
      rw [BEq.trans hk (BEq.symm hbk)] at hab
      cases hab

end

section
variable [Inhabited K] [BEq K] [Hashable K] {f : FinMap K (Option Addr)}

/-- The list is `ns`, linked both ways, with no key twice, and the map finds the node of a key. -/
structure Inv (c : Cache K V) (ns : List Addr) (f : FinMap K (Option Addr)) : Prop where
  table : HashMap.Inv c.entries
  refines : HashMap.Refines c.entries f
  lookup : ∀ k, f.lookup k = (c.nodeOf ns k).map some
  size : f.size = ns.length
  linked : c.links.Linked ns
  distinct : ns.Pairwise fun a b => ((c.entryOf a).key == (c.entryOf b).key) = false
  allocated : ∀ a ∈ ns, a < c.allocated

theorem Inv.count (h : Inv c ns f) : c.count = ns.length := h.refines.size.trans h.size

theorem Inv.list (h : Inv c ns f) : c.list = ns := by
  have hwalk := h.linked.seg.walk (le_of_eq h.count.symm)
  exact hwalk

theorem Inv.lruTail (h : Inv c ns f) : c.lruTail = ns.getLast? :=
  h.linked.seg.prev_eq.trans Option.or_none

variable [EquivBEq K]

theorem Inv.get [LawfulHashable K] (h : Inv c ns f) (k : K) :
    c.entries.get k = some (c.nodeOf ns k) := by
  rw [HashMap.get_refines h.table h.refines, h.lookup]
  cases c.nodeOf ns k <;> rfl

theorem Inv.dropped (h : Inv c (pre ++ a :: post) f) (hk : ((c.entryOf a).key == k) = true)
    (hentry : c'.entryOf = c.entryOf) (hallocated : c'.allocated = c.allocated)
    (hlinks : c'.links = c.links.unlink a) (htable : HashMap.Inv c'.entries)
    (hrefines : HashMap.Refines c'.entries (f.erase k)) : Inv c' (pre ++ post) (f.erase k) where
  table := htable
  refines := hrefines
  lookup k' := by
    rw [FinMap.lookup_erase, h.lookup, nodeOf_congr fun b _ => congrFun hentry b,
      nodeOf_drop h.distinct k', BEq.congr_left hk]
    split <;> rfl
  size := by
    have hmem : c.nodeOf (pre ++ a :: post) k = some a := by
      rw [nodeOf_split h.distinct, hk]
      rfl
    rw [FinMap.size_erase, FinMap.contains, h.lookup, hmem, h.size]
    simp
  linked := hlinks ▸ h.linked.unlink
  distinct := by
    rw [hentry]
    exact h.distinct.sublist (List.Sublist.append_left (List.sublist_cons_self a post) pre)
  allocated b hb := by
    rw [hallocated]
    exact h.allocated b (by rcases List.mem_append.mp hb with hb | hb <;> simp [hb])

theorem Inv.drop [LawfulHashable K] (h : Inv c (pre ++ a :: post) f)
    (hk : ((c.entryOf a).key == k) = true) :
    ∃ c' f', (c.unlinkOnly a).removeEntry k = some c' ∧ Inv c' (pre ++ post) f' ∧
      c'.lru (pre ++ post) = c.lru (pre ++ post) := by
  have hrel := (Relinked.refl c).unlinkOnly a
  obtain ⟨v, m, hremove, htable, hrefines⟩ := HashMap.remove_refines h.table h.refines k
  rw [← hrel.entries] at hremove
  exact ⟨{ c.unlinkOnly a with entries := m }, f.erase k, by simp [removeEntry, hremove],
    h.dropped hk hrel.entryOf hrel.allocated (links_unlinkOnly h.linked) htable hrefines,
    hrel.lru _⟩

theorem Inv.moveToHead (h : Inv c (pre ++ a :: post) f) :
    Inv (c.moveToHead a) (a :: (pre ++ post)) f ∧ Relinked c (c.moveToHead a) := by
  have hna : a ∉ pre ++ post := by
    have hnd := h.linked.nodup
    rw [List.nodup_middle] at hnd
    exact (List.nodup_cons.mp hnd).1
  have hperm : (a :: (pre ++ post)).Perm (pre ++ a :: post) := List.perm_middle.symm
  have hd : (a :: (pre ++ post)).Pairwise fun a b =>
      ((c.entryOf a).key == (c.entryOf b).key) = false :=
    (hperm.pairwise_iff fun hab => BEq.symm_false hab).mpr h.distinct
  have hlookup : ∀ k, f.lookup k = (c.nodeOf (a :: (pre ++ post)) k).map some := by
    intro k
    rw [h.lookup, nodeOf_split h.distinct, nodeOf_cons]
  unfold Cache.moveToHead
  split
  · next hhead =>
    -- The node is the head already.
    cases pre with
    | nil => exact ⟨h, .refl c⟩
    | cons b pre =>
      obtain rfl := Option.some.inj (hhead.trans h.linked.seg.1)
      exact absurd (List.mem_append_left post List.mem_cons_self) hna
  · have hrel := ((Relinked.refl c).unlinkOnly a).linkAtHead a
    have hun := h.linked.unlink
    rw [← links_unlinkOnly h.linked] at hun
    have hlinked := hun.pushFront hna
    rw [← links_linkAtHead hun hna] at hlinked
    refine ⟨⟨hrel.entries ▸ h.table, hrel.entries ▸ h.refines, fun k => ?_, ?_, hlinked,
      hrel.entryOf ▸ hd, fun b hb => ?_⟩, hrel⟩
    · rw [nodeOf_congr fun b _ => congrFun hrel.entryOf b]
      exact hlookup k
    · rw [h.size]
      exact hperm.length_eq.symm
    · rw [hrel.allocated]
      exact h.allocated b (hperm.subset hb)

theorem Inv.added (h : Inv c ns f) (hk : c.nodeOf ns (c'.entryOf a).key = none)
    (hentry : ∀ b ∈ ns, c'.entryOf b = c.entryOf b) (hle : c.allocated ≤ c'.allocated)
    (ha : a < c'.allocated) (hlinked : c'.links.Linked (a :: ns))
    (htable : HashMap.Inv c'.entries)
    (hrefines : HashMap.Refines c'.entries (f.insert (c'.entryOf a).key (some a))) :
    Inv c' (a :: ns) (f.insert (c'.entryOf a).key (some a)) where
  table := htable
  refines := hrefines
  lookup k := by
    rw [FinMap.lookup_insert, h.lookup, nodeOf_cons, nodeOf_congr hentry]
    split <;> rfl
  size := by
    rw [FinMap.size_insert, FinMap.contains, h.lookup, hk, h.size]
    rfl
  linked := hlinked
  distinct := by
    refine List.pairwise_cons.mpr ⟨fun b hb => ?_, h.distinct.imp_of_mem fun hb hd hbd => ?_⟩
    · have hne := List.find?_eq_none.mp hk b hb
      rw [hentry b hb]
      exact BEq.symm_false (by simpa using hne)
    · rwa [hentry _ hb, hentry _ hd]
  allocated b hb := by
    rcases List.mem_cons.mp hb with rfl | hb
    · exact ha
    · exact Nat.lt_of_lt_of_le (h.allocated b hb) hle

theorem Inv.add [LawfulHashable K] (h : Inv c ns f) (n : CacheNode K V)
    (hk : c.nodeOf ns n.key = none) :
    ∃ m f', ((c.alloc n).linkAtHead c.allocated).entries.put n.key (some c.allocated) = some m ∧
      Inv { (c.alloc n).linkAtHead c.allocated with entries := m } (c.allocated :: ns) f' ∧
      Cache.lru { (c.alloc n).linkAtHead c.allocated with entries := m } (c.allocated :: ns) =
        { c.lru ns with entries := ⟨n.key, n.value, n.accessedAt⟩ :: (c.lru ns).entries } := by
  have hrel := (Relinked.refl (c.alloc n)).linkAtHead c.allocated
  have hfresh : c.allocated ∉ ns := fun hm => Nat.lt_irrefl _ (h.allocated _ hm)
  have hold : ∀ b ∈ ns, (c.alloc n).nodes b = c.nodes b := by
    intro b hb
    have hne : b ≠ c.allocated := by
      rintro rfl
      exact hfresh hb
    simp [alloc, setNode, hne]
  have hentry : ∀ b ∈ ns, ((c.alloc n).linkAtHead c.allocated).entryOf b = c.entryOf b := by
    intro b hb
    rw [hrel.entryOf]
    simp [Cache.entryOf, hold b hb]
  have hnew : ((c.alloc n).linkAtHead c.allocated).entryOf c.allocated =
      ⟨n.key, n.value, n.accessedAt⟩ := by
    rw [hrel.entryOf]
    simp [Cache.entryOf, alloc, setNode]
  have hlinked₀ : (c.alloc n).links.Linked ns := by
    refine ⟨h.linked.seg.congr ?_ (fun b hb => ?_) ?_, h.linked.nodup⟩
    · rfl
    · simp [links, hold b hb]
    · rfl
  have hlinked := hlinked₀.pushFront hfresh
  rw [← links_linkAtHead hlinked₀ hfresh] at hlinked
  obtain ⟨m, hput, htable, hrefines⟩ :=
    HashMap.put_refines h.table h.refines n.key (some c.allocated)
  have hentries : ((c.alloc n).linkAtHead c.allocated).entries = c.entries := hrel.entries
  have hkey := congrArg Lru.Entry.key hnew
  dsimp only at hkey
  rw [← hkey] at hk hrefines
  refine ⟨m, _, hentries ▸ hput, h.added hk hentry ?_ ?_ hlinked htable hrefines, ?_⟩
  · exact hrel.allocated ▸ Nat.le_succ _
  · exact hrel.allocated ▸ Nat.lt_succ_self _
  · have hlist : (c.allocated :: ns).map ((c.alloc n).linkAtHead c.allocated).entryOf =
        ⟨n.key, n.value, n.accessedAt⟩ :: ns.map c.entryOf := by
      rw [List.map_cons, hnew, List.map_congr_left hentry]
    exact congr (congr (congrArg Lru.mk hlist) hrel.maxEntries) hrel.maxAgeNanos

end
end Cajeta.Collection.Cache
