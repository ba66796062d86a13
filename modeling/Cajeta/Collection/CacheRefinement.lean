import Cajeta.Collection.CacheInvariant

/-!
# `Cache` refines a bounded cache with expiry

One lemma for each operation: it ends, answers what the cache that the list stands for answers, and
leaves a list that stands for the cache after the call.
-/

namespace Cajeta.Collection.Cache
variable {K V : Type} {c c' : Cache K V} {ns pre post : List Addr}

theorem find?_lru [BEq K] (c : Cache K V) (ns : List Addr) (k : K) :
    (c.lru ns).find? k = (c.nodeOf ns k).map c.entryOf := by
  rw [Lru.find?, lru, List.find?_map]
  rfl

/-- The nodes of the list were last accessed at some time of the clock up to `now`. -/
structure Timely (c : Cache K V) (ns : List Addr) (now : Int) : Prop where
  past : ∀ e ∈ (c.lru ns).entries, 0 ≤ e.accessedAt ∧ e.accessedAt ≤ now
  clock : now < 2 ^ 63

theorem Timely.isExpired (h : Timely c ns now) (ha : a ∈ ns) :
    c.isExpired a now = (c.lru ns).expired now (c.entryOf a) := by
  have hpast := h.past _ (List.mem_map_of_mem ha)
  have hclock := h.clock
  have hdiff : (now - (c.nodes a).accessedAt).bmod (2 ^ 64) = now - (c.nodes a).accessedAt := by
    change 0 ≤ (c.nodes a).accessedAt ∧ (c.nodes a).accessedAt ≤ now at hpast
    apply Int.bmod_eq_of_le <;> omega
  unfold Cache.isExpired Lru.expired
  rw [hdiff]
  by_cases h0 : c.maxAgeNanos = 0 <;> simp [lru, entryOf, h0]

variable [Inhabited K] [BEq K] [Hashable K] {f : FinMap K (Option Addr)}

/-- The call ends, answers what the cache that `ns` stands for answers, and keeps the invariant with
a list that stands for the cache after the call. -/
def Follows [Inhabited V] (c : Cache K V) (ns : List Addr) (now : Int) (op : Lru.Op K V) : Prop :=
  ∃ c' ns' f', c.call now op = some ((c.lru ns).answer now op, c') ∧ Inv c' ns' f' ∧
    c'.lru ns' = (c.lru ns).next now op

theorem Inv.distinct_lru (h : Inv c ns f) :
    (c.lru ns).entries.Pairwise fun a b => (a.key == b.key) = false :=
  List.pairwise_map.mpr h.distinct

variable [EquivBEq K]

theorem Inv.discard_node (h : Inv c (pre ++ a :: post) f) (hk : ((c.entryOf a).key == k) = true) :
    Lru.discard [k] (c.lru (pre ++ a :: post)).entries = (c.lru (pre ++ post)).entries := by
  have hd := h.distinct_lru
  simp only [lru, List.map_append, List.map_cons] at hd ⊢
  exact Lru.discard_split hd hk

theorem Inv.touch (h : Inv c (pre ++ a :: post) f) (hkey : n.key = (c.nodes a).key)
    (hprev : n.prev = (c.nodes a).prev) (hnext : n.next = (c.nodes a).next) :
    Inv ((c.setNode a n).moveToHead a) (a :: (pre ++ post)) f ∧
      (((c.setNode a n).moveToHead a).nodes a).value = n.value ∧
      ((c.setNode a n).moveToHead a).lru (a :: (pre ++ post)) = { c.lru (pre ++ post) with
        entries := ⟨n.key, n.value, n.accessedAt⟩ :: (c.lru (pre ++ post)).entries } := by
  have hlinks : (c.setNode a n).links = c.links := by
    ext1
    all_goals
      funext x
      cases x with
      | none => rfl
      | some b => by_cases hb : b = a <;> simp [links, setNode, hb, hprev, hnext]
  have hentry : ∀ b, ((c.setNode a n).entryOf b).key = (c.entryOf b).key := by
    intro b
    by_cases hb : b = a <;> simp [entryOf, setNode, hb, hkey]
  have hinv : Inv (c.setNode a n) (pre ++ a :: post) f := by
    refine ⟨h.table, h.refines, fun k => ?_, h.size, hlinks ▸ h.linked, ?_, h.allocated⟩
    · simp only [h.lookup, nodeOf, hentry]
    · simp only [hentry]
      exact h.distinct
  obtain ⟨hmoved, hrel⟩ := hinv.moveToHead
  have hna : a ∉ pre ++ post := (List.nodup_cons.mp hmoved.linked.nodup).1
  have hself : (c.setNode a n).entryOf a = ⟨n.key, n.value, n.accessedAt⟩ := by
    simp [entryOf, setNode]
  have hothers : ∀ b ∈ pre ++ post, (c.setNode a n).entryOf b = c.entryOf b := by
    intro b hb
    have hne : b ≠ a := by
      rintro rfl
      exact hna hb
    simp [entryOf, setNode, hne]
  refine ⟨hmoved, ?_, ?_⟩
  · exact congrArg Lru.Entry.value ((congrFun hrel.entryOf a).trans hself)
  · rw [hrel.lru]
    simp only [lru, List.map_cons, hself, List.map_congr_left hothers]
    rfl

/-! ## Operations -/

variable [LawfulHashable K]

theorem Inv.find? (h : Inv c ns f) (k : K) : (c.entries.get k = some none ∧
      (c.lru ns).find? k = none) ∨
    ∃ pre a post, ns = pre ++ a :: post ∧ c.entries.get k = some (some a) ∧
      (c.lru ns).find? k = some (c.entryOf a) ∧ ((c.entryOf a).key == k) = true := by
  cases hn : c.nodeOf ns k with
  | none => exact .inl ⟨by rw [h.get, hn], by rw [find?_lru, hn]; rfl⟩
  | some a =>
    obtain ⟨hmem, hk⟩ := nodeOf_some hn
    obtain ⟨pre, post, rfl⟩ := List.append_of_mem hmem
    exact .inr ⟨pre, a, post, rfl, by rw [h.get, hn], by rw [find?_lru, hn]; rfl, hk⟩

theorem Inv.evictLru (h : Inv c (ns ++ [a]) f) :
    ∃ c' f', c.evictLru = some c' ∧ Inv c' ns f' ∧ c'.lru ns = c.lru ns := by
  obtain ⟨c', f', hdrop, hinv, hlru⟩ := h.drop (k := (c.entryOf a).key) BEq.rfl
  have hkey : ((c.unlinkOnly a).nodes a).key = (c.entryOf a).key :=
    congrArg Lru.Entry.key (congrFun ((Relinked.refl c).unlinkOnly a).entryOf a)
  rw [List.append_nil] at hinv hlru
  refine ⟨c', f', ?_, hinv, hlru⟩
  simp only [Cache.evictLru, h.lruTail, List.getLast?_concat, hkey]
  exact hdrop

variable [Inhabited V]

theorem get_spec (h : Inv c ns f) (ht : Timely c ns now) (k : K) : Follows c ns now (.get k) := by
  rcases h.find? k with ⟨hget, hfind⟩ | ⟨pre, a, post, rfl, hget, hfind, hk⟩
  · refine ⟨c, ns, f, ?_, h, ?_⟩
    · simp [call, Cache.get, hget, Lru.answer, hfind]
    · simp [Lru.next, Lru.accessed, Lru.victims, hfind, Lru.discard_nil]
  · cases he : c.isExpired a now
    · have hexp := (ht.isExpired (by simp)).symm.trans he
      obtain ⟨hinv, hself, hlru⟩ := h.touch (n := { c.nodes a with accessedAt := now }) rfl rfl rfl
      refine ⟨_, _, f, ?_, hinv, ?_⟩
      · simp [call, Cache.get, hget, he, hself, Lru.answer, hfind, hexp, Option.filter,
          value_entryOf]
      · rw [hlru]
        simp [Lru.next, Lru.accessed, Lru.victims, hfind, hexp, Lru.others, h.discard_node hk,
          Lru.discard_nil]
        exact ⟨⟨rfl, rfl⟩, rfl, rfl⟩
    · have hexp := (ht.isExpired (by simp)).symm.trans he
      obtain ⟨c', f', hdrop, hinv, hlru⟩ := h.drop hk
      refine ⟨c', _, f', ?_, hinv, ?_⟩
      · simp [call, Cache.get, hget, he, removeNode, hdrop, Lru.answer, hfind, Option.filter, hexp]
      · rw [hlru]
        simp [Lru.next, Lru.accessed, Lru.victims, hfind, hexp, h.discard_node BEq.rfl]
        rfl

theorem containsKey_spec (h : Inv c ns f) (ht : Timely c ns now) (k : K) :
    Follows c ns now (.containsKey k) := by
  refine ⟨c, ns, f, ?_, h, ?_⟩
  · rcases h.find? k with ⟨hget, hfind⟩ | ⟨pre, a, post, rfl, hget, hfind, hk⟩
    · simp [call, Cache.containsKey, hget, Lru.answer, hfind]
    · have hexp := ht.isExpired (a := a) (by simp)
      simp [call, Cache.containsKey, hget, Lru.answer, hfind, hexp]
  · simp [Lru.next, Lru.accessed, Lru.victims, Lru.discard_nil]

theorem remove_spec (h : Inv c ns f) (now : Int) (k : K) : Follows c ns now (.remove k) := by
  rcases h.find? k with ⟨hget, hfind⟩ | ⟨pre, a, post, rfl, hget, hfind, hk⟩
  · refine ⟨c, ns, f, ?_, h, ?_⟩
    · simp [call, Cache.remove, hget, Lru.answer]
    · simp [Lru.next, Lru.accessed, Lru.victims, hfind, Lru.discard_nil]
  · obtain ⟨c', f', hdrop, hinv, hlru⟩ := h.drop hk
    refine ⟨c', _, f', ?_, hinv, ?_⟩
    · simp [call, Cache.remove, hget, removeNode, hdrop, Lru.answer]
    · rw [hlru]
      simp [Lru.next, Lru.accessed, Lru.victims, hfind, h.discard_node BEq.rfl]
      rfl

theorem put_spec (h : Inv c ns f) (hb : (ns.length : Int) ≤ max c.maxEntries 0) (now : Int)
    (k : K) (v : V) : Follows c ns now (.put k v) := by
  rcases h.find? k with ⟨hget, hfind⟩ | ⟨pre, a, post, rfl, hget, hfind, hk⟩
  · have hnode : c.nodeOf ns k = none := by
      rw [find?_lru] at hfind
      exact Option.map_eq_none_iff.mp hfind
    obtain ⟨m, f', hput, hinv, hlru⟩ := h.add { key := k, value := v, accessedAt := now } hnode
    have hacc : (c.lru ns).accessed now (.put k v) = ⟨k, v, now⟩ :: (c.lru ns).entries := by
      simp [Lru.accessed, hfind, Lru.others_of_find?_eq_none hfind]
    generalize hc₂ : ({ (c.alloc ⟨k, v, now, none, none⟩).linkAtHead c.allocated with
      entries := m } : Cache K V) = c₂ at hinv hlru
    have hcall : c.call now (.put k v) = (if (c₂.count : Int) > c₂.maxEntries then c₂.evictLru
        else some c₂).map (.unit, ·) := by
      simp [call, Cache.put, hget, hput, ← hc₂, Cache.count]
    have hlist : (c₂.lru (c.allocated :: ns)).entries = (c.lru ns).accessed now (.put k v) :=
      (congrArg Lru.entries hlru).trans hacc.symm
    have hmax : c₂.maxEntries = (c.lru ns).maxEntries := congrArg Lru.maxEntries hlru
    have hlen : ((c.lru ns).accessed now (.put k v)).length = c₂.count := by
      rw [← hlist, hinv.count]
      simp [lru]
    by_cases hover : (c₂.count : Int) > c₂.maxEntries
    · obtain ⟨es, a, hes⟩ : ∃ es a, c.allocated :: ns = es ++ [a] :=
        List.eq_nil_or_concat' _ |>.resolve_left (List.cons_ne_nil _ _)
      rw [hes] at hinv hlru hlist
      obtain ⟨c', f'', hevict, hinv', hlru'⟩ := hinv.evictLru
      refine ⟨c', es, f'', by rw [hcall, if_pos hover, hevict]; rfl, hinv', ?_⟩
      have hsplit : (c.lru ns).accessed now (.put k v) = es.map c₂.entryOf ++ [c₂.entryOf a] := by
        rw [← hlist, lru, List.map_append]
        rfl
      have hd := hinv.distinct_lru
      rw [hlist, hsplit] at hd
      rw [hlru', Lru.next_put_over (by rwa [hlen, ← hmax]) hsplit hd]
      simp only [lru, hmax]
      rw [show c₂.maxAgeNanos = c.maxAgeNanos from congrArg Lru.maxAge hlru]
    · refine ⟨c₂, _, f', by rw [hcall, if_neg hover]; rfl, hinv, ?_⟩
      rw [hlru, Lru.next_put_within (by rw [hlen, ← hmax]; exact not_lt.mp hover), hacc]
  · obtain ⟨hinv, -, hlru⟩ :=
      h.touch (n := { c.nodes a with value := v, accessedAt := now }) rfl rfl rfl
    have hacc : ((c.lru (pre ++ a :: post)).accessed now (.put k v)) =
        ⟨(c.entryOf a).key, v, now⟩ :: (c.lru (pre ++ post)).entries := by
      simp [Lru.accessed, hfind, Lru.others, h.discard_node hk]
    have hroom : (((c.lru (pre ++ a :: post)).accessed now (.put k v)).length : Int) ≤
        c.maxEntries := by
      rw [hacc]
      simp only [lru, List.length_cons, List.length_map, List.length_append] at hb ⊢
      omega
    refine ⟨_, _, f, ?_, hinv, ?_⟩
    · simp [call, Cache.put, hget, Lru.answer, setNode]
    · rw [hlru]
      rw [Lru.next_put_within hroom, hacc]
      rfl

omit [Inhabited V] in
theorem evictLoop_spec (h : Inv c ns f) (ht : Timely c ns now) (hfuel : ns.length < fuel) :
    ∃ c' ns' f', evictLoop now fuel ns.getLast? c = some c' ∧ Inv c' ns' f' ∧
      c'.lru ns' = { c.lru ns with
        entries := (c.lru ns).entries.rdropWhile ((c.lru ns).expired now) } := by
  induction ns using List.reverseRecOn generalizing c f fuel with
  | nil =>
    cases fuel with
    | zero => cases hfuel
    | succ fuel => exact ⟨c, [], f, rfl, h, rfl⟩
  | append_singleton ns a ih =>
    cases fuel with
    | zero => cases hfuel
    | succ fuel =>
      have hexp := ht.isExpired (a := a) (by simp)
      have hentries : (c.lru (ns ++ [a])).entries = (c.lru ns).entries ++ [c.entryOf a] :=
        List.map_append
      rw [List.getLast?_concat]
      cases he : c.isExpired a now
      · rw [he] at hexp
        refine ⟨c, ns ++ [a], f, by simp [evictLoop, he], h, ?_⟩
        rw [hentries, List.rdropWhile_concat_neg _ _ _ (by simp [← hexp]), ← hentries]
      · rw [he] at hexp
        obtain ⟨c', f', hdrop, hinv, hlru⟩ := h.drop (k := (c.entryOf a).key) BEq.rfl
        have hkey : ((c.unlinkOnly a).nodes a).key = (c.entryOf a).key :=
          congrArg Lru.Entry.key (congrFun ((Relinked.refl c).unlinkOnly a).entryOf a)
        have hprev : (c.nodes a).prev = ns.getLast? := h.linked.prev_eq
        rw [List.append_nil] at hinv hlru
        have ht' : Timely c' ns now := by
          refine ⟨fun e he => ht.past e ?_, ht.clock⟩
          rw [hentries]
          exact List.mem_append_left _ (hlru ▸ he)
        have hlt : ns.length < fuel := by simpa using hfuel
        obtain ⟨c'', ns', f'', hloop, hinv', hlru'⟩ := ih hinv ht' hlt
        refine ⟨c'', ns', f'', ?_, hinv', ?_⟩
        · simp [evictLoop, he, removeNode, hkey, hdrop, hprev, hloop]
        · rw [hlru', hlru, hentries, List.rdropWhile_concat_pos _ _ _ hexp.symm]
          rfl

theorem evict_spec (h : Inv c ns f) (ht : Timely c ns now)
    (hc : (c.lru ns).entries.Pairwise fun a b => b.accessedAt ≤ a.accessedAt) :
    Follows c ns now .evict := by
  have hnext := Lru.next_evict h.distinct_lru hc now
  by_cases h0 : c.maxAgeNanos = 0
  · refine ⟨c, ns, f, by simp [call, Cache.evict, h0, Lru.answer], h, ?_⟩
    have hno : ∀ e ∈ (c.lru ns).entries, (c.lru ns).expired now e = false := by
      simp [Lru.expired, lru, h0]
    simp [Lru.next, Lru.accessed, Lru.victims, List.filter_eq_nil_iff.mpr (by simpa using hno),
      Lru.discard_nil]
  · obtain ⟨c', ns', f', hloop, hinv, hlru⟩ := evictLoop_spec h ht (Nat.lt_succ_self _)
    refine ⟨c', ns', f', ?_, hinv, hlru.trans hnext.symm⟩
    simp only [call, Cache.evict, h0, if_false, h.lruTail, h.count, hloop]
    rfl

omit [LawfulHashable K] in
theorem clear_spec (h : Inv c ns f) (now : Int) : Follows c ns now .clear := by
  have hnew : (HashMap.new 16 : Option (HashMap K (Option Addr))) = some (HashMap.fresh 16) := rfl
  refine ⟨{ c with entries := .fresh 16, mruHead := none, lruTail := none }, [], .empty, ?_,
    ⟨HashMap.inv_fresh (k := 0) rfl, HashMap.refines_fresh, fun _ => rfl, rfl,
      ⟨⟨rfl, rfl⟩, .nil⟩, .nil,
      nofun⟩, ?_⟩
  · simp [call, Cache.clear, hnew, Lru.answer]
  · have hall := Lru.discard_keys h.distinct_lru fun _ => true
    simp only [List.filter_true, Bool.not_true, List.filter_false] at hall
    simp [Lru.next, Lru.accessed, Lru.victims, hall]
    rfl

theorem call_spec (h : Inv c ns f) (ht : Timely c ns now)
    (hb : (ns.length : Int) ≤ max c.maxEntries 0)
    (hc : (c.lru ns).entries.Pairwise fun a b => b.accessedAt ≤ a.accessedAt) (op : Lru.Op K V) :
    Follows c ns now op := by
  cases op with
  | put k v => exact put_spec h hb now k v
  | get k => exact get_spec h ht k
  | containsKey k => exact containsKey_spec h ht k
  | remove k => exact remove_spec h now k
  | evict => exact evict_spec h ht hc
  | clear => exact clear_spec h now
  | setMaxAge maxAge =>
    refine ⟨c.setMaxAge maxAge, ns, f, rfl, ⟨h.table, h.refines, h.lookup, h.size, h.linked,
      h.distinct, h.allocated⟩, ?_⟩
    simp [Lru.next, Lru.accessed, Lru.victims, Lru.discard_nil]
    rfl
  | count =>
    refine ⟨c, ns, f, ?_, h, ?_⟩
    · simp [call, h.count, Lru.answer, lru]
    · simp [Lru.next, Lru.accessed, Lru.victims, Lru.discard_nil]

end Cajeta.Collection.Cache

/-!
## What `Cache` guarantees

Over every run of calls on a clock that does not go back: the list holds the keys of the map once
each and in order of last access, the bound is kept, and what a call returns and discards is what
the history of the calls says.
-/

namespace Cajeta.Collection.Cache
variable {K V : Type} [Inhabited K] [BEq K] [Hashable K]

variable [Inhabited V]

/-- The caches that calls lead to from a new one, with the history of the calls, newest first. The
clock is an `int64` of nanoseconds that is not negative and does not go back. -/
inductive Run (bound : Int) : List (Lru.Event K V) → Cache K V → Prop where
  | new : new bound = some c → Run bound [] c
  | call : Run bound h c → (∀ ev ∈ h, ev.time ≤ now) → 0 ≤ now → now < 2 ^ 63 →
      c.call now op = some (ret, c') →
      Run bound (⟨now, op, ret, (c.lru c.list).victims now op⟩ :: h) c'

section
variable [EquivBEq K] [LawfulHashable K] {c : Cache K V} {h : List (Lru.Event K V)}

/-- What holds along a run. -/
structure Tracks (bound : Int) (h : List (Lru.Event K V)) (c : Cache K V) : Prop where
  inv : ∃ f, Inv c c.list f
  explains : Lru.Explains h (c.lru c.list)
  maxEntries : c.maxEntries = bound
  nonneg : ∀ ev ∈ h, 0 ≤ ev.time

omit [Inhabited V] [EquivBEq K] [LawfulHashable K] in
theorem Tracks.timely (ht : Tracks bound h c) (hnow : ∀ ev ∈ h, ev.time ≤ now)
    (hclock : now < 2 ^ 63) : Timely c c.list now := by
  refine ⟨fun e he => ?_, hclock⟩
  obtain ⟨ev, hev, htime⟩ := ht.explains.past he
  exact htime ▸ ⟨ht.nonneg ev hev, hnow ev hev⟩

theorem Tracks.call (ht : Tracks bound h c) (hnow : ∀ ev ∈ h, ev.time ≤ now) (h0 : 0 ≤ now)
    (hclock : now < 2 ^ 63) (op : Lru.Op K V) :
    ∃ c', c.call now op = some ((c.lru c.list).answer now op, c') ∧
      c'.lru c'.list = (c.lru c.list).next now op ∧
      Tracks bound ((c.lru c.list).event now op :: h) c' := by
  obtain ⟨f, hinv⟩ := ht.inv
  have hb : (c.list.length : Int) ≤ max c.maxEntries 0 := by
    have hb := ht.explains.bounded
    rwa [lru, List.length_map] at hb
  obtain ⟨c', ns', f', hcall, hinv', hlru⟩ :=
    call_spec hinv (ht.timely hnow hclock) hb ht.explains.clock op
  obtain rfl := hinv'.list
  refine ⟨c', hcall, hlru, ⟨f', hinv'⟩, hlru ▸ ht.explains.next hnow op, ?_, fun ev hev => ?_⟩
  · exact (congrArg Lru.maxEntries hlru).trans ht.maxEntries
  · rcases List.mem_cons.mp hev with rfl | hev
    · exact h0
    · exact ht.nonneg ev hev

theorem Run.tracks (hrun : Run bound h c) : Tracks bound h c := by
  induction hrun with
  | new hnew =>
    obtain rfl := Option.some.inj hnew
    exact ⟨⟨.empty, HashMap.inv_fresh (k := 0) rfl, HashMap.refines_fresh, fun _ => rfl, rfl,
      ⟨⟨rfl, rfl⟩, .nil⟩, .nil, nofun⟩, Lru.explains_empty _ _, rfl, nofun⟩
  | call _ hnow h0 hclock hcall ih =>
    obtain ⟨c', hcall', -, htracks⟩ := ih.call hnow h0 hclock _
    obtain ⟨rfl, rfl⟩ := Prod.mk.inj (Option.some.inj (hcall.symm.trans hcall'))
    exact htracks

/-- In every run: the list is linked both ways and holds each key of the map once, in order of last
access; there are no more entries than the bound, or none when it is negative; and whatever is
called next ends, makes its access and discards its victims and nothing else, a look-up returning
the last value put unless that was discarded or is expired. -/
theorem cache_bounded_lru (hrun : Run bound h c) :
    c.links.Linked c.list ∧ c.count = c.list.length ∧
    (∀ k, c.entries.get k = some (c.list.find? fun a => (c.nodes a).key == k)) ∧
    c.list.Pairwise (fun a b => ((c.nodes a).key == (c.nodes b).key) = false) ∧
    c.list.Pairwise (fun a b => Lru.MoreRecent h (c.nodes a).key (c.nodes b).key) ∧
    (c.count : Int) ≤ max bound 0 ∧
    ∀ now op, (∀ ev ∈ h, ev.time ≤ now) → 0 ≤ now → now < 2 ^ 63 →
      ∃ ret c', c.call now op = some (ret, c') ∧
        c'.lru c'.list = (c.lru c.list).next now op ∧
        (∀ k, (c'.nodeOf c'.list k).isSome = true ↔
          (((c.lru c.list).event now op).putValue k).isSome = true ∧
              ((c.lru c.list).victims now op).any (· == k) = false ∨
            (c.nodeOf c.list k).isSome = true ∧
              ((c.lru c.list).victims now op).any (· == k) = false) ∧
        ∀ k v, op = .get k → (ret = .value (some v) ↔
          Lru.remembered h k = some v ∧
            ¬ Lru.ExpiredAt c.maxAgeNanos now (Lru.lastAccess h k)) := by
  have ht := hrun.tracks
  obtain ⟨f, hinv⟩ := ht.inv
  have hcount : (c.count : Int) ≤ max bound 0 := by
    have hb := ht.explains.bounded
    rw [hinv.count, ← ht.maxEntries]
    rwa [lru, List.length_map] at hb
  refine ⟨hinv.linked, hinv.count, hinv.get, hinv.distinct, ?_,
    hcount, fun now op hnow h0 hclock => ?_⟩
  · have horder := ht.explains.order
    rwa [lru, List.pairwise_map] at horder
  obtain ⟨c', hcall, hlru, -⟩ := ht.call hnow h0 hclock op
  refine ⟨_, c', hcall, hlru, fun k => ?_, fun k v hop => ?_⟩
  · have hnext := Lru.find?_next_isSome (c.lru c.list) now op k
    rw [← hlru, find?_lru, find?_lru, Option.isSome_map, Option.isSome_map] at hnext
    rw [hnext, or_and_right]
  · subst hop
    exact ht.explains.answer_get now k v

end

def runCalls (bound : Int) : List (Int × Lru.Op K V) → Option (List (Lru.Event K V) × Cache K V)
  | [] => (new bound).map ([], ·)
  | (now, op) :: calls => do
    let (h, c) ← runCalls bound calls
    if (∀ ev ∈ h, ev.time ≤ now) ∧ 0 ≤ now ∧ now < 2 ^ 63 then
      let (ret, c') ← c.call now op
      return (⟨now, op, ret, (c.lru c.list).victims now op⟩ :: h, c')
    else none

theorem Run.of_runCalls {c : Cache K V} {calls : List (Int × Lru.Op K V)}
    (hcalls : runCalls bound calls = some (h, c)) : Run bound h c := by
  induction calls generalizing h c with
  | nil =>
    simp only [runCalls, Option.map_eq_some_iff, Prod.mk.injEq] at hcalls
    obtain ⟨c', hnew, rfl, rfl⟩ := hcalls
    exact .new hnew
  | cons call calls ih =>
    simp only [runCalls, Option.bind_eq_bind, Option.bind_eq_some_iff, Prod.exists] at hcalls
    obtain ⟨h₀, c₀, hold, hcalls⟩ := hcalls
    split at hcalls
    · next hclock =>
      simp only [Option.bind_eq_some_iff, Prod.exists, Option.pure_def, Option.some.injEq,
        Prod.mk.injEq] at hcalls
      obtain ⟨ret, c₁, hcall, rfl, rfl⟩ := hcalls
      exact .call (ih hold) hclock.1 hclock.2.1 hclock.2.2 hcall
    · cases hcalls

/-- A bound of one: the second key put discards the first, and is found. -/
theorem cache_bounded_lru_sample : ∃ (h : List (Lru.Event Nat Nat)) (c : Cache Nat Nat),
    runCalls 1 [(5, .put 8 2), (0, .put 7 1)] = some (h, c) ∧ (c.count : Int) ≤ 1 ∧
    ∃ c', c.call 9 (.get 8) = some (.value (some 2), c') := by
  have hcomputed : (runCalls 1 [(5, .put 8 2), (0, .put 7 1)]).map
      (fun r : List (Lru.Event Nat Nat) × Cache Nat Nat =>
        (r.1.map (·.time), Lru.remembered r.1 8, r.2.maxAgeNanos)) =
      some ([5, 0], some 2, 0) := by decide +kernel
  obtain ⟨⟨h, c⟩, hcalls, hfacts⟩ := Option.map_eq_some_iff.mp hcomputed
  simp only [Prod.mk.injEq] at hfacts
  obtain ⟨htimes, hrem, hage⟩ := hfacts
  obtain ⟨-, -, -, -, -, hcount, hall⟩ := cache_bounded_lru (.of_runCalls hcalls)
  obtain ⟨ret, c', hcall, -, -, hget⟩ := hall 9 (.get 8) (fun ev hev => by
    have hmem := List.mem_map_of_mem (f := (·.time)) hev
    rw [htimes] at hmem
    rcases List.mem_cons.mp hmem with h | h <;> simp_all) (by decide) (by decide)
  refine ⟨h, c, hcalls, by simpa using hcount, c', ?_⟩
  rw [hcall, (hget 8 2 rfl).mpr ⟨hrem, fun hexp => hexp.1 hage⟩]

/-- With a negative bound a put leaves no entry, which is still more than the bound. -/
theorem negative_bound_exceeded : ¬ ∀ (bound : Int) (h : List (Lru.Event Nat Nat))
    (c c' : Cache Nat Nat) (now : Int) (k v : Nat), Run bound h c → (∀ ev ∈ h, ev.time ≤ now) →
      0 ≤ now → now < 2 ^ 63 → c.call now (.put k v) = some (.unit, c') →
      (c'.count : Int) ≤ bound := by
  intro hall
  have hcomputed : ((new (-1)).bind fun c : Cache Nat Nat => c.call 0 (.put 7 1)).map
      (fun r => (r.1, r.2.count)) = some (.unit, 0) := by decide +kernel
  obtain ⟨⟨ret, c'⟩, hbind, hfacts⟩ := Option.map_eq_some_iff.mp hcomputed
  obtain ⟨c, hnew, hcall⟩ := Option.bind_eq_some_iff.mp hbind
  obtain ⟨rfl, hcount⟩ := Prod.mk.inj hfacts
  have hle := hall (-1) [] c c' 0 7 1 (.new hnew) nofun (by decide) (by decide) hcall
  rw [show c'.count = 0 from hcount] at hle
  exact absurd hle (by decide)

end Cajeta.Collection.Cache
