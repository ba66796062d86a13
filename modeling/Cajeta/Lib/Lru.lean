import Mathlib.Data.List.DropRight
import Mathlib.Data.List.Pairwise
import Mathlib.Order.Lattice
import Mathlib.Tactic.Common

/-!
# Bounded caches that forget the least recently used

What a bounded cache with expiry is for: its entries in order of last access, a call that moves the
entry it accesses to the front, and the victims a call discards. The history of the calls explains
the state: the order is the order of last access, and what is remembered under a key is the last
value put there unless the key was discarded since.
-/

namespace Lru

structure Entry (K V : Type*) where
  key : K
  value : V
  accessedAt : Int

inductive Op (K V : Type*) where
  | put (key : K) (value : V)
  | get (key : K)
  | containsKey (key : K)
  | remove (key : K)
  | evict
  | clear
  | setMaxAge (maxAge : Int)
  | count

inductive Ret (V : Type*) where
  | unit
  | value (v : Option V)
  | bool (b : Bool)
  | int (n : Nat)
  deriving DecidableEq

end Lru

/-- The entries, the one accessed last first. An age limit of 0 is none. -/
structure Lru (K V : Type*) where
  entries : List (Lru.Entry K V)
  maxEntries : Int
  maxAge : Int

namespace Lru
variable {K V : Type*} [BEq K]

def expired (c : Lru K V) (now : Int) (e : Entry K V) : Bool :=
  c.maxAge ≠ 0 && now - e.accessedAt > c.maxAge

def find? (c : Lru K V) (k : K) : Option (Entry K V) := c.entries.find? (·.key == k)

/-- The entries that are under none of the keys. -/
def discard (ks : List K) (es : List (Entry K V)) : List (Entry K V) :=
  es.filter fun e => !ks.any (· == e.key)

def others (c : Lru K V) (k : K) : List (Entry K V) := discard [k] c.entries

/-- The entries once a call has made its access and before it discards any. -/
def accessed (c : Lru K V) (now : Int) : Op K V → List (Entry K V)
  | .put k v => ⟨(c.find? k).elim k (·.key), v, now⟩ :: c.others k
  | .get k =>
    match c.find? k with
    | some e => if c.expired now e then c.entries else { e with accessedAt := now } :: c.others k
    | none => c.entries
  | _ => c.entries

/-- The keys a call discards: of a put over the bound the least recently used one, of an eviction
those that are expired, of a look-up the one it finds expired. -/
def victims (c : Lru K V) (now : Int) : Op K V → List K
  | .put k v =>
    if ((c.accessed now (.put k v)).length : Int) > c.maxEntries then
      ((c.accessed now (.put k v)).getLast?.map (·.key)).toList
    else []
  | .get k => (c.find? k).toList.filter (c.expired now) |>.map (·.key)
  | .remove k => (c.find? k).toList.map (·.key)
  | .evict => (c.entries.filter (c.expired now)).map (·.key)
  | .clear => c.entries.map (·.key)
  | _ => []

def answer (c : Lru K V) (now : Int) : Op K V → Ret V
  | .get k => .value (((c.find? k).filter (!c.expired now ·)).map (·.value))
  | .containsKey k => .bool ((c.find? k).any (!c.expired now ·))
  | .count => .int c.entries.length
  | _ => .unit

/-- The cache after a call: the access is made, the victims are dropped. -/
def next (c : Lru K V) (now : Int) (op : Op K V) : Lru K V where
  entries := discard (c.victims now op) (c.accessed now op)
  maxEntries := c.maxEntries
  maxAge := match op with
    | .setMaxAge maxAge => maxAge
    | _ => c.maxAge

/-- A call that was made: when, what it returned and what it discarded. -/
structure Event (K V : Type*) where
  time : Int
  op : Op K V
  ret : Ret V
  victims : List K

/-- A put accesses its key, and so does a look-up that finds it. -/
def Event.accesses (e : Event K V) (k : K) : Bool :=
  match e.op, e.ret with
  | .put k' _, _ => k' == k
  | .get k', .value (some _) => k' == k
  | _, _ => false

def Event.putValue (e : Event K V) (k : K) : Option V :=
  match e.op with
  | .put k' v => if k' == k then some v else none
  | _ => none

def Event.discards (e : Event K V) (k : K) : Bool := e.victims.any (· == k)

def lastAccess (h : List (Event K V)) (k : K) : Option Int :=
  (h.find? (·.accesses k)).map (·.time)

/-- The last value put under a key, unless the key was discarded since. -/
def remembered (h : List (Event K V)) (k : K) : Option V :=
  match h with
  | [] => none
  | e :: h => if e.discards k then none else (e.putValue k).or (remembered h k)

/-- The last access to `a` is newer than every access to `b`. -/
def MoreRecent (h : List (Event K V)) (a b : K) : Prop :=
  ∃ newer e older, h = newer ++ e :: older ∧ e.accesses a = true ∧
    ∀ e' ∈ newer ++ [e], e'.accesses b = false

variable {hist : List (Event K V)} {ev : Event K V}

theorem MoreRecent.cons (h : MoreRecent hist a b) (hev : ev.accesses b = false) :
    MoreRecent (ev :: hist) a b := by
  obtain ⟨newer, e₀, older, rfl, ha, hb⟩ := h
  refine ⟨ev :: newer, e₀, older, rfl, ha, fun e' he' => ?_⟩
  rcases List.mem_cons.mp he' with rfl | he'
  · exact hev
  · exact hb e' he'

theorem MoreRecent.first (ha : ev.accesses a = true) (hb : ev.accesses b = false) :
    MoreRecent (ev :: hist) a b := by
  refine ⟨[], ev, hist, rfl, ha, fun e' he' => ?_⟩
  obtain rfl : e' = ev := by simpa using he'
  exact hb

theorem lastAccess_cons : lastAccess (ev :: hist) k =
    if ev.accesses k then some ev.time else lastAccess hist k := by
  simp only [lastAccess, List.find?_cons]
  cases ev.accesses k <;> rfl

/-- The history accounts for the state. -/
structure Explains (h : List (Event K V)) (c : Lru K V) : Prop where
  distinct : c.entries.Pairwise fun a b => (a.key == b.key) = false
  order : c.entries.Pairwise fun a b => MoreRecent h a.key b.key
  value : ∀ k, remembered h k = (c.find? k).map (·.value)
  time : ∀ e ∈ c.entries, lastAccess h e.key = some e.accessedAt
  clock : c.entries.Pairwise fun a b => b.accessedAt ≤ a.accessedAt
  bounded : (c.entries.length : Int) ≤ max c.maxEntries 0

theorem Explains.past {c : Lru K V} (h : Explains hist c) (he : e ∈ c.entries) :
    ∃ ev ∈ hist, ev.time = e.accessedAt := by
  obtain ⟨ev, hfind, htime⟩ := Option.map_eq_some_iff.mp (h.time e he)
  exact ⟨ev, List.mem_of_find?_eq_some hfind, htime⟩

theorem explains_empty (n a : Int) : Explains [] (⟨[], n, a⟩ : Lru K V) where
  distinct := .nil
  order := .nil
  value _ := rfl
  time := nofun
  clock := .nil
  bounded := le_sup_right

/-! ## One call -/

variable {c : Lru K V} {e : Entry K V}

theorem mem_others : e ∈ c.others k ↔ e ∈ c.entries ∧ (k == e.key) = false := by
  simp [others, discard]

theorem find?_key (h : c.find? k = some e) : e ∈ c.entries ∧ (e.key == k) = true :=
  ⟨List.mem_of_find?_eq_some h, by simpa using List.find?_some h⟩

theorem length_others_le : (c.others k).length ≤ c.entries.length := List.length_filter_le _ _

theorem length_others_lt [EquivBEq K] (h : c.find? k = some e) :
    (c.others k).length < c.entries.length := by
  obtain ⟨hmem, hkey⟩ := find?_key h
  refine List.length_filter_lt_length_iff_exists.mpr ⟨e, hmem, ?_⟩
  simp [BEq.symm hkey]

theorem discard_nil (es : List (Entry K V)) : discard [] es = es := by
  simp [discard]

theorem next_sublist : (c.next now op).entries.Sublist (c.accessed now op) := List.filter_sublist

section
variable [EquivBEq K]

theorem find?_discard (ks : List K) (es : List (Entry K V)) (k : K) :
    (discard ks es).find? (·.key == k) =
      if ks.any (· == k) then none else es.find? (·.key == k) := by
  induction es with
  | nil => simp [discard]
  | cons e es ih =>
    rw [discard] at ih ⊢
    by_cases hk : (e.key == k) = true
    · have hany : ks.any (· == e.key) = ks.any (· == k) :=
        congrArg ks.any (funext fun k' => BEq.congr_right hk)
      cases hks : ks.any (· == k)
      · simp [hany, hks, hk]
      · simpa [hany, hks] using ih
    · cases hks : ks.any (· == e.key)
      · simpa [hks, hk] using ih
      · simpa [hks, hk] using ih

theorem find?_others (k k' : K) :
    (c.others k).find? (·.key == k') = if k == k' then none else c.find? k' := by
  simpa [others, find?] using find?_discard [k] c.entries k'

theorem discard_split {pre post : List (Entry K V)}
    (hd : (pre ++ e :: post).Pairwise fun a b => (a.key == b.key) = false)
    (hk : (e.key == k) = true) : discard [k] (pre ++ e :: post) = pre ++ post := by
  obtain ⟨-, hpost, hcross⟩ := List.pairwise_append.mp hd
  have hkeep : ∀ es : List (Entry K V), (∀ b ∈ es, (e.key == b.key) = false) →
      es.filter (fun b => !([k].any (· == b.key))) = es := by
    intro es hes
    refine List.filter_eq_self.mpr fun b hb => ?_
    simpa [← BEq.congr_left hk] using hes b hb
  rw [discard, List.filter_append, List.filter_cons,
    hkeep pre fun b hb => BEq.symm_false (hcross b hb e List.mem_cons_self),
    hkeep post (List.pairwise_cons.mp hpost).1]
  simp [BEq.symm hk]

omit [EquivBEq K] in
theorem next_put_within {k : K} {v : V}
    (h : ((c.accessed now (.put k v)).length : Int) ≤ c.maxEntries) :
    c.next now (.put k v) = { c with entries := c.accessed now (.put k v) } := by
  simp only [next, victims, if_neg (not_lt.mpr h), discard_nil]

theorem next_put_over {k : K} {v : V}
    (h : ((c.accessed now (.put k v)).length : Int) > c.maxEntries)
    (hlast : c.accessed now (.put k v) = es ++ [e])
    (hd : (es ++ [e]).Pairwise fun a b => (a.key == b.key) = false) :
    c.next now (.put k v) = { c with entries := es } := by
  have hdrop := discard_split hd (BEq.rfl : (e.key == e.key) = true)
  rw [List.append_nil] at hdrop
  rw [hlast] at h
  simp only [next, victims, hlast, if_pos h, List.getLast?_concat, Option.map_some,
    Option.toList_some, hdrop]

theorem others_of_find?_eq_none (h : c.find? k = none) : c.others k = c.entries := by
  refine List.filter_eq_self.mpr fun e he => ?_
  have hne := List.find?_eq_none.mp h e he
  simpa using BEq.symm_false (by simpa using hne)

theorem discard_keys {es : List (Entry K V)}
    (hd : es.Pairwise fun a b => (a.key == b.key) = false) (p : Entry K V → Bool) :
    discard ((es.filter p).map (·.key)) es = es.filter (!p ·) := by
  refine List.filter_congr fun e he => ?_
  congr 1
  rw [Bool.eq_iff_iff, List.any_map, List.any_eq_true]
  refine ⟨fun ⟨e', he', hk⟩ => ?_, fun hp => ⟨e, List.mem_filter.mpr ⟨he, hp⟩, BEq.rfl⟩⟩
  obtain ⟨hmem, hp⟩ := List.mem_filter.mp he'
  by_cases hee : e' = e
  · exact hee ▸ hp
  · have : Std.Symm fun a b : Entry K V => (a.key == b.key) = false := ⟨fun _ _ => BEq.symm_false⟩
    cases hk.symm.trans (hd.forall hmem he hee)

omit [BEq K] [EquivBEq K] in
theorem rdropWhile_eq_filter {es : List (Entry K V)} {p : Entry K V → Bool}
    (h : es.Pairwise fun a b => p a = true → p b = true) :
    es.rdropWhile p = es.filter (!p ·) := by
  induction es using List.reverseRecOn with
  | nil => rfl
  | append_singleton es e ih =>
    obtain ⟨hes, -, hlast⟩ := List.pairwise_append.mp h
    rw [List.filter_append]
    cases hp : p e
    · have hnone : es.filter (!p ·) = es := by
        refine List.filter_eq_self.mpr fun a ha => ?_
        cases hpa : p a
        · rfl
        · cases hp.symm.trans (hlast a ha e List.mem_cons_self hpa)
      rw [List.rdropWhile_concat_neg _ _ _ (by simp [hp]), hnone]
      simp [hp]
    · rw [List.rdropWhile_concat_pos _ _ _ hp, ih hes]
      simp [hp]

theorem next_evict (hd : c.entries.Pairwise fun a b => (a.key == b.key) = false)
    (hc : c.entries.Pairwise fun a b => b.accessedAt ≤ a.accessedAt) (now : Int) :
    c.next now .evict = { c with entries := c.entries.rdropWhile (c.expired now) } := by
  have hmono : c.entries.Pairwise fun a b => c.expired now a = true → c.expired now b = true := by
    refine hc.imp fun {a b} hab hexp => ?_
    simp only [expired, Bool.and_eq_true, decide_eq_true_eq] at hexp ⊢
    exact ⟨hexp.1, by omega⟩
  rw [rdropWhile_eq_filter hmono, ← discard_keys hd]
  rfl

/-- The event that records a call. -/
def event (c : Lru K V) (now : Int) (op : Op K V) : Event K V :=
  ⟨now, op, c.answer now op, c.victims now op⟩

theorem accessed_cases (c : Lru K V) (now : Int) (op : Op K V) :
    (c.accessed now op = c.entries ∧ ∀ k, (c.event now op).accesses k = false) ∨
    ∃ x k, c.accessed now op = x :: c.others k ∧ (x.key == k) = true ∧ x.accessedAt = now ∧
      ∀ k', (c.event now op).accesses k' = (k == k') := by
  cases op with
  | put k v =>
    refine .inr ⟨_, k, rfl, ?_, rfl, fun _ => rfl⟩
    cases hf : c.find? k with
    | none => exact BEq.rfl
    | some e => exact (find?_key hf).2
  | get k =>
    cases hf : c.find? k with
    | none => exact .inl ⟨by simp [accessed, hf], by simp [event, answer, hf, Event.accesses]⟩
    | some e =>
      cases he : c.expired now e
      · exact .inr ⟨{ e with accessedAt := now }, k, by simp [accessed, hf, he], (find?_key hf).2,
          rfl, fun k' => by simp [event, answer, hf, he, Event.accesses, Option.filter]⟩
      · exact .inl ⟨by simp [accessed, hf, he], by simp [event, answer, hf, he, Event.accesses,
          Option.filter]⟩
  | _ => exact .inl ⟨rfl, fun _ => rfl⟩

theorem find?_accessed (c : Lru K V) (now : Int) (op : Op K V) (k : K) :
    ((c.accessed now op).find? (·.key == k)).map (·.value) =
      ((c.event now op).putValue k).or ((c.find? k).map (·.value)) := by
  cases op with
  | put k' v =>
    have hkey : ((c.find? k').elim k' (·.key) == k) = (k' == k) := by
      cases hf : c.find? k' with
      | none => rfl
      | some e => exact BEq.congr_left (find?_key hf).2
    simp only [accessed, List.find?_cons, hkey, event, Event.putValue, find?_others]
    cases k' == k <;> rfl
  | get k' =>
    simp only [accessed, event, Event.putValue, Option.none_or]
    cases hf : c.find? k' with
    | none => rfl
    | some e =>
      dsimp only
      split
      · rfl
      · simp only [List.find?_cons, find?_others, BEq.congr_left (find?_key hf).2]
        cases hk : k' == k
        · rfl
        · have : c.find? k = c.find? k' := by
            unfold find?
            congr 1
            funext e
            exact (BEq.congr_right hk).symm
          simp [this, hf]
  | _ => simp [accessed, event, Event.putValue, find?]

/-- No call leaves more entries than the bound, as the only one that adds an entry is a put. -/
theorem bounded_next (c : Lru K V) (hb : (c.entries.length : Int) ≤ max c.maxEntries 0)
    (now : Int) (op : Op K V) :
    ((c.next now op).entries.length : Int) ≤ max (c.next now op).maxEntries 0 := by
  have hle : (c.next now op).entries.length ≤ (c.accessed now op).length :=
    next_sublist.length_le
  cases op with
  | put k v =>
    have hlen : (c.accessed now (.put k v)).length = (c.others k).length + 1 := rfl
    have hothers := length_others_le (c := c) (k := k)
    by_cases hover : ((c.accessed now (.put k v)).length : Int) > c.maxEntries
    · have hlt : (c.next now (.put k v)).entries.length < (c.accessed now (.put k v)).length := by
        obtain ⟨x, hx⟩ : ∃ x, (c.accessed now (.put k v)).getLast? = some x :=
          Option.isSome_iff_exists.mp (by simp [accessed])
        refine List.length_filter_lt_length_iff_exists.mpr ⟨x, List.mem_of_getLast? hx, ?_⟩
        simp [victims, hover, hx]
      change ((c.next now (.put k v)).entries.length : Int) ≤ max c.maxEntries 0
      omega
    · change ((c.next now (.put k v)).entries.length : Int) ≤ max c.maxEntries 0
      omega
  | get k =>
    have hacc : (c.accessed now (.get k)).length ≤ c.entries.length := by
      cases hf : c.find? k with
      | none => simp [accessed, hf]
      | some e =>
        have hlt := length_others_lt hf
        simp only [accessed, hf]
        split
        · exact Nat.le_refl _
        · exact hlt
    change ((c.next now (.get k)).entries.length : Int) ≤ max c.maxEntries 0
    omega
  | _ => exact (Int.ofNat_le.mpr hle).trans hb

/-- The history goes on accounting for the state, when time does not go back. -/
theorem Explains.next (h : Explains hist c) (hnow : ∀ ev ∈ hist, ev.time ≤ now) (op : Op K V) :
    Explains (c.event now op :: hist) (c.next now op) := by
  have hold : ∀ e ∈ c.entries, e.accessedAt ≤ now := by
    intro e he
    obtain ⟨ev, hev, htime⟩ := h.past he
    exact htime ▸ hnow ev hev
  have hvalue : ∀ k, remembered (c.event now op :: hist) k =
      ((c.next now op).find? k).map (·.value) := by
    intro k
    simp only [find?, Lru.next, find?_discard, remembered, Event.discards]
    change (if (c.victims now op).any (· == k) then _ else _) = _
    split
    · rfl
    · rw [h.value, find?_accessed]
  have hb := bounded_next c h.bounded now op
  rcases accessed_cases c now op with ⟨hacc, hnone⟩ | ⟨x, k, hacc, hkey, htime, haccess⟩
  · have hsub : (c.next now op).entries.Sublist c.entries := hacc ▸ next_sublist
    refine ⟨h.distinct.sublist hsub, (h.order.sublist hsub).imp fun hr => hr.cons (hnone _), hvalue,
      fun e he => ?_, h.clock.sublist hsub, hb⟩
    rw [lastAccess_cons, hnone]
    exact h.time e (hsub.subset he)
  · have hsub : (c.next now op).entries.Sublist (x :: c.others k) := hacc ▸ next_sublist
    have hothers : (c.others k).Sublist c.entries := List.filter_sublist
    have haway : ∀ e ∈ c.others k, (x.key == e.key) = false ∧
        (c.event now op).accesses e.key = false := by
      intro e he
      have hke := (mem_others.mp he).2
      exact ⟨(BEq.congr_left hkey).trans hke, (haccess _).trans hke⟩
    have hx : (c.event now op).accesses x.key = true := (haccess _).trans (BEq.symm hkey)
    refine ⟨.sublist hsub (List.pairwise_cons.mpr ⟨fun e he => (haway e he).1,
      h.distinct.sublist hothers⟩), .sublist hsub (List.pairwise_cons.mpr ⟨fun e he =>
      .first hx (haway e he).2, ?_⟩), hvalue, fun e he => ?_, .sublist hsub (List.pairwise_cons.mpr
      ⟨fun e he => ?_, h.clock.sublist hothers⟩), hb⟩
    · exact (h.order.sublist hothers).imp_of_mem fun _ hb hr => hr.cons (haway _ hb).2
    · rw [lastAccess_cons]
      rcases List.mem_cons.mp (hsub.subset he) with rfl | he
      · rw [hx, htime]
        rfl
      · rw [(haway e he).2]
        exact h.time e (hothers.subset he)
    · exact htime ▸ hold e (hothers.subset he)

theorem find?_next_isSome (c : Lru K V) (now : Int) (op : Op K V) (k : K) :
    ((c.next now op).find? k).isSome = true ↔
      (((c.event now op).putValue k).isSome = true ∨ (c.find? k).isSome = true) ∧
      (c.victims now op).any (· == k) = false := by
  have hacc := congrArg Option.isSome (find?_accessed c now op k)
  rw [Option.isSome_map, Option.isSome_or, Option.isSome_map] at hacc
  simp only [find?, Lru.next, find?_discard]
  cases (c.victims now op).any (· == k)
  · simp [hacc, find?]
  · simp

theorem Event.accesses_congr (ev : Event K V) (h : (k == k') = true) :
    ev.accesses k = ev.accesses k' := by
  unfold Event.accesses
  split
  · exact BEq.congr_right h
  · exact BEq.congr_right h
  · rfl

theorem lastAccess_congr (h : (k == k') = true) : lastAccess hist k = lastAccess hist k' := by
  unfold lastAccess
  rw [funext fun ev : Event K V => ev.accesses_congr h]

/-- The age limit is exceeded by what was accessed last at the time given. -/
def ExpiredAt (maxAge now : Int) (last : Option Int) : Prop :=
  maxAge ≠ 0 ∧ ∃ t, last = some t ∧ now - t > maxAge

theorem Explains.answer_get (h : Explains hist c) (now : Int) (k : K) (v : V) :
    c.answer now (.get k) = .value (some v) ↔
      remembered hist k = some v ∧ ¬ ExpiredAt c.maxAge now (lastAccess hist k) := by
  rw [h.value]
  simp only [answer, Ret.value.injEq]
  cases hf : c.find? k with
  | none => simp
  | some e =>
    obtain ⟨hmem, hkey⟩ := find?_key hf
    have hlast : lastAccess hist k = some e.accessedAt :=
      (lastAccess_congr (BEq.symm hkey)).trans (h.time e hmem)
    have hexp : c.expired now e = true ↔ ExpiredAt c.maxAge now (lastAccess hist k) := by
      simp [expired, ExpiredAt, hlast]
    cases he : c.expired now e
    · have hno : ¬ ExpiredAt c.maxAge now (lastAccess hist k) := by
        rw [← hexp, he]
        exact Bool.false_ne_true
      simp [Option.filter, he, hno]
    · simp [Option.filter, he, hexp.mp he]

end

end Lru
