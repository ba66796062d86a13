import Mathlib.Data.List.Nodup
import Cajeta.Lib.FinMap
import Mathlib.Data.List.Induction

/-!
# Whole-program devirtualization

The pass of `--emit=exe` that turns a vtable lookup whose every entry in the program names one
function into that function. The modules are the ones the linker will join, before it joins them:
a function is a symbol of its module, and what the symbol stands for in the program depends on its
linkage.
-/

namespace Cajeta.Compile

structure FunctionSymbol where
  name : String
  localLinkage : Bool
  isDeclaration : Bool
deriving DecidableEq, Repr

/-- The second field of a vtable entry, with its casts stripped. -/
inductive SlotValue where
  | null
  | function (fn : FunctionSymbol)
  | other
deriving DecidableEq, Repr

/-- `{i64 hash, ptr fn}`. -/
structure Entry where
  hash : Int
  value : SlotValue
deriving DecidableEq, Repr

/-- A `#VTable` global with an initializer; `count` is the 16-bit field the run time reads. -/
structure VTable where
  count : Int
  entries : List Entry
deriving DecidableEq, Repr

/-- A call of `__cajeta_vtable_lookup`; `hash` is its second argument when that is a constant. -/
structure LookupCall where
  argSize : Nat
  hash : Option Int
deriving DecidableEq, Repr

structure LinkModule where
  context : Nat
  functions : List FunctionSymbol
  vtables : List VTable
  calls : List LookupCall
  names_nodup : (functions.map (·.name)).Nodup
  entry_mem : ∀ vt ∈ vtables, ∀ e ∈ vt.entries, ∀ fn, e.value = .function fn → fn ∈ functions

namespace LinkModule

def getFunction (m : LinkModule) (name : String) : Option FunctionSymbol :=
  m.functions.find? (·.name = name)

theorem getFunction_of_mem {m : LinkModule} (hfn : fn ∈ m.functions) :
    m.getFunction fn.name = some fn := by
  obtain ⟨found, hfound⟩ : ∃ found, m.getFunction fn.name = some found :=
    Option.isSome_iff_exists.mp (List.find?_isSome.mpr ⟨fn, hfn, by simp⟩)
  have hname : found.name = fn.name := by simpa using List.find?_some hfound
  rw [hfound, List.inj_on_of_nodup_map m.names_nodup (List.mem_of_find?_eq_some hfound) hfn hname]

theorem name_of_getFunction {m : LinkModule} (h : m.getFunction name = some fn) :
    fn.name = name := by
  simpa using List.find?_some h

def getOrInsertFunction (m : LinkModule) (name : String) : LinkModule × FunctionSymbol :=
  match h : m.getFunction name with
  | some fn => (m, fn)
  | none =>
    ({ m with
        functions := ⟨name, false, true⟩ :: m.functions
        names_nodup := by
          refine List.nodup_cons.mpr ⟨fun hmem => ?_, m.names_nodup⟩
          obtain ⟨fn, hfn, hname⟩ := List.mem_map.mp hmem
          exact List.find?_eq_none.mp h fn hfn (by simpa using hname)
        entry_mem := fun vt hvt e he fn hval =>
          List.mem_cons_of_mem _ (m.entry_mem vt hvt e he fn hval) },
      ⟨name, false, true⟩)

end LinkModule

/-- What the pass knows of one hash. `type` is the context of the first function's type, `def` the
last definition seen and the module it stands in. -/
structure Slot where
  fn : String := ""
  type : Option Nat := none
  «def» : Option (Nat × FunctionSymbol) := none
  conflict : Bool := false
deriving DecidableEq, Repr

/-- An entry as `record` receives it, with the module it was found in. -/
structure SlotEntry where
  module : Nat
  context : Nat
  value : SlotValue
deriving DecidableEq, Repr

def Slot.see (s : Slot) (k : Nat) (fn : FunctionSymbol) : Slot :=
  if fn.isDeclaration then s else { s with «def» := some (k, fn) }

def Slot.record (s : Slot) (e : SlotEntry) : Slot :=
  if s.conflict then s
  else match e.value with
    | .function fn =>
      if s.fn = "" ∧ s.type = none then
        { s with fn := fn.name, type := some e.context }.see e.module fn
      else if s.fn ≠ fn.name then { s with conflict := true }
      else s.see e.module fn
    | _ => { s with conflict := true }

/-- `slots[hash]` makes an empty slot where there is none. -/
def record (slots : FinMap Int Slot) (hash : Int) (e : SlotEntry) : FinMap Int Slot :=
  slots.insert hash (((slots.lookup hash).getD {}).record e)

/-- An entry of hash zero and no function is folded into a zero initializer, which is not a
`ConstantStruct`. -/
def Entry.isStruct (e : Entry) : Bool := !(e.hash = 0 ∧ e.value = .null)

def collect (slots : FinMap Int Slot) (k : Nat) (m : LinkModule) : FinMap Int Slot :=
  m.vtables.foldl
    (fun slots vt =>
      (vt.entries.filter (·.isStruct)).foldl
        (fun slots e => record slots e.hash ⟨k, m.context, e.value⟩) slots)
    slots

inductive Symbol where
  | external (name : String)
  | «local» (module : Nat) (name : String)
deriving DecidableEq, Repr

def symbolOf (k : Nat) (fn : FunctionSymbol) : Symbol :=
  if fn.localLinkage then .local k fn.name else .external fn.name

/-- One call of the lookup in module `k`: the module after it, and the function that replaces the
call, if any. -/
def rewriteCall (slots : FinMap Int Slot) (k : Nat) (m : LinkModule) (c : LookupCall) :
    LinkModule × Option Symbol :=
  if c.argSize ≠ 2 then (m, none)
  else match c.hash with
    | none => (m, none)
    | some h => match slots.lookup h with
      | none => (m, none)
      | some s =>
        if s.conflict then (m, none)
        else match s.def with
          | none => (m, none)
          | some (kd, fn) =>
            if s.type ≠ some m.context then (m, none)
            else if fn.localLinkage then
              if kd ≠ k then (m, none) else (m, some (symbolOf kd fn))
            else
              let r := m.getOrInsertFunction s.fn
              (r.1, some (symbolOf k r.2))

def rewriteCalls (slots : FinMap Int Slot) (k : Nat) (m : LinkModule) :
    List LookupCall → LinkModule × List (Option Symbol)
  | [] => (m, [])
  | c :: cs =>
    let r := rewriteCall slots k m c
    let rs := rewriteCalls slots k r.1 cs
    (rs.1, r.2 :: rs.2)

/-- The modules after the pass, and for each module what replaced each of its calls. -/
structure Devirtualized where
  mods : List LinkModule
  answers : List (List (Option Symbol))

def Devirtualized.replaced (d : Devirtualized) : Nat :=
  d.answers.foldl (fun n l => n + l.countP (·.isSome)) 0

def collectAll (mods : List LinkModule) : FinMap Int Slot :=
  mods.zipIdx.foldl (fun slots p => collect slots p.2 p.1) .empty

def devirtualizeUniqueSlots (env : Option String) (mods : List LinkModule) : Devirtualized :=
  if env = some "0" then ⟨mods, mods.map fun m => m.calls.map fun _ => none⟩
  else
    let slots := collectAll mods
    let rs := mods.zipIdx.map fun p => rewriteCalls slots p.2 p.1 p.1.calls
    ⟨rs.map (·.1), rs.map (·.2)⟩

/-- What stands for call `i` of module `k` after the pass. -/
def Devirtualized.answer (d : Devirtualized) (k i : Nat) : Option Symbol :=
  (d.answers[k]?.bind (·[i]?)).join

namespace VTable

/-- The loop of `__cajeta_vtable_lookup`. -/
def search (vt : VTable) (hash : Int) (lo hi : Nat) : SlotValue :=
  if lo < hi then
    let mid := (lo + hi) / 2
    match vt.entries[mid]? with
    | none => .null
    | some e =>
      if e.hash < hash then vt.search hash (mid + 1) hi
      else if e.hash > hash then vt.search hash lo mid
      else e.value
  else .null
termination_by hi - lo

def lookup (vt : VTable) (hash : Int) : SlotValue :=
  if vt.count ≤ 0 then .null else vt.search hash 0 vt.count.toNat

theorem mem_of_search {vt : VTable} {hash : Int} {lo hi : Nat}
    (h : vt.search hash lo hi = .function fn) :
    ⟨hash, .function fn⟩ ∈ vt.entries := by
  fun_induction VTable.search vt hash lo hi with
  | case1 => cases h
  | case2 _ _ _ _ _ _ _ ih => exact ih h
  | case3 _ _ _ _ _ _ _ _ ih => exact ih h
  | case4 lo hi _ mid e he hlt hgt =>
    have hhash : e.hash = hash := by omega
    have hentry : e = ⟨hash, .function fn⟩ := by rw [← hhash, ← h]
    exact hentry ▸ List.mem_of_getElem? he
  | case5 => cases h

theorem mem_of_lookup {vt : VTable} {hash : Int} (h : vt.lookup hash = .function fn) :
    ⟨hash, .function fn⟩ ∈ vt.entries := by
  unfold lookup at h
  split at h
  · cases h
  · exact mem_of_search h

end VTable

/-- An object whose vtable stands in module `k` answers the lookup of `hash` with `fn`. -/
def Dispatches (mods : List LinkModule) (hash : Int) (k : Nat) (fn : FunctionSymbol) : Prop :=
  ∃ m, mods[k]? = some m ∧ ∃ vt ∈ m.vtables, vt.lookup hash = .function fn

theorem Dispatches.mem {mods : List LinkModule} {hash : Int} (h : Dispatches mods hash k fn) :
    ∃ m, mods[k]? = some m ∧ fn ∈ m.functions ∧
      ∃ vt ∈ m.vtables, ⟨hash, .function fn⟩ ∈ vt.entries := by
  obtain ⟨m, hm, vt, hvt, hl⟩ := h
  have he := VTable.mem_of_lookup hl
  exact ⟨m, hm, m.entry_mem vt hvt _ he fn rfl, vt, hvt, he⟩

/-!
## What devirtualization keeps

A rewritten call gets the function of the slot's name in its own module, whichever definition the
pass saw last. That is the function every receiver's vtable holds exactly when no receiver comes
from another module while the name is local in either of the two.
-/

def recorded (mods : List LinkModule) : List (Int × SlotEntry) :=
  mods.zipIdx.flatMap fun p => p.1.vtables.flatMap fun vt =>
    (vt.entries.filter (·.isStruct)).map fun e => (e.hash, ⟨p.2, p.1.context, e.value⟩)

/-- The entries of one hash, in the order the pass meets them. -/
def slotEntries (mods : List LinkModule) (hash : Int) : List SlotEntry :=
  ((recorded mods).filter (·.1 == hash)).map (·.2)

theorem collectAll_eq (mods : List LinkModule) :
    collectAll mods = (recorded mods).foldl (fun slots e => record slots e.1 e.2) .empty := by
  simp only [collectAll, collect, recorded, List.foldl_flatMap, List.foldl_map]

theorem lookup_collectAll (mods : List LinkModule) (hash : Int) :
    ((collectAll mods).lookup hash).getD {} = (slotEntries mods hash).foldl Slot.record {} := by
  rw [collectAll_eq, slotEntries, List.foldl_map]
  exact FinMap.getD_lookup_foldl_insert (fun e : Int × SlotEntry => e.1)
    (fun (s : Slot) e => s.record e.2) {} _ _ _

theorem mem_slotEntries {mods : List LinkModule} {hash : Int} (he : e ∈ slotEntries mods hash) :
    ∃ m, mods[e.module]? = some m ∧ e.context = m.context ∧
      ∃ vt ∈ m.vtables, ∃ x ∈ vt.entries, x.hash = hash ∧ x.value = e.value := by
  obtain ⟨⟨h, e'⟩, hmem, rfl⟩ := List.mem_map.mp he
  obtain ⟨hrec, hh⟩ := List.mem_filter.mp hmem
  obtain ⟨⟨m, k⟩, hm, hvts⟩ := List.mem_flatMap.mp hrec
  obtain ⟨vt, hvt, hes⟩ := List.mem_flatMap.mp hvts
  obtain ⟨x, hx, hxe⟩ := List.mem_map.mp hes
  obtain ⟨rfl, rfl⟩ := Prod.mk.injEq .. ▸ hxe
  exact ⟨m, List.mk_mem_zipIdx_iff_getElem?.mp hm, rfl, vt, hvt, x, (List.mem_filter.mp hx).1,
    by simpa using hh, rfl⟩

theorem slotEntries_of_mem {mods : List LinkModule} {hash : Int} {m : LinkModule}
    (hm : mods[k]? = some m) (hvt : vt ∈ m.vtables) (he : ⟨hash, .function fn⟩ ∈ vt.entries) :
    ⟨k, m.context, .function fn⟩ ∈ slotEntries mods hash := by
  refine List.mem_map.mpr ⟨(hash, _), List.mem_filter.mpr ⟨?_, by simp⟩, rfl⟩
  refine List.mem_flatMap.mpr ⟨(m, k), List.mk_mem_zipIdx_iff_getElem?.mpr hm, ?_⟩
  refine List.mem_flatMap.mpr ⟨vt, hvt, List.mem_map.mpr ⟨_, List.mem_filter.mpr ⟨he, ?_⟩, rfl⟩⟩
  simp [Entry.isStruct]

/-! ## What a slot holds -/

def SlotEntry.definition (e : SlotEntry) : Option (Nat × FunctionSymbol) :=
  match e.value with
  | .function fn => if fn.isDeclaration then none else some (e.module, fn)
  | _ => none

def Agree (es : List SlotEntry) (name : String) : Prop :=
  ∀ e ∈ es, ∃ fn, e.value = .function fn ∧ fn.name = name

/-- The slot the pass has for entries that agree on a name. -/
def agreed (es : List SlotEntry) (name : String) : Slot where
  fn := name
  type := es.head?.map (·.context)
  «def» := (es.filterMap (·.definition)).getLast?

theorem agreed_record {es : List SlotEntry} {name : String} (hne : es ≠ [])
    (he : e.value = .function fn) :
    (agreed es name).record e =
      if fn.name = name then agreed (es ++ [e]) name
      else { agreed es name with conflict := true } := by
  obtain ⟨first, rest, rfl⟩ := List.exists_cons_of_ne_nil hne
  have hdefs : ((first :: rest ++ [e]).filterMap (·.definition)).getLast? =
      if fn.isDeclaration then ((first :: rest).filterMap (·.definition)).getLast?
      else some (e.module, fn) := by
    rw [List.filterMap_append]
    by_cases hd : fn.isDeclaration = true
    · simp [SlotEntry.definition, he, hd]
    · simp [List.filterMap_cons, SlotEntry.definition, he, hd]
  by_cases hn : fn.name = name
  · subst hn
    simp only [Slot.record, Slot.see, agreed, he, hdefs]
    by_cases hd : fn.isDeclaration = true <;> simp [hd]
  · have hn' : name ≠ fn.name := fun h => hn h.symm
    simp [Slot.record, agreed, he, hn, hn']

theorem record_conflict {s : Slot} (hs : s.conflict = true) (es : List SlotEntry) :
    (es.foldl Slot.record s).conflict = true := by
  induction es generalizing s with
  | nil => exact hs
  | cons e es ih =>
    apply ih
    rw [Slot.record, if_pos hs]
    exact hs

theorem agree_append_singleton :
    Agree (es ++ [e]) name ↔ Agree es name ∧ ∃ fn, e.value = .function fn ∧ fn.name = name := by
  simp [Agree, or_imp, forall_and]

theorem Agree.name_unique (h : Agree es name) (h' : Agree es name') (hne : es ≠ []) :
    name = name' := by
  obtain ⟨e, he⟩ := List.exists_mem_of_ne_nil es hne
  obtain ⟨fn, hv, rfl⟩ := h e he
  obtain ⟨fn', hv', rfl⟩ := h' e he
  rw [hv] at hv'
  cases hv'
  rfl

theorem record_of_not_function {s : Slot} (h : ∀ fn, e.value ≠ .function fn) :
    (s.record e).conflict = true := by
  rw [Slot.record]
  split
  · assumption
  · split
    · next fn hv => exact absurd hv (h fn)
    · rfl

/-- The slot is the one of the common name, or a conflict when there is none. -/
theorem foldl_record (es : List SlotEntry) (hne : es ≠ []) :
    (∃ name, Agree es name ∧ es.foldl Slot.record {} = agreed es name) ∨
      (∀ name, ¬ Agree es name) ∧ (es.foldl Slot.record {}).conflict = true := by
  induction es using List.reverseRecOn with
  | nil => exact absurd rfl hne
  | append_singleton es e ih =>
    simp only [List.foldl_append, List.foldl_cons, List.foldl_nil, agree_append_singleton]
    by_cases hfun : ∃ fn, e.value = .function fn
    · obtain ⟨fn, hv⟩ := hfun
      by_cases hes : es = []
      · subst hes
        refine Or.inl ⟨fn.name, ⟨by simp [Agree], fn, hv, rfl⟩, ?_⟩
        by_cases hd : fn.isDeclaration = true <;>
          simp [Slot.record, Slot.see, agreed, SlotEntry.definition, hv, hd]
      · rcases ih hes with ⟨name, hagree, heq⟩ | ⟨hno, hconf⟩
        · rw [heq, agreed_record hes hv]
          by_cases hn : fn.name = name
          · exact Or.inl ⟨name, ⟨hagree, fn, hv, hn⟩, if_pos hn⟩
          · refine Or.inr ⟨fun other h => ?_, by rw [if_neg hn]⟩
            obtain ⟨hother, fn', hv', rfl⟩ := h
            rw [hv] at hv'
            cases hv'
            exact hn (hother.name_unique hagree hes)
        · exact Or.inr ⟨fun name h => hno name h.1, record_conflict hconf [e]⟩
    · have hother : ∀ fn, e.value ≠ .function fn := fun fn hv => hfun ⟨fn, hv⟩
      refine Or.inr ⟨fun name h => ?_, record_of_not_function hother⟩
      obtain ⟨-, fn, hv, -⟩ := h
      exact hother fn hv

/-! ## The function a call is replaced by -/

/-- What the name stands for in a call of module `k`. -/
def LinkModule.resolve (m : LinkModule) (k : Nat) (name : String) : Symbol :=
  match m.getFunction name with
  | some fn => symbolOf k fn
  | none => .external name

def LinkModule.hasLocal (m : LinkModule) (name : String) : Prop :=
  ∃ fn ∈ m.functions, fn.name = name ∧ fn.localLinkage = true

namespace LinkModule

theorem resolve_of_mem {m : LinkModule} (hfn : fn ∈ m.functions) :
    m.resolve k fn.name = symbolOf k fn := by
  rw [resolve, getFunction_of_mem hfn]

theorem resolve_of_hasLocal {m : LinkModule} (h : m.hasLocal name) :
    m.resolve k name = .local k name := by
  obtain ⟨fn, hfn, rfl, hlocal⟩ := h
  rw [resolve_of_mem hfn, symbolOf, if_pos hlocal]

theorem resolve_of_not_hasLocal {m : LinkModule} (h : ¬ m.hasLocal name) :
    m.resolve k name = .external name := by
  rw [resolve]
  split
  · next fn hget =>
    have hname := name_of_getFunction hget
    have hlocal : fn.localLinkage ≠ true := fun hl =>
      h ⟨fn, List.mem_of_find?_eq_some hget, hname, hl⟩
    rw [symbolOf, if_neg hlocal, hname]
  · rfl

theorem getOrInsertFunction_of_some {m : LinkModule} (h : m.getFunction name = some fn) :
    m.getOrInsertFunction name = (m, fn) := by
  unfold getOrInsertFunction
  split
  · next found hfound => rw [Option.some.inj (hfound.symm.trans h)]
  · next hnone => rw [hnone] at h; cases h

theorem getOrInsertFunction_of_none {m : LinkModule} (h : m.getFunction name = none) :
    (m.getOrInsertFunction name).2 = ⟨name, false, true⟩ ∧
      (m.getOrInsertFunction name).1.context = m.context ∧
      (m.getOrInsertFunction name).1.functions = ⟨name, false, true⟩ :: m.functions := by
  unfold getOrInsertFunction
  split
  · next fn hsome => rw [hsome] at h; cases h
  · exact ⟨rfl, rfl, rfl⟩

theorem symbolOf_getOrInsertFunction (m : LinkModule) (k : Nat) (name : String) :
    symbolOf k (m.getOrInsertFunction name).2 = m.resolve k name := by
  cases h : m.getFunction name with
  | some fn => rw [getOrInsertFunction_of_some h, resolve, h]
  | none =>
    rw [(getOrInsertFunction_of_none h).1, resolve, h]
    rfl

theorem context_getOrInsertFunction (m : LinkModule) (name : String) :
    (m.getOrInsertFunction name).1.context = m.context := by
  cases h : m.getFunction name with
  | some fn => rw [getOrInsertFunction_of_some h]
  | none => exact (getOrInsertFunction_of_none h).2.1

theorem resolve_getOrInsertFunction (m : LinkModule) (k : Nat) (name other : String) :
    (m.getOrInsertFunction name).1.resolve k other = m.resolve k other := by
  cases h : m.getFunction name with
  | some fn => rw [getOrInsertFunction_of_some h]
  | none =>
    have hfns := (getOrInsertFunction_of_none h).2.2
    by_cases hname : name = other
    · subst hname
      rw [resolve, resolve, h, getFunction, hfns, List.find?_cons_of_pos (by simp)]
      rfl
    · rw [resolve, resolve, getFunction, hfns, List.find?_cons_of_neg (by simpa using hname)]
      rfl

end LinkModule

/-- Two modules of the pass that give every call the same answer. -/
structure SameAnswers (k : Nat) (m m' : LinkModule) : Prop where
  context : m'.context = m.context
  resolve : ∀ name, m'.resolve k name = m.resolve k name

theorem rewriteCall_answer {slots : FinMap Int Slot} {m m' : LinkModule}
    (h : SameAnswers k m m') (c : LookupCall) :
    (rewriteCall slots k m' c).2 = (rewriteCall slots k m c).2 := by
  unfold rewriteCall
  simp only [h.context]
  repeat' split
  all_goals first
    | rfl
    | simp only [LinkModule.symbolOf_getOrInsertFunction, h.resolve]

theorem rewriteCall_same (slots : FinMap Int Slot) (k : Nat) (m : LinkModule) (c : LookupCall) :
    SameAnswers k m (rewriteCall slots k m c).1 := by
  have hrefl : SameAnswers k m m := ⟨rfl, fun _ => rfl⟩
  unfold rewriteCall
  repeat' split
  all_goals first
    | exact hrefl
    | exact ⟨m.context_getOrInsertFunction _, m.resolve_getOrInsertFunction k _⟩

theorem SameAnswers.trans (h : SameAnswers k m m') (h' : SameAnswers k m' m'') :
    SameAnswers k m m'' :=
  ⟨h'.context.trans h.context, fun name => (h'.resolve name).trans (h.resolve name)⟩

theorem rewriteCalls_answers {slots : FinMap Int Slot} {m m' : LinkModule}
    (h : SameAnswers k m m') (cs : List LookupCall) :
    (rewriteCalls slots k m' cs).2 = cs.map fun c => (rewriteCall slots k m c).2 := by
  induction cs generalizing m' with
  | nil => rfl
  | cons c cs ih =>
    simp only [rewriteCalls, List.map_cons, rewriteCall_answer h c]
    rw [ih (h.trans (rewriteCall_same slots k m' c))]

theorem devirtualizeUniqueSlots_answer {env : Option String} {mods : List LinkModule}
    (hm : mods[k]? = some m) (hc : m.calls[i]? = some c) :
    (devirtualizeUniqueSlots env mods).answer k i =
      if env = some "0" then none else (rewriteCall (collectAll mods) k m c).2 := by
  unfold devirtualizeUniqueSlots Devirtualized.answer
  split
  · simp only [List.getElem?_map, hm, hc, Option.map_some, Option.bind_some]
    rfl
  · have hzip : mods.zipIdx[k]? = some (m, k) := by simp [hm]
    simp only [List.map_map, List.getElem?_map, hzip, Option.map_some, Function.comp_apply,
      Option.bind_some, rewriteCalls_answers (m := m) ⟨rfl, fun _ => rfl⟩, hc]
    rfl

/-! ## Which calls are rewritten -/

/-- What the pass demands of the entries of a hash before it rewrites a call of it in module `k`:
it meets functions of one name only, the first in the module's own context, at least one of them a
definition, and the last definition is within the module's reach. -/
structure UniqueSlot (es : List SlotEntry) (k : Nat) (m : LinkModule) (name : String) : Prop where
  agree : Agree es name
  context : es.head?.map (·.context) = some m.context
  defined : ∃ kd fn, (es.filterMap (·.definition)).getLast? = some (kd, fn) ∧
    (fn.localLinkage = true → kd = k)

def Rewritable (env : Option String) (mods : List LinkModule) (k : Nat) (m : LinkModule)
    (c : LookupCall) (hash : Int) (name : String) : Prop :=
  env ≠ some "0" ∧ c.argSize = 2 ∧ c.hash = some hash ∧
    UniqueSlot (slotEntries mods hash) k m name

theorem definition_mem {mods : List LinkModule} {hash : Int}
    (hagree : Agree (slotEntries mods hash) name)
    (h : ((slotEntries mods hash).filterMap (·.definition)).getLast? = some (kd, fn)) :
    fn.name = name ∧ ∃ m, mods[kd]? = some m ∧ fn ∈ m.functions := by
  obtain ⟨e, he, hdef⟩ := List.mem_filterMap.mp (List.mem_of_getLast? h)
  obtain ⟨fn', hv, hname⟩ := hagree e he
  obtain ⟨m, hm, -, vt, hvt, x, hx, -, hval⟩ := mem_slotEntries he
  simp only [SlotEntry.definition, hv] at hdef
  split at hdef
  · cases hdef
  · obtain ⟨rfl, rfl⟩ := Prod.mk.injEq .. ▸ Option.some.inj hdef
    exact ⟨hname, m, hm, m.entry_mem vt hvt x hx _ (hval.trans hv)⟩

/-- The answer a slot gives to a constant lookup in module `k`. -/
def Slot.answer (s : Slot) (k : Nat) (m : LinkModule) : Option Symbol :=
  match s.def with
  | none => none
  | some (kd, fn) =>
    if s.conflict = true ∨ s.type ≠ some m.context ∨ (fn.localLinkage = true ∧ kd ≠ k) then none
    else some (if fn.localLinkage then symbolOf kd fn else m.resolve k s.fn)

theorem rewriteCall_of_hash {slots : FinMap Int Slot} {hash : Int} (hargs : c.argSize = 2)
    (hhash : c.hash = some hash) :
    (rewriteCall slots k m c).2 = ((slots.lookup hash).getD {}).answer k m := by
  simp only [rewriteCall, hargs, hhash, ne_eq, not_true_eq_false, if_false]
  cases hs : slots.lookup hash with
  | none => rfl
  | some s =>
    simp only [Slot.answer, Option.getD_some]
    cases s.def with
    | none => split <;> rfl
    | some d =>
      by_cases hconf : s.conflict = true
      · simp [hconf]
      by_cases htype : s.type = some m.context
      · by_cases hlocal : d.2.localLinkage = true
        · by_cases hd : d.1 = k <;> simp [hconf, htype, hlocal, hd]
        · simp [hconf, htype, hlocal, m.symbolOf_getOrInsertFunction]
      · simp [hconf, htype]

theorem Slot.answer_eq_some {s : Slot} :
    s.answer k m = some callee ↔ s.conflict = false ∧ s.type = some m.context ∧
      ∃ kd fn, s.def = some (kd, fn) ∧ (fn.localLinkage = true → kd = k) ∧
        callee = if fn.localLinkage then symbolOf kd fn else m.resolve k s.fn := by
  unfold Slot.answer
  cases s.def with
  | none => simp
  | some d =>
    obtain ⟨kd, fn⟩ := d
    have hreach : (s.conflict = true ∨ s.type ≠ some m.context ∨
        (fn.localLinkage = true ∧ kd ≠ k)) ↔
        ¬ (s.conflict = false ∧ s.type = some m.context ∧ (fn.localLinkage = true → kd = k)) := by
      rw [not_and_or, not_and_or, Classical.not_imp, Bool.not_eq_false]
    simp only [hreach, ite_not, Option.some.injEq, Prod.mk.injEq]
    constructor
    · intro h
      split at h
      · next hok => exact ⟨hok.1, hok.2.1, kd, fn, ⟨rfl, rfl⟩, hok.2.2, (Option.some.inj h).symm⟩
      · cases h
    · rintro ⟨hconf, htype, _, _, ⟨rfl, rfl⟩, hlocal, rfl⟩
      rw [if_pos ⟨hconf, htype, hlocal⟩]

/-- A call is rewritten exactly when its slot is unique, and then to what the slot's name stands for
in the call's own module. -/
theorem rewriteCall_iff {mods : List LinkModule} {m : LinkModule} (hm : mods[k]? = some m) :
    (rewriteCall (collectAll mods) k m c).2 = some callee ↔
      c.argSize = 2 ∧ ∃ hash name, c.hash = some hash ∧
        UniqueSlot (slotEntries mods hash) k m name ∧ callee = m.resolve k name := by
  have hcallee : ∀ {hash name kd fn}, Agree (slotEntries mods hash) name →
      ((slotEntries mods hash).filterMap (·.definition)).getLast? = some (kd, fn) →
      (fn.localLinkage = true → kd = k) →
      (if fn.localLinkage then symbolOf kd fn else m.resolve k name) = m.resolve k name := by
    intro hash name kd fn hagree hlast hlocal
    obtain ⟨rfl, m', hm', hfn⟩ := definition_mem hagree hlast
    split
    · next hl =>
      rw [hlocal hl, hm] at hm'
      rw [hlocal hl, Option.some.inj hm', LinkModule.resolve_of_mem hfn]
    · rfl
  constructor
  · intro h
    by_cases hargs : c.argSize = 2
    · cases hhash : c.hash with
      | none => simp [rewriteCall, hargs, hhash] at h
      | some hash =>
        rw [rewriteCall_of_hash hargs hhash, lookup_collectAll, Slot.answer_eq_some] at h
        obtain ⟨hconf, htype, kd, fn, hdef, hlocal, rfl⟩ := h
        have hne : slotEntries mods hash ≠ [] := by
          intro hnil
          rw [hnil] at hdef
          cases hdef
        rcases foldl_record _ hne with ⟨name, hagree, heq⟩ | ⟨-, hconf'⟩
        · rw [heq] at hdef htype ⊢
          refine ⟨hargs, hash, name, rfl, ⟨hagree, htype, kd, fn, hdef, hlocal⟩, ?_⟩
          exact hcallee hagree hdef hlocal
        · rw [hconf] at hconf'
          cases hconf'
    · simp [rewriteCall, hargs] at h
  · rintro ⟨hargs, hash, name, hhash, hslot, rfl⟩
    obtain ⟨kd, fn, hdef, hlocal⟩ := hslot.defined
    have hne : slotEntries mods hash ≠ [] := by
      intro hnil
      rw [hnil] at hdef
      cases hdef
    rw [rewriteCall_of_hash hargs hhash, lookup_collectAll, Slot.answer_eq_some]
    rcases foldl_record _ hne with ⟨name', hagree, heq⟩ | ⟨hno, -⟩
    · obtain rfl := hagree.name_unique hslot.agree hne
      rw [heq]
      exact ⟨rfl, hslot.context, kd, fn, hdef, hlocal, (hcallee hagree hdef hlocal).symm⟩
    · exact absurd hslot.agree (hno name)

/-! ## The targets of a rewritten call -/

/-- `callee` is the function every receiver's vtable holds under the hash, and no two vtables hold
distinct ones. -/
structure TargetKept (mods : List LinkModule) (hash : Int) (callee : Symbol) : Prop where
  same : ∀ k fn, Dispatches mods hash k fn → symbolOf k fn = callee
  unique : ∀ k₁ fn₁ k₂ fn₂, Dispatches mods hash k₁ fn₁ → Dispatches mods hash k₂ fn₂ →
    symbolOf k₁ fn₁ = symbolOf k₂ fn₂

theorem symbolOf_eq_resolve {mods : List LinkModule} {m m' : LinkModule} (hm : mods[k]? = some m)
    (hm' : mods[k']? = some m') (hfn : fn ∈ m'.functions) :
    symbolOf k' fn = m.resolve k fn.name ↔
      k' = k ∨ fn.localLinkage = false ∧ ¬ m.hasLocal fn.name := by
  by_cases hk : k' = k
  · subst hk
    obtain rfl := Option.some.inj (hm.symm.trans hm')
    exact ⟨fun _ => Or.inl rfl, fun _ => (LinkModule.resolve_of_mem hfn).symm⟩
  · by_cases hhas : m.hasLocal fn.name
    · by_cases hlocal : fn.localLinkage = true <;>
        simp [LinkModule.resolve_of_hasLocal hhas, symbolOf, hlocal, hk, hhas]
    · by_cases hlocal : fn.localLinkage = true <;>
        simp [LinkModule.resolve_of_not_hasLocal hhas, symbolOf, hlocal, hk, hhas]

/-- **Devirtualization** keeps the target of a call it rewrites exactly when every receiver's vtable
stands in the call's own module, or holds an external function whose name the call's module does not
use for a local one. -/
theorem devirtualizeUniqueSlots_target_iff (env : Option String) (mods : List LinkModule)
    (k i : Nat) (m : LinkModule) (c : LookupCall) (hm : mods[k]? = some m)
    (hc : m.calls[i]? = some c) :
    (∀ callee, (devirtualizeUniqueSlots env mods).answer k i = some callee →
        ∃ hash, c.hash = some hash ∧ TargetKept mods hash callee) ↔
      ∀ hash name, Rewritable env mods k m c hash name →
        ∀ k' fn, Dispatches mods hash k' fn →
          k' = k ∨ fn.localLinkage = false ∧ ¬ m.hasLocal name := by
  have hname : ∀ {hash name k' fn}, Rewritable env mods k m c hash name →
      Dispatches mods hash k' fn →
      (symbolOf k' fn = m.resolve k name ↔
        k' = k ∨ fn.localLinkage = false ∧ ¬ m.hasLocal name) := by
    intro hash name k' fn hrw hdisp
    obtain ⟨m', hm', hfn, vt, hvt, he⟩ := hdisp.mem
    obtain ⟨f, hv, rfl⟩ := hrw.2.2.2.agree _ (slotEntries_of_mem hm' hvt he)
    cases hv
    exact symbolOf_eq_resolve hm hm' hfn
  rw [devirtualizeUniqueSlots_answer hm hc]
  constructor
  · intro h hash name hrw k' fn hdisp
    have ⟨henv, hargs, hhash, hslot⟩ := hrw
    rw [if_neg henv] at h
    obtain ⟨hash', hhash', hkept⟩ :=
      h (m.resolve k name) ((rewriteCall_iff hm).mpr ⟨hargs, hash, name, hhash, hslot, rfl⟩)
    obtain rfl := Option.some.inj (hhash.symm.trans hhash')
    exact (hname hrw hdisp).mp (hkept.same k' fn hdisp)
  · intro h callee hcallee
    by_cases henv : env = some "0"
    · rw [if_pos henv] at hcallee
      cases hcallee
    · rw [if_neg henv] at hcallee
      obtain ⟨hargs, hash, name, hhash, hslot, rfl⟩ := (rewriteCall_iff hm).mp hcallee
      have hrw : Rewritable env mods k m c hash name := ⟨henv, hargs, hhash, hslot⟩
      have hsame : ∀ k' fn, Dispatches mods hash k' fn → symbolOf k' fn = m.resolve k name :=
        fun k' fn hdisp => (hname hrw hdisp).mpr (h hash name hrw k' fn hdisp)
      refine ⟨hash, hhash, hsame, fun k₁ fn₁ k₂ fn₂ h₁ h₂ => ?_⟩
      rw [hsame k₁ fn₁ h₁, hsame k₂ fn₂ h₂]

/-- A class with the method `g` under hash 7. -/
def baseModule : LinkModule where
  context := 0
  functions := [⟨"g", false, false⟩]
  vtables := [⟨1, [⟨7, .function ⟨"g", false, false⟩⟩]⟩]
  calls := []
  names_nodup := by simp
  entry_mem := by simp

/-- A class that inherits `g` and has an internal `f` under hash 3, with a call of each. -/
def derivedModule : LinkModule where
  context := 0
  functions := [⟨"f", true, false⟩, ⟨"g", false, true⟩]
  vtables := [⟨2, [⟨3, .function ⟨"f", true, false⟩⟩, ⟨7, .function ⟨"g", false, true⟩⟩]⟩]
  calls := [⟨2, some 3⟩, ⟨2, some 7⟩]
  names_nodup := by simp
  entry_mem := by simp

theorem devirtualizeUniqueSlots_target_iff_inherited :
    (devirtualizeUniqueSlots none [baseModule, derivedModule]).answer 1 1 =
        some (.external "g") ∧
      ∃ hash, (LookupCall.mk 2 (some 7)).hash = some hash ∧
        TargetKept [baseModule, derivedModule] hash (.external "g") := by
  have hanswer : (devirtualizeUniqueSlots none [baseModule, derivedModule]).answer 1 1 =
      some (.external "g") := by decide
  refine ⟨hanswer, (devirtualizeUniqueSlots_target_iff none [baseModule, derivedModule] 1 1
    derivedModule ⟨2, some 7⟩ rfl rfl).mpr (fun hash name hrw k' fn hdisp => ?_) _ hanswer⟩
  obtain ⟨m, hm, hfn, vt, hvt, he⟩ := hdisp.mem
  match k', hm with
  | 0, hm =>
    cases hm
    obtain rfl : fn = ⟨"g", false, false⟩ := by simpa [baseModule] using hfn
    have hbase : [baseModule, derivedModule][0]? = some baseModule := rfl
    obtain ⟨f, hv, rfl⟩ := hrw.2.2.2.agree _ (slotEntries_of_mem hbase hvt he)
    cases hv
    exact .inr ⟨rfl, by simp [LinkModule.hasLocal, derivedModule]⟩
  | 1, _ => exact .inl rfl

/-- A module with one internal function `f`, which stands under hash 7 of its one vtable, and one
call of that hash. -/
def internalModule (context : Nat) : LinkModule where
  context := context
  functions := [⟨"f", true, false⟩]
  vtables := [⟨1, [⟨7, .function ⟨"f", true, false⟩⟩]⟩]
  calls := [⟨2, some 7⟩]
  names_nodup := by simp
  entry_mem := by simp

theorem internalModule_dispatches {mods : List LinkModule}
    (hm : mods[k]? = some (internalModule context)) :
    Dispatches mods 7 k ⟨"f", true, false⟩ := by
  refine ⟨_, hm, ⟨1, [⟨7, .function ⟨"f", true, false⟩⟩]⟩, by simp [internalModule], ?_⟩
  simp [VTable.lookup, VTable.search]

/-- Two modules with an internal function of one name: the call of the second gets the second's
function, while objects of the first's class hold the first's. -/
theorem internal_twin_rewritten :
    ¬ ∀ (env : Option String) (mods : List LinkModule) (k i : Nat) (m : LinkModule)
        (c : LookupCall), mods[k]? = some m → m.calls[i]? = some c →
      ∀ callee, (devirtualizeUniqueSlots env mods).answer k i = some callee →
        ∃ hash, c.hash = some hash ∧ TargetKept mods hash callee := by
  intro h
  obtain ⟨hash, hhash, hkept⟩ := h none [internalModule 0, internalModule 0] 1 0 (internalModule 0)
    ⟨2, some 7⟩ rfl rfl (.local 1 "f") (by decide)
  cases hhash
  have hsame := hkept.same 0 _ (internalModule_dispatches rfl)
  simp [symbolOf] at hsame

end Cajeta.Compile
