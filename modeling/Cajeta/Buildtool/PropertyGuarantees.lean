import Cajeta.Buildtool.Properties
import Cajeta.Lib.DepthFirst

/-!
# Resolved properties

Resolving the properties is a depth-first walk along the references of their sources. It is through
exactly when no reachable source is missing and no reference comes back to its property, and then
every value is the source's text with the values of others in it. These determine each other, so
that the order of the properties does not matter.
-/

namespace Cajeta.Buildtool

open DepthFirst

section Edges

variable (process : Process) (manifest : Manifest) (ov : PropertyOverrides)

/-- The names that a property's source refers to. A built-in refers to none. -/
def sourceNames (name : String) : List String :=
  match resolveBuiltin process manifest ov name, sourceFor manifest ov name with
  | none, .text raw => referencedNames raw.toList
  | _, _ => []

/-- A property without a text cannot be entered. -/
def propertyGraph : WalkGraph String String where
  next := sourceNames process manifest ov
  label := id
  Bad name := resolveBuiltin process manifest ov name = none ∧
    ∀ raw, sourceFor manifest ov name ≠ .text raw

inductive ValueOf (values : String → Option String) (name : String) : String → Prop where
  | builtin : resolveBuiltin process manifest ov name = some v → ValueOf values name v
  | text : resolveBuiltin process manifest ov name = none → sourceFor manifest ov name = .text raw →
      Reads raw.toList ps → fill values ps = .ok r → ValueOf values name (String.ofList r)

end Edges

variable {process : Process} {manifest : Manifest} {ov : PropertyOverrides}

theorem ValueOf.mono {values values' : String → Option String}
    (hle : ∀ name v, values name = some v → values' name = some v)
    (h : ValueOf process manifest ov values name v) :
    ValueOf process manifest ov values' name v := by
  cases h with
  | builtin hv => exact .builtin hv
  | text hnone hsource hreads hfill => exact .text hnone hsource hreads (fill_mono hle hfill)

theorem sourceNames_builtin (h : resolveBuiltin process manifest ov name = some v) :
    sourceNames process manifest ov name = [] := by
  unfold sourceNames
  rw [h]

theorem sourceNames_text (h : resolveBuiltin process manifest ov name = none)
    (hsource : sourceFor manifest ov name = .text raw) :
    sourceNames process manifest ov name = referencedNames raw.toList := by
  unfold sourceNames
  rw [h, hsource]

theorem ValueOf.unique {values values' : String → Option String}
    (h : ValueOf process manifest ov values name v)
    (h' : ValueOf process manifest ov values' name v')
    (heq : ∀ n ∈ sourceNames process manifest ov name, values n = values' n) : v = v' := by
  cases h with
  | builtin hv =>
    cases h' with
    | builtin hv' => exact Option.some.inj (hv.symm.trans hv')
    | text hnone _ _ _ =>
      rw [hnone] at hv
      cases hv
  | @text raw ps r hnone hsource hreads hfill =>
    cases h' with
    | builtin hv' =>
      rw [hnone] at hv'
      cases hv'
    | text _ hsource' hreads' hfill' =>
      rw [hsource] at hsource'
      cases hsource'
      obtain ⟨ps', hps', hnames, -⟩ := exists_reads raw.toList
      cases hreads.unique hps'
      cases hreads'.unique hps'
      rw [sourceNames_text hnone hsource, hnames] at heq
      rw [fill_congr heq, hfill'] at hfill
      cases hfill
      rfl

/-! ## The walk -/

structure Settled (process : Process) (manifest : Manifest) (ov : PropertyOverrides)
    (done : List String) (out : ResolvedProperties) : Prop where
  keys : ∀ name, out.values.contains name = true ↔ name ∈ done
  value : ∀ name v, out.values.find? name = some v →
    ValueOf process manifest ov out.values.find? name v

theorem Settled.start : Settled process manifest ov [] {} where
  keys name := by simp [SortedMap.contains, SortedMap.find?, SortedMap.empty]
  value name v h := by cases h

theorem Settled.record (h : Settled process manifest ov done out) (hnew : name ∉ done)
    (hvalue : ValueOf process manifest ov out.values.find? name v) :
    Settled process manifest ov (done ++ [name]) (out.record name v) := by
  have hnone : out.values.find? name = none := by
    rw [← Option.not_isSome_iff_eq_none]
    exact fun hsome => hnew ((h.keys name).mp hsome)
  have hle : ∀ n w, out.values.find? n = some w → (out.record name v).values.find? n = some w := by
    intro n w hn
    change (out.values.insert name v).find? n = _
    rw [SortedMap.find?_insert, if_neg, hn]
    rintro rfl
    rw [hnone] at hn
    cases hn
  refine ⟨fun n => ?_, fun n w hn => ?_⟩
  · change ((out.values.insert name v).find? n).isSome = true ↔ _
    rw [SortedMap.find?_insert, List.mem_append, List.mem_singleton]
    by_cases heq : name = n
    · simp [heq]
    · rw [if_neg heq]
      exact ⟨fun hsome => .inl ((h.keys n).mp hsome),
        fun hmem => (h.keys n).mpr (hmem.resolve_right (Ne.symm heq))⟩
  · change (out.values.insert name v).find? n = _ at hn
    rw [SortedMap.find?_insert] at hn
    split at hn
    · next heq =>
      cases hn
      exact heq ▸ hvalue.mono hle
    · exact (h.value n w hn).mono hle

section Step

variable {st : Resolving} (fuel : Nat)

theorem resolve_settled (h : st.out.values.contains name = true) :
    resolve process manifest ov (fuel + 1) st name = .ok st := by
  rw [resolve, if_pos h]
  rfl

theorem resolve_builtin (h : ¬st.out.values.contains name = true)
    (hbuiltin : resolveBuiltin process manifest ov name = some v) :
    resolve process manifest ov (fuel + 1) st name =
      .ok { st with out := st.out.record name v } := by
  rw [resolve, if_neg h, hbuiltin]
  rfl

variable (st) in
theorem resolve_again (h : ¬st.out.values.contains name = true)
    (hnone : resolveBuiltin process manifest ov name = none) (hvisiting : name ∈ st.visiting) :
    ∃ text, resolve process manifest ov (fuel + 1) st name = .error (.failed text) := by
  rw [resolve, if_neg h, hnone]
  dsimp only
  rw [if_pos hvisiting]
  exact ⟨_, rfl⟩

variable (st) in
theorem resolve_bad (h : ¬st.out.values.contains name = true)
    (hnone : resolveBuiltin process manifest ov name = none) (hvisiting : name ∉ st.visiting)
    (hbad : ∀ raw, sourceFor manifest ov name ≠ .text raw) :
    ∃ text, resolve process manifest ov (fuel + 1) st name = .error (.failed text) := by
  rw [resolve, if_neg h, hnone]
  dsimp only
  rw [if_neg hvisiting]
  cases hsource : sourceFor manifest ov name with
  | text raw => exact absurd hsource (hbad raw)
  | typeError => exact ⟨_, rfl⟩
  | undefined => exact ⟨_, rfl⟩

theorem resolve_inside (h : ¬st.out.values.contains name = true)
    (hnone : resolveBuiltin process manifest ov name = none) (hvisiting : name ∉ st.visiting)
    (hsource : sourceFor manifest ov name = .text raw) :
    resolve process manifest ov (fuel + 1) st name = (do
      let st ← (sourceNames process manifest ov name).foldlM (resolve process manifest ov fuel)
        { st with visiting := name :: st.visiting }
      match substituteOnce st.out.values.find? raw.toList with
      | .error missing => .error (.failed
          ("property '" ++ name ++ "' references undefined property '" ++ missing ++ "'"))
      | .ok resolved => return { out := st.out.record name (String.ofList resolved),
                                 visiting := st.visiting.erase name }) := by
  rw [resolve, if_neg h, hnone]
  dsimp only
  rw [hsource, sourceNames_text hnone hsource]
  exact if_neg hvisiting

end Step

/-- A walk inside of some properties, none of which it has listed and none of which is built in. -/
structure Awaiting (process : Process) (manifest : Manifest) (ov : PropertyOverrides)
    (stack done : List String) : Prop where
  unlisted : ∀ y ∈ stack, y ∉ done
  plain : ∀ y ∈ stack, resolveBuiltin process manifest ov y = none

theorem Awaiting.start : Awaiting process manifest ov [] [] where
  unlisted _ h := absurd h List.not_mem_nil
  plain _ h := absurd h List.not_mem_nil

theorem Awaiting.enter (h : Awaiting process manifest ov stack done) (hnew : x ∉ done)
    (hnone : resolveBuiltin process manifest ov x = none) :
    Awaiting process manifest ov (x :: stack) done where
  unlisted := List.forall_mem_cons.mpr ⟨hnew, h.unlisted⟩
  plain := List.forall_mem_cons.mpr ⟨hnone, h.plain⟩

theorem Awaiting.leave (h : Awaiting process manifest ov stack done) (hx : x ∉ stack)
    (hmid : Walks (propertyGraph process manifest ov) (x :: stack) done xs mid) :
    Awaiting process manifest ov stack (mid ++ [x]) where
  unlisted y hy hmem := by
    rcases List.mem_append.mp hmem with hmem | hmem
    · exact hmid.notMem (List.mem_cons_of_mem x hy) (h.unlisted y hy) hmem
    · exact hx (List.mem_singleton.mp hmem ▸ hy)
  plain := h.plain

section Walk

variable {nodes : List String}

theorem resolve_of_inside {out₁ : ResolvedProperties} (fuel : Nat) {st : Resolving}
    (h : ¬st.out.values.contains x = true) (hnone : resolveBuiltin process manifest ov x = none)
    (hvisiting : x ∉ st.visiting) (hsource : sourceFor manifest ov x = .text raw)
    (hrun : (sourceNames process manifest ov x).foldlM (resolve process manifest ov fuel)
      { st with visiting := x :: st.visiting } = .ok ⟨out₁, x :: st.visiting⟩)
    (hs : Settled process manifest ov mid out₁) (hnext : ∀ y ∈ sourceNames process manifest ov x,
      y ∈ mid) (hnew : x ∉ mid) :
    ∃ out', resolve process manifest ov (fuel + 1) st x = .ok ⟨out', st.visiting⟩ ∧
      Settled process manifest ov (mid ++ [x]) out' := by
  obtain ⟨ps, hreads, hnames, hsubst⟩ := exists_reads raw.toList
  obtain ⟨r, hr⟩ := exists_fill fun name hname => by
    rw [← hnames, ← sourceNames_text hnone hsource] at hname
    exact (hs.keys name).mpr (hnext name hname)
  refine ⟨out₁.record x (String.ofList r), ?_, hs.record hnew (.text hnone hsource hreads hr)⟩
  rw [resolve_inside fuel h hnone hvisiting hsource, hrun, Except.ok_bind, hsubst, hr]
  dsimp only
  rw [List.erase_cons_head]
  rfl

theorem foldlM_resolve_of_walks
    (h : Walks (propertyGraph process manifest ov) stack done xs done') (fuel : Nat)
    {out : ResolvedProperties} (hin : Awaiting process manifest ov stack done)
    (hbounded : Bounded (propertyGraph process manifest ov) nodes fuel stack xs)
    (hs : Settled process manifest ov done out) :
    ∃ out', xs.foldlM (resolve process manifest ov fuel) ⟨out, stack⟩ = .ok ⟨out', stack⟩ ∧
      Settled process manifest ov done' out' := by
  induction h generalizing fuel out with
  | nil => exact ⟨out, rfl, hs⟩
  | @skip stack x done xs done' hlabel hdone _ ih =>
    obtain ⟨n, rfl⟩ := hbounded.pos
    rw [List.foldlM_cons, resolve_settled n ((hs.keys x).mpr hdone)]
    exact ih (n + 1) hin hbounded.tail hs
  | @visit stack x done mid xs done' hlabel hnew hgood hmid _ ihmid ih =>
    obtain ⟨n, rfl⟩ := hbounded.pos
    have hcontains : ¬out.values.contains x = true := fun hmem => hnew ((hs.keys x).mp hmem)
    have hx : ∃ out₁, resolve process manifest ov (n + 1) ⟨out, stack⟩ x = .ok ⟨out₁, stack⟩ ∧
        Settled process manifest ov (mid ++ [x]) out₁ := by
      cases hbuiltin : resolveBuiltin process manifest ov x with
      | some v =>
        have hnext : (propertyGraph process manifest ov).next x = [] := sourceNames_builtin hbuiltin
        rw [hnext] at hmid
        cases hmid
        exact ⟨_, resolve_builtin n hcontains hbuiltin, hs.record hnew (.builtin hbuiltin)⟩
      | none =>
        obtain ⟨raw, hsource⟩ := not_forall_not.mp fun hbad => hgood ⟨hbuiltin, hbad⟩
        obtain ⟨out₁, hrun, hs₁⟩ := ihmid n (hin.enter hnew hbuiltin) (hbounded.enter hlabel) hs
        exact resolve_of_inside n hcontains hbuiltin hlabel hsource hrun hs₁ hmid.mem
          (hmid.notMem List.mem_cons_self hnew)
    obtain ⟨out₁, hx, hs₁⟩ := hx
    rw [List.foldlM_cons, hx]
    exact ih (n + 1) (hin.leave hlabel hmid) hbounded.tail hs₁

theorem foldlM_resolve_of_stops
    (h : Stops (propertyGraph process manifest ov) stack done xs) (fuel : Nat)
    {out : ResolvedProperties} (hin : Awaiting process manifest ov stack done)
    (hbounded : Bounded (propertyGraph process manifest ov) nodes fuel stack xs)
    (hs : Settled process manifest ov done out) :
    ∃ text, xs.foldlM (resolve process manifest ov fuel) ⟨out, stack⟩ = .error (.failed text) := by
  have hfresh : ∀ {x done out}, Settled process manifest ov done out → x ∉ done →
      ¬out.values.contains x = true := fun hs hnew hmem => hnew ((hs.keys _).mp hmem)
  induction h generalizing fuel out with
  | @again stack x done xs hlabel =>
    obtain ⟨n, rfl⟩ := hbounded.pos
    obtain ⟨text, hx⟩ := resolve_again ⟨out, stack⟩ n (hfresh hs (hin.unlisted x hlabel))
      (hin.plain x hlabel) hlabel
    exact ⟨text, by rw [List.foldlM_cons, hx]; rfl⟩
  | @bad stack x done xs hlabel hnew hbad =>
    obtain ⟨n, rfl⟩ := hbounded.pos
    obtain ⟨text, hx⟩ := resolve_bad ⟨out, stack⟩ n (hfresh hs hnew) hbad.1 hlabel hbad.2
    exact ⟨text, by rw [List.foldlM_cons, hx]; rfl⟩
  | @inside stack x done xs hlabel hnew hgood hstops ih =>
    obtain ⟨n, rfl⟩ := hbounded.pos
    cases hbuiltin : resolveBuiltin process manifest ov x with
    | some v =>
      have hnext : (propertyGraph process manifest ov).next x = [] := sourceNames_builtin hbuiltin
      rw [hnext] at hstops
      cases hstops
    | none =>
      obtain ⟨raw, hsource⟩ := not_forall_not.mp fun hbad => hgood ⟨hbuiltin, hbad⟩
      obtain ⟨text, hrun⟩ := ih n (hin.enter hnew hbuiltin) (hbounded.enter hlabel) hs
      have hrun' : (sourceNames process manifest ov x).foldlM (resolve process manifest ov n)
          ⟨out, x :: stack⟩ = .error (.failed text) := hrun
      refine ⟨text, ?_⟩
      rw [List.foldlM_cons, resolve_inside n (hfresh hs hnew) hbuiltin hlabel hsource]
      dsimp only
      rw [hrun']
      rfl
  | @skip stack x done xs hlabel hdone _ ih =>
    obtain ⟨n, rfl⟩ := hbounded.pos
    obtain ⟨text, hrun⟩ := ih (n + 1) hin hbounded.tail hs
    exact ⟨text, by rw [List.foldlM_cons, resolve_settled n ((hs.keys x).mpr hdone)]; exact hrun⟩
  | @visit stack x done mid xs hlabel hnew hgood hmid _ ih =>
    obtain ⟨n, rfl⟩ := hbounded.pos
    obtain ⟨out₁, hx, hs₁⟩ := foldlM_resolve_of_walks (.visit hlabel hnew hgood hmid .nil) (n + 1)
      hin hbounded.head hs
    obtain ⟨text, hrun⟩ := ih (n + 1) (hin.leave hlabel hmid) hbounded.tail hs₁
    simp only [List.foldlM_cons, List.foldlM_nil, bind_pure] at hx
    exact ⟨text, by rw [List.foldlM_cons, hx]; exact hrun⟩

end Walk

theorem sourceFor_text (h : sourceFor manifest ov name = .text raw) :
    (name, raw) ∈ ov.cli.entries ++ ov.env.entries ++
      manifest.propertiesRaw.filterMap fun kv => kv.2.getAsString.map (kv.1, ·) := by
  unfold sourceFor at h
  split at h
  · next hcli =>
    cases h
    exact List.mem_append_left _ (List.mem_append_left _ (SortedMap.find?_eq_some.mp hcli))
  · split at h
    · next henv =>
      cases h
      exact List.mem_append_left _ (List.mem_append_right _ (SortedMap.find?_eq_some.mp henv))
    · split at h
      · cases h
      · next hget =>
        cases h
        refine List.mem_append_right _ (List.mem_filterMap.mpr ⟨(name, .str raw), ?_, rfl⟩)
        obtain ⟨kv, hkv, hvalue⟩ := Option.map_eq_some_iff.mp hget
        have hname : kv.1 = name := by simpa using List.find?_some hkv
        have hmem := List.mem_of_find?_eq_some hkv
        obtain ⟨k, v⟩ := kv
        cases hvalue
        cases hname
        exact hmem
      · cases h

theorem mentioned_closed :
    ∀ x ∈ mentioned manifest ov, ∀ y ∈ (propertyGraph process manifest ov).next x,
    y ∈ mentioned manifest ov := by
  intro x _ y hy
  change y ∈ sourceNames process manifest ov x at hy
  unfold sourceNames at hy
  split at hy
  · next raw _ hsource =>
    exact List.mem_append_right _ (List.mem_flatMap.mpr ⟨_, sourceFor_text hsource, hy⟩)
  · cases hy

def declared (manifest : Manifest) : List String := manifest.propertiesRaw.map (·.1)

theorem declared_subset : declared manifest ⊆ mentioned manifest ov := fun _ h =>
  List.mem_append_left _ (List.mem_append_left _ h)

theorem lookup_putBuiltin (l : List (String × String)) (values : SortedMap String String)
    (name : String) : (l.foldl putBuiltin values).find? name =
      (values.find? name).or (l.lookup name) := by
  induction l generalizing values with
  | nil => simp
  | cons kv l ih =>
    rw [List.foldl_cons, ih]
    unfold putBuiltin
    by_cases hkv : values.contains kv.1 = true
    · rw [if_pos hkv]
      by_cases hname : name = kv.1
      · subst hname
        obtain ⟨v, hv⟩ := Option.isSome_iff_exists.mp hkv
        rw [hv]
        rfl
      · rw [List.lookup_cons, beq_false_of_ne hname]
    · rw [if_neg hkv, SortedMap.find?_insert]
      by_cases hname : kv.1 = name
      · subst hname
        have hnone : values.find? kv.1 = none := by
          rw [← Option.not_isSome_iff_eq_none]
          exact hkv
        rw [if_pos rfl, hnone, List.lookup_cons, beq_self_eq_true]
        rfl
      · rw [if_neg hname, List.lookup_cons, beq_false_of_ne (Ne.symm hname)]

theorem beforeDot_of_dropPrefix (pre : List Char) (hpre : '.' ∉ pre)
    (h : dropPrefix (String.ofList (pre ++ ['.'])) name = some rest) :
    beforeDot name = String.ofList pre := by
  unfold dropPrefix at h
  split at h
  · next hname =>
    obtain ⟨t, ht⟩ := List.isPrefixOf_iff_prefix.mp hname.2
    rw [String.toList_ofList, List.append_assoc] at ht
    have hall : ∀ c ∈ pre, (c ≠ '.' : Bool) = true := fun c hc => by
      rw [decide_eq_true_iff]
      rintro rfl
      exact hpre hc
    unfold beforeDot
    rw [← ht, List.takeWhile_append_of_pos hall]
    simp
  · cases h

theorem isBuiltinName_of_resolveBuiltin (h : resolveBuiltin process manifest ov name = some v) :
    isBuiltinName name = true := by
  unfold resolveBuiltin at h
  split at h
  · next hlookup =>
    obtain ⟨l₁, l₂, hl, -⟩ := List.lookup_eq_some_iff.mp hlookup
    have hmem : name ∈ (fixedBuiltins process manifest ov).map (·.1) := by
      rw [hl]
      simp
    have hall : ∀ n ∈ ["details.name", "details.version", "details.group", "details.library",
        "flavor", "profile", "target", "workspace.root", "cajeta.version"],
        isBuiltinName n = true := by decide +kernel
    exact hall name hmem
  · unfold Process.open at h
    split at h
    · next henv =>
      unfold isBuiltinName
      rw [beforeDot_of_dropPrefix ['e', 'n', 'v'] (by decide) henv]
      decide
    · split at h
      · next hartifact =>
        obtain ⟨rest, hrest⟩ := Option.isSome_iff_exists.mp hartifact
        unfold isBuiltinName
        rw [beforeDot_of_dropPrefix ['a', 'r', 't', 'i', 'f', 'a', 'c', 't'] (by decide) hrest]
        decide
      · cases h

/-! ## The order of the properties -/

theorem get_eq_some {o : JObject} (hkeys : (o.map (·.1)).Nodup) :
    o.get key = some v ↔ (key, v) ∈ o := by
  induction o with
  | nil => simp [JObject.get]
  | cons kv o ih =>
    rw [List.map_cons, List.nodup_cons] at hkeys
    unfold JObject.get at ih ⊢
    rw [List.find?_cons, List.mem_cons]
    by_cases hkv : kv.1 = key
    · subst hkv
      have hnot : (kv.1, v) ∉ o := fun hmem => hkeys.1 (List.mem_map.mpr ⟨_, hmem, rfl⟩)
      simp [hnot, Prod.ext_iff, eq_comm]
    · have hne : (key, v) ≠ kv := fun heq => hkv (heq ▸ rfl)
      simp only [beq_false_of_ne hkv, hne, false_or]
      exact ih hkeys.2

theorem get_perm {o o' : JObject} (hkeys : (o.map (·.1)).Nodup) (hperm : o'.Perm o) (key : String) :
    o'.get key = o.get key := by
  have hkeys' : (o'.map (·.1)).Nodup := (hperm.map _).nodup_iff.mpr hkeys
  refine Option.ext fun v => ?_
  rw [get_eq_some hkeys', get_eq_some hkeys, hperm.mem_iff]

def Manifest.reorder (manifest : Manifest) (raw : JObject) : Manifest :=
  { manifest with propertiesRaw := raw }

section Reorder

variable {raw' : JObject}

theorem sourceFor_reorder (hkeys : (declared manifest).Nodup)
    (hperm : raw'.Perm manifest.propertiesRaw) :
    sourceFor (manifest.reorder raw') ov = sourceFor manifest ov := by
  funext name
  unfold sourceFor
  rw [show (manifest.reorder raw').propertiesRaw.get name = manifest.propertiesRaw.get name from
    get_perm hkeys hperm name]

theorem fixedBuiltins_reorder : fixedBuiltins process (manifest.reorder raw') ov =
    fixedBuiltins process manifest ov := rfl

theorem resolveBuiltin_reorder : resolveBuiltin process (manifest.reorder raw') ov =
    resolveBuiltin process manifest ov := rfl

theorem propertyGraph_reorder (hkeys : (declared manifest).Nodup)
    (hperm : raw'.Perm manifest.propertiesRaw) :
    propertyGraph process (manifest.reorder raw') ov = propertyGraph process manifest ov := by
  unfold propertyGraph sourceNames
  simp only [sourceFor_reorder hkeys hperm, resolveBuiltin_reorder]

theorem ValueOf.reorder (hkeys : (declared manifest).Nodup)
    (hperm : raw'.Perm manifest.propertiesRaw)
    (h : ValueOf process (manifest.reorder raw') ov values name v) :
    ValueOf process manifest ov values name v := by
  cases h with
  | builtin hv => exact .builtin hv
  | text hnone hsource hreads hfill =>
    rw [sourceFor_reorder hkeys hperm] at hsource
    exact .text hnone hsource hreads hfill

theorem Settled.reorder (hkeys : (declared manifest).Nodup)
    (hperm : raw'.Perm manifest.propertiesRaw)
    (h : Settled process (manifest.reorder raw') ov done out) :
    Settled process manifest ov done out where
  keys := h.keys
  value name v hv := (h.value name v hv).reorder hkeys hperm

end Reorder

theorem Settled.unique (hlisted : Listed (propertyGraph process manifest ov) done)
    (hs : Settled process manifest ov done out) (hs' : Settled process manifest ov done' out')
    (hmem : ∀ n, n ∈ done ↔ n ∈ done') (n : String) :
    out.values.find? n = out'.values.find? n := by
  by_cases hn : n ∈ done
  · obtain ⟨a, b, hsplit⟩ := List.append_of_mem hn
    suffices h : ∀ a b, done = a ++ b → ∀ n ∈ a, out.values.find? n = out'.values.find? n by
      exact h done [] (List.append_nil _).symm n hn
    intro a
    induction a using List.reverseRecOn with
    | nil => exact fun _ _ n hn => absurd hn List.not_mem_nil
    | append_singleton a x ih =>
      intro b hsplit n hn
      have ha := ih ([x] ++ b) (by rw [hsplit, List.append_assoc])
      rcases List.mem_append.mp hn with hn | hn
      · exact ha n hn
      · obtain rfl := List.mem_singleton.mp hn
        have hx : n ∈ done := by
          rw [hsplit]
          exact List.mem_append_left _ (List.mem_append_right _ List.mem_cons_self)
        obtain ⟨v, hv⟩ := Option.isSome_iff_exists.mp ((hs.keys n).mpr hx)
        obtain ⟨v', hv'⟩ := Option.isSome_iff_exists.mp ((hs'.keys n).mpr ((hmem n).mp hx))
        rw [hv, hv']
        refine congrArg some ((hs.value n v hv).unique (hs'.value n v' hv') fun m hm => ha m ?_)
        exact hlisted.after a n b (by rw [hsplit, List.append_assoc]; rfl) m hm
  · have hnone := Option.not_isSome_iff_eq_none.mp fun h => hn ((hs.keys n).mp h)
    have hnone' := Option.not_isSome_iff_eq_none.mp fun h => hn ((hmem n).mpr ((hs'.keys n).mp h))
    rw [hnone, hnone']

/-! ## Guarantees -/

/-- No property has the name of a built-in, and none leads to a name without a text or to a
reference that comes back. -/
structure Resolvable (process : Process) (manifest : Manifest) (ov : PropertyOverrides) : Prop where
  names : ∀ name ∈ declared manifest, ¬isBuiltinName name = true
  reach : ∀ name ∈ declared manifest, ∀ n, (propertyGraph process manifest ov).Reach name n →
    ¬(propertyGraph process manifest ov).Bad n ∧ ¬(propertyGraph process manifest ov).Leads n n

theorem refuseCollisions_eq_ok : refuseCollisions manifest = .ok () ↔
    ∀ name ∈ declared manifest, ¬isBuiltinName name = true := by
  unfold refuseCollisions
  rw [Except.forM_eq_ok]
  simp only [Except.require_eq_ok, declared, List.forall_mem_map]

theorem resolveProperties_of_names (h : ∀ name ∈ declared manifest, ¬isBuiltinName name = true) :
    resolveProperties process manifest ov = (do
      let st ← (declared manifest).foldlM (resolve process manifest ov (resolveFuel manifest ov)) {}
      return { st.out with
        values := (fixedBuiltins process manifest ov).foldl putBuiltin st.out.values }) := by
  unfold resolveProperties
  rw [refuseCollisions_eq_ok.mpr h]
  rfl

theorem resolveProperties_of_resolvable (h : Resolvable process manifest ov) :
    ∃ done out p, Walks (propertyGraph process manifest ov) [] [] (declared manifest) done ∧
      Settled process manifest ov done out ∧ resolveProperties process manifest ov = .ok p ∧
      p.values = (fixedBuiltins process manifest ov).foldl putBuiltin out.values := by
  obtain ⟨done, hwalks⟩ := (walks_iff rfl mentioned_closed declared_subset).mpr h.reach
  obtain ⟨out, hrun, hs⟩ := foldlM_resolve_of_walks hwalks (resolveFuel manifest ov) .start
    (.start mentioned_closed declared_subset (Nat.lt_succ_self _)) .start
  refine ⟨done, out, ⟨(fixedBuiltins process manifest ov).foldl putBuiltin out.values,
    out.resolutionOrder⟩, hwalks, hs, ?_, by dsimp only⟩
  rw [resolveProperties_of_names h.names, show ({} : Resolving) = ⟨{}, []⟩ from rfl, hrun,
    Except.ok_bind]
  dsimp only [pure, Except.pure]

theorem refuseCollisions_refuses (h : ¬∀ name ∈ declared manifest, ¬isBuiltinName name = true) :
    ∃ text, refuseCollisions manifest = .error (.failed text) := by
  rw [← refuseCollisions_eq_ok] at h
  cases hcheck : refuseCollisions manifest with
  | ok u => exact absurd hcheck h
  | error e =>
    obtain ⟨kv, -, hkv⟩ := Except.exists_of_forM_eq_error hcheck
    unfold Except.require at hkv
    split at hkv
    · cases hkv
    · cases hkv
      exact ⟨_, rfl⟩

theorem resolveProperties_refuses (h : ¬Resolvable process manifest ov) :
    ∃ text, resolveProperties process manifest ov = .error (.failed text) := by
  by_cases hnames : ∀ name ∈ declared manifest, ¬isBuiltinName name = true
  · have hnot : ¬∃ done, Walks (propertyGraph process manifest ov) [] [] (declared manifest) done :=
      fun hwalks => h ⟨hnames, (walks_iff rfl mentioned_closed declared_subset).mp hwalks⟩
    have hstops := (walks_or_stops mentioned_closed List.nodup_nil (List.nil_subset _)
      declared_subset []).resolve_left hnot
    obtain ⟨text, hrun⟩ := foldlM_resolve_of_stops hstops (resolveFuel manifest ov) .start
      (.start mentioned_closed declared_subset (Nat.lt_succ_self _)) .start
    refine ⟨text, ?_⟩
    rw [resolveProperties_of_names hnames, show ({} : Resolving) = ⟨{}, []⟩ from rfl, hrun]
    rfl
  · obtain ⟨text, hcheck⟩ := refuseCollisions_refuses hnames
    refine ⟨text, ?_⟩
    unfold resolveProperties
    rw [hcheck]
    rfl

theorem resolvable_reorder {raw' : JObject} (hkeys : (declared manifest).Nodup)
    (hperm : raw'.Perm manifest.propertiesRaw) :
    Resolvable process (manifest.reorder raw') ov ↔ Resolvable process manifest ov := by
  have hmem : ∀ name, name ∈ declared (manifest.reorder raw') ↔ name ∈ declared manifest :=
    fun name => (hperm.map _).mem_iff
  constructor
  · rintro ⟨hnames, hreach⟩
    rw [propertyGraph_reorder hkeys hperm] at hreach
    exact ⟨fun name h => hnames name ((hmem name).mpr h),
      fun name h => hreach name ((hmem name).mpr h)⟩
  · rintro ⟨hnames, hreach⟩
    refine ⟨fun name h => hnames name ((hmem name).mp h), fun name h => ?_⟩
    rw [propertyGraph_reorder hkeys hperm]
    exact hreach name ((hmem name).mp h)

structure Valued (process : Process) (manifest : Manifest) (ov : PropertyOverrides)
    (values : String → Option String) : Prop where
  reached : ∀ name ∈ declared manifest, ∀ n, (propertyGraph process manifest ov).Reach name n →
    ∃ v, values n = some v ∧ ValueOf process manifest ov values n v
  text : ∀ name ∈ declared manifest, ∃ raw ps r, sourceFor manifest ov name = .text raw ∧
    Reads raw.toList ps ∧ fill values ps = .ok r ∧ values name = some (String.ofList r)

theorem Settled.valued_of_reach (hs : Settled process manifest ov done out)
    (h : Walks (propertyGraph process manifest ov) [] [] (declared manifest) done)
    (hname : name ∈ declared manifest) (hreach : (propertyGraph process manifest ov).Reach name n) :
    ∃ v, ((fixedBuiltins process manifest ov).foldl putBuiltin out.values).find? n = some v ∧
      ValueOf process manifest ov
        ((fixedBuiltins process manifest ov).foldl putBuiltin out.values).find? n v := by
  obtain ⟨v, hv⟩ := Option.isSome_iff_exists.mp
    ((hs.keys n).mpr ((h.start.2 n).mpr ⟨name, hname, hreach⟩))
  have hle : ∀ n v, out.values.find? n = some v →
      ((fixedBuiltins process manifest ov).foldl putBuiltin out.values).find? n = some v := by
    intro n v hv
    rw [lookup_putBuiltin, hv]
    rfl
  exact ⟨v, hle n v hv, (hs.value n v hv).mono hle⟩

theorem Settled.valued (hs : Settled process manifest ov done out)
    (hnames : ∀ name ∈ declared manifest, ¬isBuiltinName name = true)
    (h : Walks (propertyGraph process manifest ov) [] [] (declared manifest) done) :
    Valued process manifest ov
      ((fixedBuiltins process manifest ov).foldl putBuiltin out.values).find? := by
  have hreached : ∀ name ∈ declared manifest, ∀ n,
      (propertyGraph process manifest ov).Reach name n → ∃ v,
        ((fixedBuiltins process manifest ov).foldl putBuiltin out.values).find? n = some v ∧
        ValueOf process manifest ov
          ((fixedBuiltins process manifest ov).foldl putBuiltin out.values).find? n v :=
    fun name hname n hreach => hs.valued_of_reach h hname hreach
  refine ⟨hreached, fun name hname => ?_⟩
  obtain ⟨v, hv, hvalue⟩ := hreached name hname name .refl
  cases hvalue with
  | builtin hbuiltin => exact absurd (isBuiltinName_of_resolveBuiltin hbuiltin) (hnames name hname)
  | @text raw ps r _ hsource hreads hfill => exact ⟨raw, ps, r, hsource, hreads, hfill, hv⟩

/-- A resolution succeeds exactly when no property has the name of a built-in and none leads to a
name without a text or to a cycle. It then gives every property its value. The order of the
properties has no say in any of this. -/
theorem resolveProperties_spec {raw' : JObject} (hkeys : (declared manifest).Nodup)
    (hperm : raw'.Perm manifest.propertiesRaw) :
    resolveProperties process manifest ov ≠ .error .outOfFuel ∧
    ((∃ p, resolveProperties process manifest ov = .ok p) ↔ Resolvable process manifest ov) ∧
    (∀ p, resolveProperties process manifest ov = .ok p →
      Valued process manifest ov p.values.find?) ∧
    ((∃ p', resolveProperties process (manifest.reorder raw') ov = .ok p') ↔
      ∃ p, resolveProperties process manifest ov = .ok p) ∧
    ∀ p p', resolveProperties process manifest ov = .ok p →
      resolveProperties process (manifest.reorder raw') ov = .ok p' →
      ∀ name, p'.values.find? name = p.values.find? name := by
  have hiff : ∀ manifest : Manifest, (∃ p, resolveProperties process manifest ov = .ok p) ↔
      Resolvable process manifest ov := by
    intro manifest
    constructor
    · rintro ⟨p, hp⟩
      by_contra h
      obtain ⟨text, htext⟩ := resolveProperties_refuses h
      rw [htext] at hp
      cases hp
    · intro h
      obtain ⟨_, _, p, -, -, hp, -⟩ := resolveProperties_of_resolvable h
      exact ⟨p, hp⟩
  refine ⟨fun hfuel => ?_, hiff manifest, fun p hp => ?_, ?_, fun p p' hp hp' name => ?_⟩
  · by_cases h : Resolvable process manifest ov
    · obtain ⟨_, _, p, -, -, hp, -⟩ := resolveProperties_of_resolvable h
      rw [hp] at hfuel
      cases hfuel
    · obtain ⟨text, htext⟩ := resolveProperties_refuses h
      rw [htext] at hfuel
      cases hfuel
  · obtain ⟨_, _, q, hwalks, hs, hq, hvalues⟩ :=
      resolveProperties_of_resolvable ((hiff manifest).mp ⟨p, hp⟩)
    obtain rfl := Except.ok.inj (hp.symm.trans hq)
    rw [hvalues]
    exact hs.valued ((hiff manifest).mp ⟨p, hp⟩).names hwalks
  · rw [hiff, hiff, resolvable_reorder hkeys hperm]
  · obtain ⟨done, _, q, hwalks, hs, hq, hvalues⟩ :=
      resolveProperties_of_resolvable ((hiff manifest).mp ⟨p, hp⟩)
    obtain ⟨done', _, q', hwalks', hs', hq', hvalues'⟩ :=
      resolveProperties_of_resolvable ((hiff (manifest.reorder raw')).mp ⟨p', hp'⟩)
    obtain rfl := Except.ok.inj (hp.symm.trans hq)
    obtain rfl := Except.ok.inj (hp'.symm.trans hq')
    rw [propertyGraph_reorder hkeys hperm] at hwalks'
    have hmem : ∀ n, n ∈ done ↔ n ∈ done' := by
      intro n
      rw [hwalks.start.2, hwalks'.start.2]
      exact exists_congr fun x => and_congr_left' (hperm.map _).mem_iff.symm
    have heq := hs.unique hwalks.start.1 (hs'.reorder hkeys hperm) hmem name
    rw [hvalues, hvalues', fixedBuiltins_reorder, lookup_putBuiltin, lookup_putBuiltin, heq]

/-- A process without an environment. -/
def bareProcess : Process where
  getenv _ := none
  cajetaVersion := ""

def withProperties (raw : JObject) : Manifest where
  details := { name := "app", version := "1" }
  propertiesRaw := raw
  sourcePath := "cajeta.json"

def referringA : String × Json := ("a", .str "$\x7bb\x7d$$")

def plainB : String × Json := ("b", .str "x")

/-- `a` refers to `b`, which comes after it or before it. -/
theorem resolveProperties_sample :
    resolveProperties bareProcess (withProperties [referringA, plainB]) {} ≠ .error .outOfFuel ∧
    ((∃ p, resolveProperties bareProcess (withProperties [referringA, plainB]) {} = .ok p) ↔
      Resolvable bareProcess (withProperties [referringA, plainB]) {}) ∧
    (∀ p, resolveProperties bareProcess (withProperties [referringA, plainB]) {} = .ok p →
      Valued bareProcess (withProperties [referringA, plainB]) {} p.values.find?) ∧
    ((∃ p', resolveProperties bareProcess
        ((withProperties [referringA, plainB]).reorder [plainB, referringA]) {} = .ok p') ↔
      ∃ p, resolveProperties bareProcess (withProperties [referringA, plainB]) {} = .ok p) ∧
    ∀ p p', resolveProperties bareProcess (withProperties [referringA, plainB]) {} = .ok p →
      resolveProperties bareProcess
        ((withProperties [referringA, plainB]).reorder [plainB, referringA]) {} = .ok p' →
      ∀ name, p'.values.find? name = p.values.find? name :=
  resolveProperties_spec (by decide) (.swap _ _ _)

/-- A property with the name of a built-in refers to nothing, and fails. -/
theorem colliding_property_fails :
    (∀ name ∈ declared (withProperties [("flavor", .str "x")]), ∀ n,
      (propertyGraph bareProcess (withProperties [("flavor", .str "x")]) {}).Reach name n →
      ¬(propertyGraph bareProcess (withProperties [("flavor", .str "x")]) {}).Bad n ∧
      ¬(propertyGraph bareProcess (withProperties [("flavor", .str "x")]) {}).Leads n n) ∧
    ∃ text, resolveProperties bareProcess (withProperties [("flavor", .str "x")]) {} =
      .error (.failed text) := by
  have hbuiltin : resolveBuiltin bareProcess (withProperties [("flavor", .str "x")]) {} "flavor" =
      some "" := by decide
  have hnext : ∀ y, ¬(propertyGraph bareProcess (withProperties [("flavor", .str "x")]) {}).Edge
      "flavor" y := by
    intro y hy
    have hnone := sourceNames_builtin hbuiltin
    rw [WalkGraph.Edge, show (propertyGraph bareProcess (withProperties [("flavor", .str "x")])
      {}).next
      "flavor" = [] from hnone] at hy
    cases hy
  refine ⟨fun name hname n hreach => ?_, resolveProperties_refuses fun h => h.names "flavor"
    List.mem_cons_self (by decide)⟩
  obtain rfl := List.mem_singleton.mp hname
  rcases Relation.ReflTransGen.cases_head hreach with rfl | ⟨y, hy, -⟩
  · refine ⟨fun hbad => ?_, fun hcycle => ?_⟩
    · rw [hbad.1] at hbuiltin
      cases hbuiltin
    · obtain ⟨y, hy, -⟩ := Relation.TransGen.head'_iff.mp hcycle
      exact hnext y hy
  · exact absurd hy (hnext y)

end Cajeta.Buildtool
