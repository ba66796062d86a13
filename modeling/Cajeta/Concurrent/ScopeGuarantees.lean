import Cajeta.Concurrent.ScopeFrames

/-!
# Structured concurrency

An exit that no cancellation interrupts leaves no task behind: the invariant of the chains of all
parties, and what it says where an exit ends.
-/

namespace Cajeta.Concurrent
variable {tasks tasks' : ScopeTasks} {chain gone : List ScopeFrame} {a b : ScopeParty}
  {x : ScopeExit} {f : ScopeFrame}

namespace ScopeExit

/-- How many frames the exit leaves: those above the watermark, or all when it is not in the chain.
-/
def leaves (x : ScopeExit) : Nat :=
  if x.mark ≤ x.entered.length then x.entered.length - x.mark else x.entered.length

def left (x : ScopeExit) : List ScopeFrame := x.entered.take x.leaves

def kept (x : ScopeExit) : List ScopeFrame := x.entered.drop x.leaves

end ScopeExit

/-- What an exit promises that has ended in `raised`: it has joined the frames that it left, they
are off the chain, and it raises the first exception of the innermost frame that has one. -/
structure ScopeExit.Joined (tasks : ScopeTasks) (chain : List ScopeFrame) (x : ScopeExit)
    (raised : Option Throwable) : Prop where
  frames : ∀ f ∈ x.left, f.Joined tasks
  offChain : chain = x.kept
  raised_eq : raised = x.left.findSome? (ScopeFrame.firstException tasks)

/-- An exit under way that has left `gone`. -/
structure ScopeExit.Sound (tasks : ScopeTasks) (p : Party) (chain : List ScopeFrame)
    (gone : List ScopeFrame) (x : ScopeExit) : Prop where
  entered : x.entered = gone ++ chain
  joined : ∀ f ∈ gone, f.Joined tasks ∧ f.Of tasks p
  nodup : (x.entered.flatMap ScopeFrame.registered).Nodup
  mark : x.mark ≤ x.entered.length → x.mark ≤ chain.length
  trigger : x.trigger = gone.findSome? (ScopeFrame.firstException tasks)
  done : ∀ f ∈ chain.head?, ∀ t ∈ pendingOf (f.entries.take x.i), (tasks t).done
  frameTrigger : ∀ f ∈ chain.head?, x.frameTrigger =
    (pendingOf (f.entries.take x.i)).findSome? fun t => (tasks t).exception

/-! ## What holds of a party -/

structure ScopeParty.Sound (tasks : ScopeTasks) (p : Party) (a : ScopeParty) : Prop where
  frames : ∀ f ∈ a.chain, f.Sound tasks p
  nodup : (a.chain.flatMap ScopeFrame.registered).Nodup
  exit : ∀ x, a.exit = some x → ∃ gone, x.Sound tasks p a.chain gone
  ended : ∀ x raised, a.ended = some (x, raised) →
    x.Joined tasks a.chain raised ∧ ∀ f ∈ x.left, f.Of tasks p

theorem pendingOf_take_subset (f : ScopeFrame) : pendingOf (f.entries.take i) ⊆ f.pending := by
  intro t ht
  obtain ⟨e, he, haddr⟩ := List.mem_filterMap.mp ht
  exact List.mem_filterMap.mpr ⟨e, List.mem_of_mem_take he, haddr⟩

theorem findSome?_firstException_keep {fs : List ScopeFrame}
    (h : ∀ f ∈ fs, f.Joined tasks ∧ f.Of tasks p)
    (hk : ∀ t, (tasks t).spawner = some p → (tasks t).Keeps (tasks' t)) :
    fs.findSome? (ScopeFrame.firstException tasks') =
      fs.findSome? (ScopeFrame.firstException tasks) :=
  findSome?_congr fun f hf => (h f hf).1.firstException_keep fun t ht => hk t ((h f hf).2 t ht)

theorem ScopeExit.Sound.keep (h : x.Sound tasks p chain gone)
    (hframes : ∀ f ∈ chain, f.Sound tasks p)
    (hk : ∀ t, (tasks t).spawner = some p → (tasks t).Keeps (tasks' t)) :
    x.Sound tasks' p chain gone := by
  have htask : ∀ f ∈ chain.head?, ∀ t ∈ pendingOf (f.entries.take x.i),
      (tasks t).Keeps (tasks' t) := by
    intro f hf t ht
    have hsound := hframes f (List.mem_of_mem_head? hf)
    exact hk t (hsound.spawner t (hsound.mem_pending.mp (pendingOf_take_subset f ht)).1)
  refine ⟨h.entered, fun f hf => ?_, h.nodup, h.mark, ?_, fun f hf t ht => ?_, fun f hf => ?_⟩
  · obtain ⟨hjoined, hof⟩ := h.joined f hf
    have hkf : ∀ t ∈ f.registered, (tasks t).Keeps (tasks' t) := fun t ht => hk t (hof t ht)
    exact ⟨hjoined.keep hkf, hof.keep hkf⟩
  · rw [h.trigger]
    exact (findSome?_firstException_keep h.joined hk).symm
  · exact (htask f hf t ht).done (h.done f hf t ht)
  · rw [h.frameTrigger f hf]
    exact findSome?_congr fun t ht => ((htask f hf t ht).exception (h.done f hf t ht)).symm

theorem ScopeParty.Sound.keep (h : a.Sound tasks p) (hs : ∀ t, (tasks t).Sound)
    (hk : ∀ t, (tasks t).spawner = some p → (tasks t).Keeps (tasks' t))
    (hchain : b.chain = a.chain) (hexit : b.exit = a.exit) (hended : b.ended = a.ended) :
    b.Sound tasks' p := by
  refine ⟨fun f hf => ?_, by rw [hchain]; exact h.nodup, fun x hx => ?_, fun x raised hx => ?_⟩
  · rw [hchain] at hf
    exact (h.frames f hf).keep hs fun t ht => hk t ((h.frames f hf).spawner t ht)
  · rw [hexit] at hx
    obtain ⟨gone, hgone⟩ := h.exit x hx
    rw [hchain]
    exact ⟨gone, hgone.keep h.frames hk⟩
  · rw [hended] at hx
    obtain ⟨hjoined, hof⟩ := h.ended x raised hx
    have hkf : ∀ f ∈ x.left, ∀ t ∈ f.registered, (tasks t).Keeps (tasks' t) := fun f hf t ht =>
      hk t (hof f hf t ht)
    refine ⟨⟨fun f hf => (hjoined.frames f hf).keep (hkf f hf), ?_, ?_⟩, fun f hf =>
      (hof f hf).keep (hkf f hf)⟩
    · rw [hchain]
      exact hjoined.offChain
    · rw [hjoined.raised_eq]
      exact (findSome?_firstException_keep (fun f hf => ⟨hjoined.frames f hf, hof f hf⟩) hk).symm

namespace ScopeSystem
variable {s s' : ScopeSystem}

structure Sound (s : ScopeSystem) : Prop where
  tasks : ∀ t, (s.tasks t).Sound
  parties : ∀ p, (s.parties p).Sound s.tasks p

theorem sound_initial : initial.Sound where
  tasks _ := ⟨fun h => absurd rfl h, Nat.zero_le 1, fun h => absurd rfl h⟩
  parties _ := by
    refine ⟨fun f hf => ?_, List.nodup_nil, fun x hx => ?_, fun x raised hx => ?_⟩
    · cases hf
    · cases hx
    · cases hx

theorem Sound.act (h : s.Sound) (htasks : ∀ t, (tasks' t).Sound)
    (hk : ∀ q ≠ p, ∀ t, (s.tasks t).spawner = some q → (s.tasks t).Keeps (tasks' t))
    (hp : a.Sound tasks' p) : Sound ⟨tasks', Function.update s.parties p a⟩ := by
  refine ⟨htasks, fun q => ?_⟩
  by_cases hq : q = p
  · subst hq
    show (Function.update s.parties q a q).Sound tasks' q
    rwa [Function.update_self]
  · show (Function.update s.parties p a q).Sound tasks' q
    rw [Function.update_of_ne hq]
    exact (h.parties q).keep h.tasks (hk q hq) rfl rfl rfl

theorem Sound.setParty (h : s.Sound) (hp : a.Sound s.tasks p) : (s.setParty p a).Sound :=
  h.act h.tasks (fun _ _ _ _ => .refl _) hp

theorem cancelAll_party (s : ScopeSystem) (ts : List TaskId) (c : Throwable) (p : Party) :
    ((s.cancelAll ts c).parties p).chain = (s.parties p).chain ∧
    ((s.cancelAll ts c).parties p).exit = (s.parties p).exit ∧
    ((s.cancelAll ts c).parties p).ended = (s.parties p).ended := by
  cases p with
  | program => exact ⟨rfl, rfl, rfl⟩
  | fiber t =>
    unfold cancelAll
    dsimp only
    split <;> exact ⟨rfl, rfl, rfl⟩

theorem Sound.cancelAll (h : s.Sound) : (s.cancelAll ts c).Sound := by
  refine ⟨h.tasks, fun p => ?_⟩
  obtain ⟨hchain, hexit, hended⟩ := cancelAll_party s ts c p
  exact (h.parties p).keep h.tasks (fun _ _ => .refl _) hchain hexit hended

theorem Sound.setTask (h : s.Sound) (hk : (s.tasks t).spawner ≠ none → (s.tasks t).Keeps k)
    (hsound : k.Sound) : (s.setTask t k).Sound := by
  have hself : (s.setTask t k).tasks t = k := Function.update_self ..
  have hother : ∀ u ≠ t, (s.setTask t k).tasks u = s.tasks u := fun u hu =>
    Function.update_of_ne hu ..
  have hkeeps : ∀ p u, (s.tasks u).spawner = some p →
      (s.tasks u).Keeps ((s.setTask t k).tasks u) := by
    intro p u hu
    by_cases heq : u = t
    · subst heq
      rw [hself]
      exact hk fun hnone => by rw [hnone] at hu; cases hu
    · rw [hother u heq]
      exact .refl _
  refine ⟨fun u => ?_, fun p => (h.parties p).keep h.tasks (hkeeps p) rfl rfl rfl⟩
  by_cases heq : u = t
  · subst heq
    rwa [hself]
  · rw [hother u heq]
    exact h.tasks u

end ScopeSystem

theorem pendingOf_take_succ (h : f.entries[i]? = some e) :
    pendingOf (f.entries.take (i + 1)) = pendingOf (f.entries.take i) ++ e.doneAddr.toList := by
  rw [List.take_add_one, h, pendingOf, List.filterMap_append, Option.toList_some]
  congr 1

theorem ScopeExit.Sound.advance (h : x.Sound tasks p (f :: chain) gone)
    (he : f.entries[x.i]? = some e) (hdone : ∀ t ∈ e.doneAddr, (tasks t).done)
    (htrigger : c = x.frameTrigger.or (e.doneAddr.bind fun t => (tasks t).exception)) :
    ScopeExit.Sound tasks p (f :: chain) gone
      { x with i := x.i + 1, phase := .next, frameTrigger := c } := by
  refine ⟨h.entered, h.joined, h.nodup, h.mark, h.trigger, fun g hg t ht => ?_, fun g hg => ?_⟩
  · cases hg
    rw [pendingOf_take_succ he, List.mem_append, Option.mem_toList] at ht
    rcases ht with ht | ht
    · exact h.done f rfl t ht
    · exact hdone t ht
  · cases hg
    show c = _
    rw [htrigger, h.frameTrigger f rfl, pendingOf_take_succ he, List.findSome?_append]
    cases e.doneAddr with
    | none => rfl
    | some t =>
      rw [Option.toList_some]
      cases h : (tasks t).exception <;> simp [h]

/-! ## A party between its exits -/

theorem ScopeParty.Sound.idle (hframes : ∀ f ∈ a.chain, f.Sound tasks p)
    (hnodup : (a.chain.flatMap ScopeFrame.registered).Nodup) (hexit : a.exit = none)
    (hended : a.ended = none) : a.Sound tasks p := by
  refine ⟨hframes, hnodup, fun x hx => ?_, fun x raised hx => ?_⟩
  · rw [hexit] at hx
    cases hx
  · rw [hended] at hx
    cases hx

namespace ScopeSystem
variable {s s' : ScopeSystem}

theorem exit_of_idle (h : s.idle p) : (s.parties p).exit = none := by
  exact Option.isNone_iff_eq_none.mp (Bool.and_eq_true_iff.mp h).1

theorem started_of_idle (h : s.idle (.fiber t)) :
    (s.tasks t).spawner ≠ none ∧ (s.tasks t).done = false := by
  have hstarted : s.started t = true := (Bool.and_eq_true_iff.mp h).2
  rw [started, Bool.and_eq_true, Option.isSome_iff_ne_none, Bool.not_eq_true'] at hstarted
  exact hstarted

theorem Sound.enter (h : s.Sound) (hidle : s.idle p) : (s.setParty p
    { s.parties p with chain := .empty :: (s.parties p).chain, ended := none }).Sound := by
  have hp := h.parties p
  refine h.setParty (.idle (fun f hf => ?_) hp.nodup (exit_of_idle hidle) rfl)
  rcases List.mem_cons.mp hf with rfl | hf
  · exact .empty
  · exact hp.frames f hf

theorem Sound.spawn (h : s.Sound) (hidle : s.idle p) (hfresh : (s.tasks t).spawner = none) :
    (s.spawn p t mode).Sound := by
  have hnot : ∀ f ∈ (s.parties p).chain, t ∉ f.registered := by
    intro f hf ht
    have hspawner := ((h.parties p).frames f hf).spawner t ht
    rw [hfresh] at hspawner
    cases hspawner
  have h₁ : (s.setTask t (spawned p mode)).Sound :=
    h.setTask (fun hne => absurd hfresh hne)
      ⟨fun hne => absurd rfl hne, Nat.zero_le 1, fun hne => absurd rfl hne⟩
  have hself : (s.setTask t (spawned p mode)).tasks t = spawned p mode := Function.update_self ..
  have hp := h₁.parties p
  have hexit := exit_of_idle hidle
  have hunregistered : ((s.setTask t (spawned p mode)).setParty p
      { s.parties p with ended := none }).Sound :=
    h₁.setParty (.idle hp.frames hp.nodup hexit rfl)
  unfold ScopeSystem.spawn
  dsimp only
  split
  · exact hunregistered
  · next f chain hchain =>
    have hf : f ∈ (s.parties p).chain := by
      have hc : (s.parties p).chain = f :: chain := hchain
      rw [hc]
      exact List.mem_cons_self
    split
    · exact hunregistered
    · have hchain' : (s.parties p).chain = f :: chain := hchain
      have hframes : ∀ g ∈ f :: chain, g.Sound (s.setTask t (spawned p mode)).tasks p := by
        rw [← hchain']
        exact hp.frames
      have hnodup : (f.registered ++ chain.flatMap ScopeFrame.registered).Nodup := by
        have hall := hp.nodup
        rw [show ((s.setTask t (spawned p mode)).parties p).chain = f :: chain from hchain'] at hall
        exact hall
      have htself := congrArg ScopeTask.spawner hself
      obtain ⟨f', ts, hregister, hf', hregistered, hts, hfreed⟩ :=
        (hframes f List.mem_cons_self).register (mode = .discarded) (hnot f hf) htself
          (congrArg ScopeTask.freed hself) (congrArg ScopeTask.discarded hself)
      rw [hregister]
      have hothers : ∀ g ∈ chain, ∀ u ∈ g.registered, u ∉ ts := fun g hg u hu hmem =>
        (List.nodup_append.mp hnodup).2.2 u (hfreed u hmem).1 u
          (List.mem_flatMap.mpr ⟨g, hg, hu⟩) rfl
      refine h₁.act (fun u => ScopeTasks.free_sound hts
          (fun u hu => ⟨(hfreed u hu).2.1, (hfreed u hu).2.2.1⟩)
          (fun u hu _ => (hfreed u hu).2.2.2) (h₁.tasks u))
        (fun q hq u hu => ScopeTasks.free_keeps fun hmem => hq ?_)
        (.idle (fun g hg => ?_) ?_ hexit rfl)
      · have hmine := (hframes f List.mem_cons_self).spawner u (hfreed u hmem).1
        exact Option.some.inj (hu.symm.trans hmine)
      · rcases List.mem_cons.mp hg with rfl | hg
        · exact hf'
        · exact (hframes g (List.mem_cons_of_mem _ hg)).free_disjoint (hothers g hg)
      · have hnew : ∀ g ∈ chain, t ∉ g.registered := fun g hg =>
          hnot g (by rw [hchain']; exact List.mem_cons_of_mem _ hg)
        show (f'.registered ++ chain.flatMap ScopeFrame.registered).Nodup
        rw [hregistered, List.append_assoc]
        refine List.nodup_middle.mpr (List.nodup_cons.mpr ⟨fun hmem => ?_, hnodup⟩)
        rcases List.mem_append.mp hmem with hmem | hmem
        · exact hnot f hf hmem
        · obtain ⟨g, hg, hu⟩ := List.mem_flatMap.mp hmem
          exact hnew g hg hu

theorem Sound.await (h : s.Sound) (hold : s.holds p t) : (s.await p t).Sound := by
  obtain ⟨hidle, hspawner, -⟩ := hold
  have hp := h.parties p
  refine h.act (fun u => ⟨(h.tasks u).freed_done, (h.tasks u).freed_once, fun hf hd => ?_⟩)
    (fun q hq u hu => ?_)
    (.idle (fun f hf => (hp.frames f hf).await) hp.nodup (exit_of_idle hidle) rfl)
  · show (if u = t then none else (s.tasks u).exception) = none
    rw [(h.tasks u).heard hf hd, ite_self]
  have hne : u ≠ t := by
    rintro rfl
    exact hq (Option.some.inj (hu.symm.trans hspawner))
  exact ⟨rfl, rfl, rfl, id, fun _ => if_neg hne⟩

theorem Sound.drop (h : s.Sound) (hold : s.holds p t) (hquiet : (s.tasks t).exception = none) :
    (s.drop p t).Sound := by
  obtain ⟨hidle, hspawner, hdone, -, hfreed⟩ := hold
  have hp := h.parties p
  refine h.act (fun u => ScopeTasks.free_sound (List.nodup_singleton t) (fun v hv => ?_)
    (fun v hv _ => ?_) (h.tasks u)) (fun q hq u hu => ScopeTasks.free_keeps fun hmem => hq ?_)
    (.idle (fun f hf => ?_) ?_ (exit_of_idle hidle) rfl)
  · rw [List.mem_singleton.mp hv]
    exact ⟨hfreed, hdone⟩
  · rwa [List.mem_singleton.mp hv]
  · rw [List.mem_singleton.mp hmem, hspawner] at hu
    exact (Option.some.inj hu).symm
  · obtain ⟨g, hg, rfl⟩ := List.mem_map.mp hf
    exact (hp.frames g hg).deregister hquiet
  · show (((s.parties p).chain.map (ScopeFrame.deregister t)).flatMap ScopeFrame.registered).Nodup
    rw [List.flatMap_map]
    exact hp.nodup

/-! ## The steps of an exit -/

theorem current_eq_some (h : s.current p phase = some (x, f, chain)) :
    (s.parties p).exit = some x ∧ (s.parties p).chain = f :: chain ∧ x.phase = phase ∧
      chain.length + 1 ≠ x.mark := by
  unfold current at h
  split at h
  · next x' f' chain' hexit hchain =>
    rw [Option.ite_none_right_eq_some] at h
    obtain ⟨⟨hphase, hmark⟩, heq⟩ := h
    cases heq
    exact ⟨hexit, hchain, hphase, hmark⟩
  · cases h

theorem Sound.setExit (h : s.Sound) (hx : ∃ gone, x.Sound s.tasks p (s.parties p).chain gone) :
    (s.setExit p x).Sound := by
  have hp := h.parties p
  refine h.setParty ⟨hp.frames, hp.nodup, fun x' hx' => ?_, hp.ended⟩
  cases hx'
  exact hx

theorem Sound.beginExit (h : s.Sound) : (s.setParty p { s.parties p with
    exit := some ⟨mark, 0, .next, none, none, (s.parties p).chain⟩, ended := none }).Sound := by
  have hp := h.parties p
  refine h.setParty ⟨hp.frames, hp.nodup, fun x hx => ?_, fun x raised hx => by cases hx⟩
  cases hx
  exact ⟨[], rfl, fun f hf => (by cases hf), hp.nodup, id, rfl, fun f _ t ht => (by cases ht),
    fun f _ => rfl⟩

theorem Sound.joined (h : s.Sound) (hc : s.current p .loop = some (x, f, chain))
    (he : f.entries[x.i]? = some e) (hdone : e.doneAddr.any fun t => (s.tasks t).done) :
    (s.joined p x f e).Sound := by
  obtain ⟨hexit, hchain, -, -⟩ := current_eq_some hc
  obtain ⟨gone, hgone⟩ := (h.parties p).exit x hexit
  rw [hchain] at hgone
  have hok := ((h.parties p).frames f (hchain ▸ List.mem_cons_self)).entries e
    (List.mem_of_getElem? he)
  have hall : ∀ t ∈ e.doneAddr, (s.tasks t).done := fun t ht => by
    rw [Option.mem_def.mp ht] at hdone
    exact hdone
  have hexc : e.exception s.tasks = e.doneAddr.bind fun t => (s.tasks t).exception := by
    rcases hok with rfl | ⟨t, rfl⟩ <;> rfl
  unfold ScopeSystem.joined
  split
  · next c hnone hsome =>
    refine h.cancelAll.setExit ⟨gone, ?_⟩
    rw [(cancelAll_party ..).1, hchain]
    exact hgone.advance he hall (by rw [hnone, ← hexc, hsome]; rfl)
  · next hnot =>
    refine h.setExit ⟨gone, ?_⟩
    rw [hchain]
    refine hgone.advance he hall ?_
    rw [← hexc]
    cases htrigger : x.frameTrigger with
    | some c => rfl
    | none =>
      cases hsome : e.exception s.tasks with
      | none => rfl
      | some c => exact absurd hsome (hnot c htrigger)

/-- The frame whose entries are joined is released and joins the frames that were left. -/
theorem Sound.pop (h : s.Sound) (hc : s.current p .next = some (x, f, chain))
    (hi : x.i = f.entries.length) : (s.pop p x f chain).Sound := by
  obtain ⟨hexit, hchain, -, hmark⟩ := current_eq_some hc
  have hp := h.parties p
  obtain ⟨gone, hgone⟩ := hp.exit x hexit
  rw [hchain] at hgone
  have hf := hp.frames f (hchain ▸ List.mem_cons_self)
  have hpending : pendingOf (f.entries.take x.i) = f.pending := by
    rw [hi, List.take_length]
    rfl
  have hdone : ∀ t ∈ f.pending, (s.tasks t).done := by
    rw [← hpending]
    exact hgone.done f rfl
  have hmem : ∀ t ∈ f.pending.filter fun t => (s.tasks t).discarded,
      t ∈ f.registered ∧ (s.tasks t).freed = 0 ∧ (s.tasks t).done := fun t ht =>
    have htp := List.mem_of_mem_filter ht
    ⟨(hf.mem_pending.mp htp).1, (hf.mem_pending.mp htp).2, hdone t htp⟩
  have hentered := hgone.nodup
  rw [hgone.entered, List.flatMap_append, List.flatMap_cons] at hentered
  obtain ⟨-, hrest, hgoneDisjoint⟩ := List.nodup_append.mp hentered
  obtain ⟨-, hchainNodup, hchainDisjoint⟩ := List.nodup_append.mp hrest
  obtain ⟨hjoined, hof⟩ := ScopeFrame.Joined.release hf h.tasks hdone
  unfold ScopeSystem.pop
  rw [hf.release_eq] at hjoined hof ⊢
  have hdiscarded : ∀ t ∈ f.pending.filter fun t => (s.tasks t).discarded,
      (s.tasks t).discarded = true := fun t ht => (List.mem_filter.mp ht).2
  refine h.act (fun t => ScopeTasks.free_sound (hf.nodup_pending.filter _)
      (fun t ht => (hmem t ht).2) (fun t ht hd => ?_) (h.tasks t))
    (fun q hq t ht => ScopeTasks.free_keeps fun hts => hq ?_)
    ⟨fun g hg => ?_, hchainNodup, fun x' hx' => ⟨gone ++ [f], ?_⟩, fun x' raised hx' => ?_⟩
  · rw [hdiscarded t ht] at hd
    cases hd
  · have hmine := hf.spawner t (hmem t hts).1
    exact Option.some.inj (ht.symm.trans hmine)
  · have hg' : g ∈ (s.parties p).chain := by
      rw [hchain]
      exact List.mem_cons_of_mem _ hg
    refine (hp.frames g hg').free_disjoint fun t ht hts => ?_
    exact hchainDisjoint t (hmem t hts).1 t (List.mem_flatMap.mpr ⟨g, hg, ht⟩) rfl
  · cases hx'
    have hkeeps : ∀ g ∈ gone, ∀ t ∈ g.registered, (s.tasks t).Keeps
        (ScopeTasks.free s.tasks (f.pending.filter fun t => (s.tasks t).discarded) t) := by
      intro g hg t ht
      refine ScopeTasks.free_keeps fun hts => ?_
      exact hgoneDisjoint t (List.mem_flatMap.mpr ⟨g, hg, ht⟩) t
        (List.mem_append_left _ (hmem t hts).1) rfl
    refine ⟨?_, fun g hg => ?_, hgone.nodup, fun hle => ?_, ?_, fun g _ t ht => (by cases ht),
      fun g _ => rfl⟩
    · rw [List.append_assoc]
      exact hgone.entered
    · rcases List.mem_append.mp hg with hg | hg
      · obtain ⟨hj, ho⟩ := hgone.joined g hg
        exact ⟨hj.keep (hkeeps g hg), ho.keep (hkeeps g hg)⟩
      · rw [List.mem_singleton.mp hg]
        exact ⟨hjoined, hof⟩
    · have hle' : x.mark ≤ chain.length + 1 := hgone.mark hle
      show x.mark ≤ chain.length
      omega
    · show x.trigger.or x.frameTrigger = (gone ++ [f]).findSome? (ScopeFrame.firstException s.tasks)
      rw [hgone.trigger, hgone.frameTrigger f rfl, hpending, List.findSome?_append]
      congr 1
      rw [List.findSome?_cons, ← hf.firstException_eq]
      cases f.firstException s.tasks <;> rfl
  · cases hx'

theorem Sound.finish (h : s.Sound) (hexit : (s.parties p).exit = some x)
    (hend : (s.parties p).chain.length = x.mark ∨ (s.parties p).chain = []) :
    (s.endExit p x x.trigger).Sound := by
  have hp := h.parties p
  obtain ⟨gone, hgone⟩ := hp.exit x hexit
  have hlen := congrArg List.length hgone.entered
  rw [List.length_append] at hlen
  have hleaves : x.leaves = gone.length := by
    have hmark := hgone.mark
    unfold ScopeExit.leaves
    split
    · next hle =>
      rcases hend with hend | hend
      · omega
      · have hnil : (s.parties p).chain.length = 0 := by rw [hend]; rfl
        have := hmark hle
        omega
    · next hgt =>
      rcases hend with hend | hend
      · omega
      · rw [hend, List.length_nil] at hlen
        exact hlen
  have hleft : x.left = gone := by
    rw [ScopeExit.left, hleaves, hgone.entered, List.take_left']
    rfl
  have hkept : x.kept = (s.parties p).chain := by
    rw [ScopeExit.kept, hleaves, hgone.entered, List.drop_left']
    rfl
  refine h.setParty ⟨hp.frames, hp.nodup, fun x' hx' => (by cases hx'), fun x' raised hx' => ?_⟩
  cases hx'
  rw [hleft]
  refine ⟨⟨fun f hf => ?_, hkept.symm, ?_⟩, fun f hf => (hgone.joined f hf).2⟩
  · rw [hleft] at hf
    exact (hgone.joined f hf).1
  · rw [hleft]
    exact hgone.trigger

/-! ## Runs -/

/-- No wait of an exit finds a cancellation pending, and no task is dropped with an exception in its
slot, which nobody has awaited. -/
def Lossless (s : ScopeSystem) : ScopeAction → Prop
  | .look p => ∀ x f chain e, s.current p .next = some (x, f, chain) → f.entries[x.i]? = some e →
      e.doneAddr ≠ none → (s.parties p).cancelWith = none
  | .wake p => ∀ x f chain, s.current p .parked = some (x, f, chain) →
      (s.parties p).cancelWith = none
  | .drop _ t => (s.tasks t).exception = none
  | _ => True

theorem Sound.rephase (h : s.Sound) (hc : s.current p phase = some (x, f, chain)) :
    (s.setExit p { x with phase := phase' }).Sound := by
  obtain ⟨hexit, -⟩ := current_eq_some hc
  obtain ⟨gone, hgone⟩ := (h.parties p).exit x hexit
  exact h.setExit ⟨gone, ⟨hgone.entered, hgone.joined, hgone.nodup, hgone.mark, hgone.trigger,
    hgone.done, hgone.frameTrigger⟩⟩

theorem Sound.look (h : s.Sound) (hc : s.current p .next = some (x, f, chain))
    (he : f.entries[x.i]? = some e) (hcancel : e.doneAddr ≠ none →
      (s.parties p).cancelWith = none) :
    (s.look p x e).Sound := by
  obtain ⟨hexit, hchain, hphase, -⟩ := current_eq_some hc
  obtain ⟨gone, hgone⟩ := (h.parties p).exit x hexit
  unfold ScopeSystem.look
  split
  · next hnone =>
    refine h.setExit ⟨gone, ?_⟩
    rw [hchain] at hgone ⊢
    have hnext := hgone.advance he (c := x.frameTrigger) (fun t ht => by rw [hnone] at ht; cases ht)
      (by rw [hnone]; cases x.frameTrigger <;> rfl)
    rwa [← hphase] at hnext
  · next hsome =>
    rw [hcancel hsome]
    exact h.rephase hc

theorem sound_step (h : s.Sound) (hu : s.Lossless act) (ha : Step s act s') : s'.Sound := by
  cases act with
  | enter p =>
    obtain ⟨hidle, heq⟩ := Option.ite_none_right_eq_some.mp ha
    cases heq
    exact h.enter hidle
  | spawn p t mode =>
    obtain ⟨⟨hidle, hfresh⟩, heq⟩ := Option.ite_none_right_eq_some.mp ha
    cases heq
    exact h.spawn hidle hfresh
  | store t c =>
    obtain ⟨hidle, heq⟩ := Option.ite_none_right_eq_some.mp ha
    cases heq
    have hdone := (started_of_idle hidle).2
    refine h.setTask (fun _ => ⟨rfl, rfl, rfl, id, fun h => ?_⟩) ?_
    · rw [hdone] at h
      cases h
    · refine ⟨(h.tasks t).freed_done, (h.tasks t).freed_once, fun hfreed _ => ?_⟩
      rw [(h.tasks t).freed_done hfreed] at hdone
      cases hdone
  | complete t =>
    obtain ⟨hidle, heq⟩ := Option.ite_none_right_eq_some.mp ha
    cases heq
    exact h.setTask (fun _ => ⟨rfl, rfl, rfl, fun _ => rfl, fun _ => rfl⟩)
      ⟨fun _ => rfl, (h.tasks t).freed_once, (h.tasks t).heard⟩
  | cancel t c =>
    cases ha
    exact h.cancelAll
  | deliver p =>
    obtain ⟨hidle, heq⟩ := Option.ite_none_right_eq_some.mp ha
    cases heq
    exact h.setParty (.idle (h.parties p).frames (h.parties p).nodup (exit_of_idle hidle) rfl)
  | await p t =>
    obtain ⟨hold, heq⟩ := Option.ite_none_right_eq_some.mp ha
    cases heq
    exact h.await hold
  | drop p t =>
    obtain ⟨hold, heq⟩ := Option.ite_none_right_eq_some.mp ha
    cases heq
    exact h.drop hold hu
  | beginExit p mark =>
    obtain ⟨hidle, heq⟩ := Option.ite_none_right_eq_some.mp ha
    cases heq
    exact h.beginExit
  | look p =>
    obtain ⟨⟨x, f, chain⟩, hc, ha⟩ := Option.bind_eq_some_iff.mp ha
    obtain ⟨e, he, ha⟩ := Option.bind_eq_some_iff.mp ha
    cases ha
    exact h.look hc he (hu x f chain e hc he)
  | check p =>
    obtain ⟨⟨x, f, chain⟩, hc, ha⟩ := Option.bind_eq_some_iff.mp ha
    obtain ⟨e, he, ha⟩ := Option.bind_eq_some_iff.mp ha
    cases ha
    unfold check
    split
    · next hdone => exact h.joined hc he hdone
    · exact h.rephase hc
  | wake p =>
    obtain ⟨⟨x, f, chain⟩, hc, ha⟩ := Option.bind_eq_some_iff.mp ha
    cases ha
    unfold wake
    rw [hu x f chain hc]
    exact h.rephase hc
  | pop p =>
    obtain ⟨⟨x, f, chain⟩, hc, ha⟩ := Option.bind_eq_some_iff.mp ha
    obtain ⟨hi, ha⟩ := Option.ite_none_right_eq_some.mp ha
    cases ha
    exact h.pop hc hi
  | finish p =>
    unfold Step step at ha
    dsimp only at ha
    split at ha
    · cases ha
    · next x hexit =>
      obtain ⟨hend, heq⟩ := Option.ite_none_right_eq_some.mp ha
      cases heq
      exact h.finish hexit hend

/-- What structured concurrency says of a state: tasks are freed at most once and when they have
completed, none is freed with an exception that only an exit could still have raised, and an exit
that has ended has kept its promise. -/
structure Structured (s : ScopeSystem) : Prop where
  freed_done : ∀ t, (s.tasks t).freed ≠ 0 → (s.tasks t).done
  freed_once : ∀ t, (s.tasks t).freed ≤ 1
  heard : ∀ t, (s.tasks t).freed ≠ 0 → (s.tasks t).discarded = false → (s.tasks t).exception = none
  exits : ∀ p x raised, (s.parties p).ended = some (x, raised) →
    x.Joined s.tasks (s.parties p).chain raised

theorem Sound.structured (h : s.Sound) : s.Structured where
  freed_done t := (h.tasks t).freed_done
  freed_once t := (h.tasks t).freed_once
  heard t := (h.tasks t).heard
  exits p x raised hended := ((h.parties p).ended x raised hended).1

theorem not_joined_of_current (hc : s.current p phase = some (x, f, chain)) :
    ¬ x.Joined tasks (s.parties p).chain raised := by
  intro hjoined
  obtain ⟨-, hchain, -, hmark⟩ := current_eq_some hc
  have hlen := congrArg List.length hjoined.offChain
  rw [hchain, ScopeExit.kept, List.length_cons, List.length_drop, ScopeExit.leaves] at hlen
  split at hlen <;> omega

theorem not_structured_of_throwCancel (hc : s.current p phase = some (x, f, chain)) :
    ¬ (s.throwCancel p x c).Structured := by
  intro h
  have hparty : (s.throwCancel p x c).parties p =
      ⟨(s.parties p).chain, none, none, some (x, some c)⟩ := by
    simp [throwCancel, endExit, ScopeSystem.setParty]
  have hjoined := h.exits p x (some c) (by rw [hparty])
  rw [hparty] at hjoined
  exact not_joined_of_current hc hjoined

theorem not_structured_of_dropped (hold : s.holds p t) (hne : (s.tasks t).exception ≠ none) :
    ¬ (s.drop p t).Structured := by
  intro h
  obtain ⟨-, -, -, hd, hfreed⟩ := hold
  have hd : (s.tasks t).discarded = false := by simpa using hd
  refine hne (h.heard t ?_ hd)
  rw [show (s.drop p t).tasks t = s.tasks.free [t] t from rfl,
    ScopeTasks.free_mem (List.nodup_singleton t) (List.mem_singleton_self t) hfreed]
  exact Nat.one_ne_zero

theorem not_structured_of_lossy (hu : ¬ s.Lossless act) (ha : Step s act s') :
    ¬ s'.Structured := by
  cases act with
  | look p =>
    simp only [Lossless, not_forall] at hu
    obtain ⟨x, f, chain, e, hc, he, haddr, hcancel⟩ := hu
    obtain ⟨c, hcancel⟩ := Option.ne_none_iff_exists'.mp hcancel
    have hlook : s' = s.throwCancel p x c := by
      have heq : s.step (.look p) = some (s.look p x e) := by
        simp only [step, hc, he, Option.bind_eq_bind, Option.bind_some, Option.pure_def]
      rw [← Option.some.inj (heq.symm.trans ha), ScopeSystem.look, if_neg haddr, hcancel]
    rw [hlook]
    exact not_structured_of_throwCancel hc
  | wake p =>
    simp only [Lossless, not_forall] at hu
    obtain ⟨x, f, chain, hc, hcancel⟩ := hu
    obtain ⟨c, hcancel⟩ := Option.ne_none_iff_exists'.mp hcancel
    have hwake : s' = s.throwCancel p x c := by
      have heq : s.step (.wake p) = some (s.wake p x) := by
        simp only [step, hc, Option.bind_eq_bind, Option.bind_some, Option.pure_def]
      rw [← Option.some.inj (heq.symm.trans ha), ScopeSystem.wake, hcancel]
    rw [hwake]
    exact not_structured_of_throwCancel hc
  | drop p t =>
    obtain ⟨hold, heq⟩ := Option.ite_none_right_eq_some.mp ha
    cases heq
    exact not_structured_of_dropped hold hu
  | _ => exact absurd trivial hu

/-- In a run where no exit is cancelled as it waits and no exception is dropped with its task, every
exit joins the frames that it leaves; the next step keeps this if and only if it is of that kind. -/
theorem scope_structured {acts : List ScopeAction}
    (h : Steps (Steps.guarded Step Lossless) initial acts s) :
    s.Structured ∧ ∀ act s', Step s act s' → (s'.Structured ↔ s.Lossless act) := by
  have hs : s.Sound :=
    h.preserves (P := Sound) (fun _ _ _ ha hs => sound_step hs ha.1 ha.2) sound_initial
  refine ⟨hs.structured, fun act s' ha => ⟨fun hstructured => ?_, fun hu => ?_⟩⟩
  · by_contra hu
    exact not_structured_of_lossy hu ha hstructured
  · exact (sound_step hs hu ha).structured

theorem lossless_look (h : (s.parties p).cancelWith = none) : Lossless s (.look p) :=
  fun _ _ _ _ _ _ _ => h

/-- The program spawns three tasks, the last two of which raise. It awaits the second one and drops
it; leaving the scope raises what the third one raised. -/
theorem scope_structured_sample : ∃ s : ScopeSystem, s.Structured ∧
    (s.tasks 0).freed = 1 ∧ (s.tasks 1).freed = 1 ∧ (s.tasks 2).freed = 1 ∧
    ∃ x, (s.parties .program).ended = some (x, some 7) := by
  have hrun : ∃ s : ScopeSystem, (s.tasks 0).freed = 1 ∧ (s.tasks 1).freed = 1 ∧
      (s.tasks 2).freed = 1 ∧ (∃ x, (s.parties .program).ended = some (x, some 7)) ∧
      Steps (Steps.guarded Step Lossless) initial
        [.enter .program, .spawn .program 0 .discarded, .spawn .program 1 .named,
          .spawn .program 2 .discarded, .store 1 5, .complete 1, .store 2 7, .complete 2,
          .complete 0, .await .program 1, .drop .program 1, .beginExit .program 0, .look .program,
          .check .program, .look .program, .look .program, .check .program, .pop .program,
          .finish .program] s :=
    ⟨_, rfl, rfl, rfl, ⟨_, rfl⟩, .cons ⟨trivial, rfl⟩ <| .cons ⟨trivial, rfl⟩ <|
      .cons ⟨trivial, rfl⟩ <| .cons ⟨trivial, rfl⟩ <| .cons ⟨trivial, rfl⟩ <|
      .cons ⟨trivial, rfl⟩ <| .cons ⟨trivial, rfl⟩ <| .cons ⟨trivial, rfl⟩ <|
      .cons ⟨trivial, rfl⟩ <| .cons ⟨trivial, rfl⟩ <| .cons ⟨rfl, rfl⟩ <|
      .cons ⟨trivial, rfl⟩ <| .cons ⟨lossless_look rfl, rfl⟩ <| .cons ⟨trivial, rfl⟩ <|
      .cons ⟨lossless_look rfl, rfl⟩ <| .cons ⟨lossless_look rfl, rfl⟩ <|
      .cons ⟨trivial, rfl⟩ <| .cons ⟨trivial, rfl⟩ <| .cons ⟨trivial, rfl⟩ .nil⟩
  obtain ⟨s, hzero, hone, htwo, hended, hsteps⟩ := hrun
  exact ⟨s, (scope_structured hsteps).1, hzero, hone, htwo, hended⟩

/-- A fiber with a pending cancellation leaves a scope in which a task still runs. -/
theorem not_structured_pendingCancel :
    ¬ ∀ (acts : List ScopeAction) s, Steps Step initial acts s → s.Structured := by
  intro hall
  have hrun : ∃ s : ScopeSystem, (s.tasks 1).done = false ∧
      (∃ x, (s.parties (.fiber 0)).ended = some (x, some 7) ∧ ∃ f ∈ x.left, 1 ∈ f.registered) ∧
      Steps Step initial
        [.enter .program, .spawn .program 0 .discarded, .enter (.fiber 0),
          .spawn (.fiber 0) 1 .discarded, .cancel 0 7, .beginExit (.fiber 0) 0, .look (.fiber 0)]
        s :=
    ⟨_, rfl, ⟨_, rfl, _, List.mem_cons_self, List.mem_cons_self⟩, .cons rfl <| .cons rfl <|
      .cons rfl <| .cons rfl <| .cons rfl <| .cons rfl <| .cons rfl .nil⟩
  obtain ⟨s, hrunning, ⟨x, hended, f, hf, hmem⟩, hsteps⟩ := hrun
  have hdone := (((hall _ _ hsteps).exits _ _ _ hended).frames f hf).completed 1 hmem
  rw [hrunning] at hdone
  cases hdone

end ScopeSystem

end Cajeta.Concurrent
