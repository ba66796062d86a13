import Mathlib.Logic.Relation
import Mathlib.Data.List.Nodup
import Mathlib.Data.List.Perm.Subperm

/-!
# Depth-first walks

A walk moves from node to node along edges and lists each node after those its edges lead to. It
does not enter a node it has listed before, and it stops at a bad node and at a node whose label is
that of a node it is still inside of. When labels are the nodes themselves, the walk is through
exactly when no bad node and no cycle can be reached.
-/

namespace Cajeta.DepthFirst

/-- Edges between nodes, the label by which a node is recognised inside itself, and the nodes that
cannot be entered. -/
structure WalkGraph (α β : Type*) where
  next : α → List α
  label : α → β
  Bad : α → Prop

variable {α β : Type*}

/-- The walk over a list of nodes is through: inside `stack`, having listed `done`, it has listed
`done'`. -/
inductive Walks (G : WalkGraph α β) : List β → List α → List α → List α → Prop where
  | nil : Walks G stack done [] done
  | skip : G.label x ∉ stack → x ∈ done → Walks G stack done xs done' →
      Walks G stack done (x :: xs) done'
  | visit : G.label x ∉ stack → x ∉ done → ¬G.Bad x →
      Walks G (G.label x :: stack) done (G.next x) mid → Walks G stack (mid ++ [x]) xs done' →
      Walks G stack done (x :: xs) done'

inductive Stops (G : WalkGraph α β) : List β → List α → List α → Prop where
  | again : G.label x ∈ stack → Stops G stack done (x :: xs)
  | bad : G.label x ∉ stack → x ∉ done → G.Bad x → Stops G stack done (x :: xs)
  | inside : G.label x ∉ stack → x ∉ done → ¬G.Bad x →
      Stops G (G.label x :: stack) done (G.next x) → Stops G stack done (x :: xs)
  | skip : G.label x ∉ stack → x ∈ done → Stops G stack done xs → Stops G stack done (x :: xs)
  | visit : G.label x ∉ stack → x ∉ done → ¬G.Bad x →
      Walks G (G.label x :: stack) done (G.next x) mid → Stops G stack (mid ++ [x]) xs →
      Stops G stack done (x :: xs)

variable {G : WalkGraph α β}

def WalkGraph.Edge (G : WalkGraph α β) (x y : α) : Prop := y ∈ G.next x

instance [DecidableEq α] (x y : α) : Decidable (G.Edge x y) :=
  inferInstanceAs (Decidable (y ∈ G.next x))

/-- What can be reached from a node, itself included. -/
abbrev WalkGraph.Reach (G : WalkGraph α β) : α → α → Prop := Relation.ReflTransGen G.Edge

/-- What can be reached from a node over at least one edge. -/
abbrev WalkGraph.Leads (G : WalkGraph α β) : α → α → Prop := Relation.TransGen G.Edge

/-- A way of so many edges from a node. -/
inductive WalkGraph.Way (G : WalkGraph α β) (x : α) : Nat → α → Prop where
  | nil : Way G x 0 x
  | concat : Way G x n y → G.Edge y z → Way G x (n + 1) z

theorem WalkGraph.Way.cons (hedge : G.Edge x y) (h : G.Way y n z) : G.Way x (n + 1) z := by
  induction h with
  | nil => exact .concat .nil hedge
  | concat _ hlast ih => exact .concat ih hlast

theorem WalkGraph.Way.shorten (h : G.Way x n z) (hm : m ≤ n) : ∃ y, G.Way x m y := by
  induction h with
  | nil =>
    obtain rfl := Nat.le_zero.mp hm
    exact ⟨x, .nil⟩
  | @concat n y z hway hedge ih =>
    rcases Nat.le_or_eq_of_le_succ hm with hm | rfl
    · exact ih hm
    · exact ⟨z, .concat hway hedge⟩

theorem walks_or_stops {nodes : List α} (hclosed : ∀ x ∈ nodes, ∀ y ∈ G.next x, y ∈ nodes)
    {stack : List β} (hstack : stack.Nodup) (hsub : stack ⊆ nodes.map G.label) {xs : List α}
    (hxs : xs ⊆ nodes) (done : List α) :
    (∃ done', Walks G stack done xs done') ∨ Stops G stack done xs := by
  induction hn : nodes.length - stack.length using Nat.strongRecOn
    generalizing stack xs done with
  | ind n ih =>
    induction xs generalizing done with
    | nil => exact .inl ⟨done, .nil⟩
    | cons x xs ihxs =>
      have hx : x ∈ nodes := hxs List.mem_cons_self
      have hxs' : xs ⊆ nodes := fun y hy => hxs (List.mem_cons_of_mem x hy)
      by_cases hlabel : G.label x ∈ stack
      · exact .inr (.again hlabel)
      by_cases hdone : x ∈ done
      · rcases ihxs hxs' done with ⟨done', h⟩ | h
        · exact .inl ⟨done', .skip hlabel hdone h⟩
        · exact .inr (.skip hlabel hdone h)
      by_cases hbad : G.Bad x
      · exact .inr (.bad hlabel hdone hbad)
      have hnodup : (G.label x :: stack).Nodup := List.nodup_cons.mpr ⟨hlabel, hstack⟩
      have hsub' : G.label x :: stack ⊆ nodes.map G.label :=
        List.cons_subset.mpr ⟨List.mem_map_of_mem hx, hsub⟩
      have hlength := (hnodup.subperm hsub').length_le
      rw [List.length_cons, List.length_map] at hlength
      rcases ih (nodes.length - (G.label x :: stack).length) (by rw [List.length_cons]; omega)
        hnodup hsub' (hclosed x hx) done rfl with ⟨mid, hmid⟩ | hstop
      · rcases ihxs hxs' (mid ++ [x]) with ⟨done', h⟩ | h
        · exact .inl ⟨done', .visit hlabel hdone hbad hmid h⟩
        · exact .inr (.visit hlabel hdone hbad hmid h)
      · exact .inr (.inside hlabel hdone hbad hstop)

theorem Walks.unique (h : Walks G stack done xs done') (h' : Walks G stack done xs done'') :
    done' = done'' := by
  induction h generalizing done'' with
  | nil =>
    cases h'
    rfl
  | skip hlabel hdone _ ih =>
    cases h' with
    | skip _ _ h' => exact ih h'
    | visit _ hnew => exact absurd hdone hnew
  | visit hlabel hnew hbad _ _ ihmid ih =>
    cases h' with
    | skip _ hdone => exact absurd hdone hnew
    | visit _ _ _ hmid' h' =>
      cases ihmid hmid'
      exact ih h'

theorem Stops.not_walks (h : Stops G stack done xs) : ¬Walks G stack done xs done' := by
  induction h generalizing done' with
  | again hlabel =>
    intro h
    cases h with
    | skip hno => exact hno hlabel
    | visit hno => exact hno hlabel
  | bad _ hnew hbad =>
    intro h
    cases h with
    | skip _ hdone => exact hnew hdone
    | visit _ _ hgood => exact hgood hbad
  | inside _ hnew _ _ ih =>
    intro h
    cases h with
    | skip _ hdone => exact hnew hdone
    | visit _ _ _ hmid => exact ih hmid
  | skip _ hdone _ ih =>
    intro h
    cases h with
    | skip _ _ h => exact ih h
    | visit _ hnew => exact hnew hdone
  | visit _ hnew _ hmid _ ih =>
    intro h
    cases h with
    | skip _ hdone => exact hnew hdone
    | visit _ _ _ hmid' h =>
      cases hmid.unique hmid'
      exact ih h

/-- The fuel is enough for a walk over `xs` inside `stack`, in a graph of finitely many nodes. -/
structure Bounded (G : WalkGraph α β) (nodes : List α) (fuel : Nat) (stack : List β) (xs : List α) :
    Prop where
  closed : ∀ x ∈ nodes, ∀ y ∈ G.next x, y ∈ nodes
  nodup : stack.Nodup
  inside : stack ⊆ nodes.map G.label
  within : xs ⊆ nodes
  enough : nodes.length < fuel + stack.length

theorem Bounded.start (hclosed : ∀ x ∈ nodes, ∀ y ∈ G.next x, y ∈ nodes) (hxs : xs ⊆ nodes)
    (hfuel : nodes.length < fuel) : Bounded G nodes fuel [] xs where
  closed := hclosed
  nodup := List.nodup_nil
  inside := List.nil_subset _
  within := hxs
  enough := by simpa using hfuel

theorem Bounded.pos (h : Bounded G nodes fuel stack xs) : ∃ n, fuel = n + 1 := by
  have hlength := (h.nodup.subperm h.inside).length_le
  rw [List.length_map] at hlength
  have := h.enough
  exact ⟨fuel - 1, by omega⟩

theorem Bounded.tail (h : Bounded G nodes fuel stack (x :: xs)) : Bounded G nodes fuel stack xs :=
  { h with within := fun _ hy => h.within (List.mem_cons_of_mem x hy) }

theorem Bounded.head (h : Bounded G nodes fuel stack (x :: xs)) : Bounded G nodes fuel stack [x] :=
  { h with within := List.cons_subset.mpr ⟨h.within List.mem_cons_self, List.nil_subset _⟩ }

theorem Bounded.enter (h : Bounded G nodes (fuel + 1) stack (x :: xs)) (hx : G.label x ∉ stack) :
    Bounded G nodes fuel (G.label x :: stack) (G.next x) where
  closed := h.closed
  nodup := List.nodup_cons.mpr ⟨hx, h.nodup⟩
  inside := List.cons_subset.mpr ⟨List.mem_map_of_mem (h.within List.mem_cons_self), h.inside⟩
  within := h.closed x (h.within List.mem_cons_self)
  enough := by
    have := h.enough
    rw [List.length_cons]
    omega

/-! ## What has been listed -/

theorem Walks.isPrefix (h : Walks G stack done xs done') : done <+: done' := by
  induction h with
  | nil => exact List.prefix_rfl
  | skip _ _ _ ih => exact ih
  | visit _ _ _ _ _ ihmid ih => exact ihmid.trans ((List.prefix_append _ _).trans ih)

theorem Walks.mem (h : Walks G stack done xs done') : ∀ x ∈ xs, x ∈ done' := by
  induction h with
  | nil => exact fun x hx => absurd hx List.not_mem_nil
  | skip _ hdone h ih =>
    rintro x (_ | ⟨_, hx⟩)
    · exact h.isPrefix.subset hdone
    · exact ih x hx
  | visit _ _ _ _ h _ ih =>
    rintro x (_ | ⟨_, hx⟩)
    · exact h.isPrefix.subset (List.mem_append_right _ List.mem_cons_self)
    · exact ih x hx

theorem Walks.reachable (h : Walks G stack done xs done') :
    ∀ y ∈ done', y ∈ done ∨ ∃ x ∈ xs, G.Reach x y := by
  induction h with
  | nil => exact fun y hy => .inl hy
  | skip _ _ _ ih =>
    intro y hy
    rcases ih y hy with hy | ⟨x, hx, hreach⟩
    · exact .inl hy
    · exact .inr ⟨x, List.mem_cons_of_mem _ hx, hreach⟩
  | visit _ _ _ _ _ ihmid ih =>
    intro y hy
    rcases ih y hy with hy | ⟨z, hz, hreach⟩
    · rcases List.mem_append.mp hy with hy | hy
      · rcases ihmid y hy with hy | ⟨z, hz, hreach⟩
        · exact .inl hy
        · exact .inr ⟨_, List.mem_cons_self, .head hz hreach⟩
      · rw [List.mem_singleton.mp hy]
        exact .inr ⟨_, List.mem_cons_self, .refl⟩
    · exact .inr ⟨z, List.mem_cons_of_mem _ hz, hreach⟩

/-- Each node is listed once, after those its edges lead to, and none is bad. -/
structure Listed (G : WalkGraph α β) (done : List α) : Prop where
  nodup : done.Nodup
  after : ∀ a x b, done = a ++ x :: b → ∀ y ∈ G.next x, y ∈ a
  good : ∀ x ∈ done, ¬G.Bad x

theorem Listed.nil : Listed G [] where
  nodup := List.nodup_nil
  after a x b h := by simp at h
  good := by simp

theorem Listed.concat (h : Listed G done) (hnew : x ∉ done) (hnext : ∀ y ∈ G.next x, y ∈ done)
    (hgood : ¬G.Bad x) : Listed G (done ++ [x]) where
  nodup := by
    rw [List.nodup_append]
    refine ⟨h.nodup, by simp, fun y hy z hz => ?_⟩
    rw [List.mem_singleton.mp hz]
    rintro rfl
    exact hnew hy
  after a z b heq y hy := by
    rcases List.eq_nil_or_concat b with rfl | ⟨b, w, rfl⟩
    · obtain ⟨rfl, hz⟩ := List.append_inj' heq rfl
      cases hz
      exact hnext y hy
    · rw [List.concat_eq_append, ← List.cons_append, ← List.append_assoc] at heq
      exact h.after a z b (List.append_inj' heq rfl).1 y hy
  good z hz := by
    rcases List.mem_append.mp hz with hz | hz
    · exact h.good z hz
    · rwa [List.mem_singleton.mp hz]

theorem Walks.notMem (h : Walks G stack done xs done') (hy : G.label y ∈ stack) (hnew : y ∉ done) :
    y ∉ done' := by
  induction h with
  | nil => exact hnew
  | skip _ _ _ ih => exact ih hy hnew
  | visit hlabel _ _ _ _ ihmid ih =>
    refine ih hy fun hmem => ?_
    rcases List.mem_append.mp hmem with hmem | hmem
    · exact ihmid (List.mem_cons_of_mem _ hy) hnew hmem
    · rw [List.mem_singleton.mp hmem] at hy
      exact hlabel hy

theorem Walks.listed (h : Walks G stack done xs done') (hdone : Listed G done) :
    Listed G done' := by
  induction h with
  | nil => exact hdone
  | skip _ _ _ ih => exact ih hdone
  | visit _ hnew hgood hmid _ ihmid ih =>
    exact ih ((ihmid hdone).concat (hmid.notMem List.mem_cons_self hnew) hmid.mem hgood)

theorem Listed.leads (h : Listed G (a ++ x :: b)) (hxy : G.Leads x y) : y ∈ a := by
  induction hxy using Relation.TransGen.head_induction_on generalizing a b with
  | single hedge => exact h.after a _ b rfl _ hedge
  | head hedge _ ih =>
    obtain ⟨a₁, a₂, rfl⟩ := List.append_of_mem (h.after a _ b rfl _ hedge)
    rw [List.append_assoc, List.cons_append] at h
    exact List.mem_append_left _ (ih h)

theorem Listed.acyclic (h : Listed G done) (hx : x ∈ done) : ¬G.Leads x x := by
  intro hcycle
  obtain ⟨a, b, rfl⟩ := List.append_of_mem hx
  have hnodup := h.nodup
  rw [List.nodup_append] at hnodup
  exact hnodup.2.2 x (h.leads hcycle) x List.mem_cons_self rfl

theorem Listed.reach (h : Listed G done) (hx : x ∈ done) (hxy : G.Reach x y) : y ∈ done := by
  rcases Relation.reflTransGen_iff_eq_or_transGen.mp hxy with rfl | hxy
  · exact hx
  · obtain ⟨a, b, rfl⟩ := List.append_of_mem hx
    exact List.mem_append_left _ (h.leads hxy)

theorem Stops.cause (h : Stops G stack done xs) :
    ∃ x ∈ xs, ∃ y, G.Reach x y ∧
      (G.Bad y ∨ G.label y ∈ stack ∨ ∃ z, G.Leads y z ∧ G.label z = G.label y) := by
  induction h with
  | again hlabel => exact ⟨_, List.mem_cons_self, _, .refl, .inr (.inl hlabel)⟩
  | bad _ _ hbad => exact ⟨_, List.mem_cons_self, _, .refl, .inl hbad⟩
  | inside _ _ _ _ ih =>
    obtain ⟨y, hy, z, hreach, hz⟩ := ih
    refine ⟨_, List.mem_cons_self, ?_⟩
    have hxz : G.Leads _ z := Relation.TransGen.head' hy hreach
    rcases hz with hz | hz | hz
    · exact ⟨z, hxz.to_reflTransGen, .inl hz⟩
    · rcases List.mem_cons.mp hz with hz | hz
      · exact ⟨_, .refl, .inr (.inr ⟨z, hxz, hz⟩)⟩
      · exact ⟨z, hxz.to_reflTransGen, .inr (.inl hz)⟩
    · exact ⟨z, hxz.to_reflTransGen, .inr (.inr hz)⟩
  | skip _ _ _ ih | visit _ _ _ _ _ ih =>
    obtain ⟨x, hx, y, h⟩ := ih
    exact ⟨x, List.mem_cons_of_mem _ hx, y, h⟩

theorem Walks.start (h : Walks G [] [] xs done) :
    Listed G done ∧ ∀ y, y ∈ done ↔ ∃ x ∈ xs, G.Reach x y := by
  have hlisted := h.listed .nil
  refine ⟨hlisted, fun y => ⟨fun hy => ?_, ?_⟩⟩
  · exact (h.reachable y hy).resolve_left List.not_mem_nil
  · rintro ⟨x, hx, hreach⟩
    exact hlisted.reach (h.mem x hx) hreach

theorem walks_iff {G : WalkGraph α α} (hlabel : G.label = id) {nodes : List α}
    (hclosed : ∀ x ∈ nodes, ∀ y ∈ G.next x, y ∈ nodes) (hxs : xs ⊆ nodes) :
    (∃ done, Walks G [] [] xs done) ↔
      ∀ x ∈ xs, ∀ y, G.Reach x y → ¬G.Bad y ∧ ¬G.Leads y y := by
  constructor
  · rintro ⟨done, h⟩ x hx y hreach
    obtain ⟨hlisted, hmem⟩ := h.start
    have hy := (hmem y).mpr ⟨x, hx, hreach⟩
    exact ⟨hlisted.good y hy, hlisted.acyclic hy⟩
  · intro hgood
    refine (walks_or_stops hclosed List.nodup_nil (List.nil_subset _) hxs []).resolve_right
      fun hstops => ?_
    obtain ⟨x, hx, y, hreach, hbad | hin | ⟨z, hleads, heq⟩⟩ := hstops.cause
    · exact (hgood x hx y hreach).1 hbad
    · exact List.not_mem_nil hin
    · rw [hlabel] at heq
      cases heq
      exact (hgood x hx _ hreach).2 hleads

end Cajeta.DepthFirst
