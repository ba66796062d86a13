import Cajeta.Lib.Result
import Mathlib.Data.List.TakeWhile
import Mathlib.Tactic.Common

/-!
# References in a text

`${NAME}` stands for the value of a name, `$$` for a dollar sign. One scanner lists the names that a
text refers to and another puts their values in; they agree on what a reference is.
-/

namespace Cajeta.Buildtool

/-- The name up to the closing brace, and what stands behind that. -/
def closeOf (s : List Char) : Option (List Char × List Char) :=
  match s.dropWhile (· ≠ '\x7d') with
  | [] => none
  | _ :: rest => some (s.takeWhile (· ≠ '\x7d'), rest)

theorem length_closeOf (h : closeOf s = some (name, rest)) : rest.length < s.length := by
  unfold closeOf at h
  split at h
  · cases h
  · next c r hdrop =>
    cases h
    have := congrArg List.length (List.takeWhile_append_dropWhile (p := (· ≠ '\x7d')) (l := s))
    rw [hdrop, List.length_append, List.length_cons] at this
    omega

/-- Every name that a text refers to, in order. A reference that is not closed ends the text. -/
def referencedNames : List Char → List String
  | [] => []
  | [_] => []
  | c :: d :: s =>
    if c = '$' ∧ d = '$' then referencedNames s
    else if c = '$' ∧ d = '\x7b' then
      match h : closeOf s with
      | none => []
      | some (name, rest) =>
        have := length_closeOf h
        String.ofList name :: referencedNames rest
    else referencedNames (d :: s)
termination_by s => s.length

/-- The text with the value of each name in the place of its reference, or the first name that has
none. A reference that is not closed stays as it is. -/
def substituteOnce (lookup : String → Option String) : List Char → Except String (List Char)
  | [] => return []
  | [c] => return [c]
  | c :: d :: s =>
    if c = '$' ∧ d = '$' then do
      let r ← substituteOnce lookup s
      return '$' :: r
    else if c = '$' ∧ d = '\x7b' then
      match h : closeOf s with
      | none => return c :: d :: s
      | some (name, rest) => do
        have := length_closeOf h
        match lookup (String.ofList name) with
        | none => .error (String.ofList name)
        | some v =>
          let r ← substituteOnce lookup rest
          return v.toList ++ r
    else do
      let r ← substituteOnce lookup (d :: s)
      return c :: r
termination_by s => s.length

inductive Piece where
  | char (c : Char)
  | reference (name : String)

def Piece.name? : Piece → Option String
  | .char _ => none
  | .reference name => some name

/-- A text reads as characters that stand for themselves and references. -/
inductive Reads : List Char → List Piece → Prop where
  | nil : Reads [] []
  | dollar : Reads s ps → Reads ('$' :: '$' :: s) (.char '$' :: ps)
  | reference : '\x7d' ∉ name → Reads rest ps →
      Reads ('$' :: '\x7b' :: (name ++ '\x7d' :: rest)) (.reference (String.ofList name) :: ps)
  | unclosed : '\x7d' ∉ s → Reads ('$' :: '\x7b' :: s) (('$' :: '\x7b' :: s).map .char)
  | char : (c = '$' → s.head? ≠ some '$' ∧ s.head? ≠ some '\x7b') → Reads s ps →
      Reads (c :: s) (.char c :: ps)

def fill (lookup : String → Option String) : List Piece → Except String (List Char)
  | [] => return []
  | .char c :: ps => do
    let r ← fill lookup ps
    return c :: r
  | .reference name :: ps => do
    match lookup name with
    | none => .error name
    | some v =>
      let r ← fill lookup ps
      return v.toList ++ r

theorem closeOf_of_notMem (h : '\x7d' ∉ s) : closeOf s = none := by
  have hall : ∀ c ∈ s, (c ≠ '\x7d' : Bool) = true := fun c hc => by
    rw [decide_eq_true_iff]
    rintro rfl
    exact h hc
  unfold closeOf
  rw [List.dropWhile_eq_nil_iff.mpr hall]

theorem closeOf_append (h : '\x7d' ∉ name) :
    closeOf (name ++ '\x7d' :: rest) = some (name, rest) := by
  have hall : ∀ c ∈ name, (c ≠ '\x7d' : Bool) = true := fun c hc => by
    rw [decide_eq_true_iff]
    rintro rfl
    exact h hc
  unfold closeOf
  rw [List.dropWhile_append_of_pos hall, List.takeWhile_append_of_pos hall]
  simp

theorem closeOf_cases (s : List Char) :
    ('\x7d' ∉ s ∧ closeOf s = none) ∨
      ∃ name rest, '\x7d' ∉ name ∧ s = name ++ '\x7d' :: rest ∧ closeOf s = some (name, rest) := by
  by_cases h : '\x7d' ∈ s
  · obtain ⟨name, rest, rfl, hname⟩ := List.eq_append_cons_of_mem h
    exact .inr ⟨name, rest, hname, rfl, closeOf_append hname⟩
  · exact .inl ⟨h, closeOf_of_notMem h⟩

theorem fill_char (lookup : String → Option String) (s : List Char) :
    fill lookup (s.map .char) = .ok s := by
  induction s with
  | nil => rfl
  | cons c s ih =>
    rw [List.map_cons, fill, ih]
    rfl

/-! ### Behind the start of a reference -/

theorem referencedNames_unclosed (h : closeOf s = none) :
    referencedNames ('$' :: '\x7b' :: s) = [] := by
  rw [referencedNames, if_neg (by decide), if_pos ⟨rfl, rfl⟩]
  split
  · rfl
  · next h' =>
    rw [h] at h'
    cases h'

theorem referencedNames_reference (h : closeOf s = some (name, rest)) :
    referencedNames ('$' :: '\x7b' :: s) = String.ofList name :: referencedNames rest := by
  rw [referencedNames, if_neg (by decide), if_pos ⟨rfl, rfl⟩]
  split
  · next h' =>
    rw [h] at h'
    cases h'
  · next h' =>
    rw [h] at h'
    cases h'
    rfl

theorem substituteOnce_unclosed (lookup : String → Option String) (h : closeOf s = none) :
    substituteOnce lookup ('$' :: '\x7b' :: s) = .ok ('$' :: '\x7b' :: s) := by
  rw [substituteOnce, if_neg (by decide), if_pos ⟨rfl, rfl⟩]
  split
  · rfl
  · next h' =>
    rw [h] at h'
    cases h'

theorem substituteOnce_reference (lookup : String → Option String)
    (h : closeOf s = some (name, rest)) (hrest : substituteOnce lookup rest = fill lookup ps) :
    substituteOnce lookup ('$' :: '\x7b' :: s) =
      fill lookup (.reference (String.ofList name) :: ps) := by
  rw [substituteOnce, if_neg (by decide), if_pos ⟨rfl, rfl⟩]
  split
  · next h' =>
    rw [h] at h'
    cases h'
  · next h' =>
    rw [h] at h'
    cases h'
    rw [fill, hrest]

theorem exists_reads (s : List Char) : ∃ ps, Reads s ps ∧
    referencedNames s = ps.filterMap Piece.name? ∧
    ∀ lookup, substituteOnce lookup s = fill lookup ps := by
  induction s using referencedNames.induct with
  | case1 => exact ⟨[], .nil, by rw [referencedNames]; rfl, fun _ => by rw [substituteOnce]; rfl⟩
  | case2 c =>
    refine ⟨[.char c], .char (by simp) .nil, by rw [referencedNames]; rfl, fun _ => ?_⟩
    rw [substituteOnce]
    rfl
  | case3 c d s hdollar ih =>
    obtain ⟨ps, hreads, hnames, hfill⟩ := ih
    obtain ⟨rfl, rfl⟩ := hdollar
    refine ⟨_, .dollar hreads, ?_, fun lookup => ?_⟩
    · rw [referencedNames, if_pos ⟨rfl, rfl⟩]
      exact hnames
    · rw [substituteOnce, if_pos ⟨rfl, rfl⟩, hfill]
      rfl
  | case4 c d s _ hbrace hclose =>
    obtain ⟨rfl, rfl⟩ := hbrace
    obtain ⟨hs, -⟩ | ⟨_, _, _, _, hclose'⟩ := closeOf_cases s
    · refine ⟨_, .unclosed hs, ?_, fun lookup => ?_⟩
      · rw [referencedNames_unclosed hclose, List.filterMap_map]
        simp [Piece.name?]
      · rw [substituteOnce_unclosed lookup hclose, fill_char]
    · rw [hclose] at hclose'
      cases hclose'
  | case5 c d s _ hbrace name rest hclose _ ih =>
    obtain ⟨ps, hreads, hnames, hfill⟩ := ih
    obtain ⟨rfl, rfl⟩ := hbrace
    obtain ⟨-, hclose'⟩ | ⟨_, _, hname, rfl, hclose'⟩ := closeOf_cases s
    · rw [hclose] at hclose'
      cases hclose'
    · rw [hclose] at hclose'
      cases hclose'
      refine ⟨_, .reference hname hreads, ?_, fun lookup => ?_⟩
      · rw [referencedNames_reference hclose, hnames]
        rfl
      · exact substituteOnce_reference lookup hclose (hfill lookup)
  | case6 c d s hdollar hbrace ih =>
    obtain ⟨ps, hreads, hnames, hfill⟩ := ih
    refine ⟨_, .char (fun hc => ?_) hreads, ?_, fun lookup => ?_⟩
    · rw [List.head?_cons]
      exact ⟨fun hd => hdollar ⟨hc, Option.some.inj hd⟩, fun hd => hbrace ⟨hc, Option.some.inj hd⟩⟩
    · rw [referencedNames, if_neg hdollar, if_neg hbrace]
      exact hnames
    · rw [substituteOnce, if_neg hdollar, if_neg hbrace, hfill]
      rfl

theorem Reads.unique (h : Reads s ps) (h' : Reads s ps') : ps = ps' := by
  induction h generalizing ps' with
  | nil =>
    cases h'
    rfl
  | dollar _ ih =>
    cases h' with
    | dollar h' => rw [ih h']
    | char hc _ => exact absurd rfl (hc rfl).1
  | @reference name rest ps hname _ ih =>
    generalize htext : name ++ '\x7d' :: rest = text at h'
    cases h' with
    | @reference name' rest' _ hname' h' =>
      have hclose : closeOf (name ++ '\x7d' :: rest) = some (name, rest) := closeOf_append hname
      rw [htext, closeOf_append hname'] at hclose
      cases hclose
      rw [ih h']
    | unclosed hs =>
      rw [← htext] at hs
      exact absurd (List.mem_append_right _ List.mem_cons_self) hs
    | char hc _ => exact absurd rfl (hc rfl).2
  | unclosed hs =>
    cases h' with
    | reference _ _ => exact absurd (List.mem_append_right _ List.mem_cons_self) hs
    | unclosed _ => rfl
    | char hc _ => exact absurd rfl (hc rfl).2
  | char hc _ ih =>
    cases h' with
    | dollar _ => exact absurd rfl (hc rfl).1
    | reference _ _ => exact absurd rfl (hc rfl).2
    | unclosed _ => exact absurd rfl (hc rfl).2
    | char _ h' => rw [ih h']

theorem exists_fill {lookup : String → Option String} {ps : List Piece}
    (h : ∀ name ∈ ps.filterMap Piece.name?, (lookup name).isSome = true) :
    ∃ r, fill lookup ps = .ok r := by
  induction ps with
  | nil => exact ⟨[], rfl⟩
  | cons p ps ih =>
    cases p with
    | char c =>
      obtain ⟨r, hr⟩ := ih h
      exact ⟨c :: r, by rw [fill, hr]; rfl⟩
    | reference name =>
      obtain ⟨v, hv⟩ := Option.isSome_iff_exists.mp (h name List.mem_cons_self)
      obtain ⟨r, hr⟩ := ih fun n hn => h n (List.mem_cons_of_mem _ hn)
      exact ⟨v.toList ++ r, by rw [fill, hv, hr]; rfl⟩

theorem fill_congr {lookup lookup' : String → Option String} {ps : List Piece}
    (h : ∀ name ∈ ps.filterMap Piece.name?, lookup name = lookup' name) :
    fill lookup ps = fill lookup' ps := by
  induction ps with
  | nil => rfl
  | cons p ps ih =>
    cases p with
    | char c => rw [fill, fill, ih h]
    | reference name =>
      rw [fill, fill, h name List.mem_cons_self, ih fun n hn => h n (List.mem_cons_of_mem _ hn)]

theorem isSome_of_fill {lookup : String → Option String} {ps : List Piece}
    (h : fill lookup ps = .ok r) : ∀ name ∈ ps.filterMap Piece.name?,
    (lookup name).isSome = true := by
  induction ps generalizing r with
  | nil => exact fun _ hname => absurd hname List.not_mem_nil
  | cons p ps ih =>
    intro name hname
    cases p with
    | char c =>
      obtain ⟨_, hr, -⟩ := Except.bind_eq_ok.mp h
      exact ih hr name hname
    | reference n =>
      rw [fill] at h
      cases hn : lookup n with
      | none =>
        rw [hn] at h
        cases h
      | some v =>
        rw [hn] at h
        obtain ⟨_, hr, -⟩ := Except.bind_eq_ok.mp h
        rcases List.mem_cons.mp hname with rfl | hname
        · rw [hn]
          rfl
        · exact ih hr name hname

theorem fill_mono {lookup lookup' : String → Option String}
    (hle : ∀ name v, lookup name = some v → lookup' name = some v) {ps : List Piece}
    (h : fill lookup ps = .ok r) : fill lookup' ps = .ok r := by
  rw [← h]
  refine (fill_congr fun name hname => ?_).symm
  obtain ⟨v, hv⟩ := Option.isSome_iff_exists.mp (isSome_of_fill h name hname)
  rw [hv, hle name v hv]

end Cajeta.Buildtool
