import Cajeta.Json
import Mathlib.Data.List.Basic

/-!
# JSON with comments

The two passes that turn JSON with comments and trailing commas into plain JSON, byte for byte in
place: one blanks the comments, the other the commas before a closer. The first knows what a string
literal is. The second does not, so it also blanks commas that a literal contains.
-/

namespace Cajeta.Buildtool.JsonC

def quote : UInt8 := 0x22
def backslash : UInt8 := 0x5C
def slash : UInt8 := 0x2F
def star : UInt8 := 0x2A
def comma : UInt8 := 0x2C
def space : UInt8 := 0x20
def newline : UInt8 := 0x0A

def blank (c : UInt8) : UInt8 := if c = newline then newline else space

/-- The loops of the first pass: the outer one, and those over a literal, a line comment and a block
comment. -/
inductive Loop where
  | outer | literal | line | block

def blankComments : Loop → List UInt8 → List UInt8
  | _, [] => []
  | .outer, [c] => [c]
  | .outer, c :: d :: rest =>
    if c = quote then c :: blankComments .literal (d :: rest)
    else if c = slash ∧ d = slash then space :: space :: blankComments .line rest
    else if c = slash ∧ d = star then space :: space :: blankComments .block rest
    else c :: blankComments .outer (d :: rest)
  | .literal, [d] => [d]
  | .literal, d :: e :: rest =>
    if d = backslash then d :: e :: blankComments .literal rest
    else if d = quote then d :: blankComments .outer (e :: rest)
    else d :: blankComments .literal (e :: rest)
  | .line, c :: rest =>
    -- the outer loop copies the newline
    if c = newline then c :: blankComments .outer rest
    else space :: blankComments .line rest
  | .block, [c] => [blank c]
  | .block, c :: d :: rest =>
    if c = star ∧ d = slash then space :: space :: blankComments .outer rest
    else blank c :: blankComments .block (d :: rest)

def isWhitespace (c : UInt8) : Bool := c = 0x20 || c = 0x09 || c = 0x0A || c = 0x0D

def isCloser (c : UInt8) : Bool := c = 0x7D || c = 0x5D

/-- The next character that is not white space is a closer. -/
def closes : List UInt8 → Bool
  | [] => false
  | c :: rest => if isWhitespace c then closes rest else isCloser c

def blankTrailing : List UInt8 → List UInt8
  | [] => []
  | c :: rest => (if c = comma && closes rest then space else c) :: blankTrailing rest

def preprocessJsonC (source : List UInt8) : List UInt8 :=
  blankTrailing (blankComments .outer source)

/-- The parser of plain JSON is the one that is linked in. -/
def parseJsonC (parse : List UInt8 → Except String Json) (source : List UInt8) :
    Except String Json :=
  parse (preprocessJsonC source)

inductive Role where
  | text | literal | comment
  deriving DecidableEq

/-- Where a byte stands: `escaped` after a backslash in a literal, `opener` on the star that opens a
block comment, `closer` on the slash that closes it. -/
inductive Place where
  | text | literal | escaped | line | opener | block | closer
  deriving DecidableEq

/-- What the byte `c` belongs to, where `ahead` is the byte after it. The quotes around a literal
belong to it, the newline after a line comment does not belong to that. -/
def Place.role (p : Place) (c : UInt8) (ahead : Option UInt8) : Role :=
  match p with
  | .text =>
    if c = quote then .literal
    else if c = slash ∧ (ahead = some slash ∨ ahead = some star) then .comment
    else .text
  | .literal | .escaped => .literal
  | .line => if c = newline then .text else .comment
  | .opener | .block | .closer => .comment

/-- Where the byte after `c` stands. -/
def Place.after (p : Place) (c : UInt8) (ahead : Option UInt8) : Place :=
  match p with
  | .text =>
    if c = quote then .literal
    else if c = slash ∧ ahead = some slash then .line
    else if c = slash ∧ ahead = some star then .opener
    else .text
  | .literal => if c = backslash then .escaped else if c = quote then .text else .literal
  | .escaped => .literal
  | .line => if c = newline then .text else .line
  | .opener => .block
  | .block => if c = star ∧ ahead = some slash then .closer else .block
  | .closer => .text

/-- Each byte with what it belongs to. -/
def marked (p : Place) : List UInt8 → List (Role × UInt8)
  | [] => []
  | c :: rest => (p.role c rest.head?, c) :: marked (p.after c rest.head?) rest

/-- A closer is the next thing outside comments that is not white space. -/
def closesDocument : List (Role × UInt8) → Bool
  | [] => false
  | (.comment, _) :: rest => closesDocument rest
  | (.literal, _) :: _ => false
  | (.text, c) :: rest => if isWhitespace c then closesDocument rest else isCloser c

/-- A document without its comments, which stand for white space, and without the trailing commas of
its objects and arrays. -/
def stripped : List (Role × UInt8) → List UInt8
  | [] => []
  | (.comment, c) :: rest => blank c :: stripped rest
  | (.literal, c) :: rest => c :: stripped rest
  | (.text, c) :: rest =>
    (if c = comma && closesDocument rest then space else c) :: stripped rest

/-- Some literal contains a comma with nothing but white space between it and a closer. -/
def CommaInLiteral (l : List (Role × UInt8)) : Prop :=
  ∃ before after, l = before ++ (.literal, comma) :: after ∧ closes (after.map (·.2)) = true

/-- What preprocessing promises of a source. -/
structure Preserved (parse : List UInt8 → Except String Json) (source : List UInt8) : Prop where
  literals : ∀ (i : Nat) (c : UInt8), (marked .text source)[i]? = some (Role.literal, c) →
    (preprocessJsonC source)[i]? = some c
  length : (preprocessJsonC source).length = source.length
  newlines : ∀ i : Nat, source[i]? = some newline → (preprocessJsonC source)[i]? = some newline
  document : parseJsonC parse source = parse (stripped (marked .text source))

/-- What the first pass leaves of a byte. -/
def clean (x : Role × UInt8) : UInt8 := if x.1 = .comment then blank x.2 else x.2

def Loop.place : Loop → Place
  | .outer => .text
  | .literal => .literal
  | .line => .line
  | .block => .block

theorem marked_cons (p : Place) (c : UInt8) (rest : List UInt8) :
    marked p (c :: rest) = (p.role c rest.head?, c) :: marked (p.after c rest.head?) rest := rfl

theorem clean_text (c : UInt8) : clean (.text, c) = c := rfl
theorem clean_literal (c : UInt8) : clean (.literal, c) = c := rfl
theorem clean_comment (c : UInt8) : clean (.comment, c) = blank c := rfl

theorem marked_plain (hq : c ≠ quote) (hs : ¬(c = slash ∧ rest.head? = some slash))
    (hb : ¬(c = slash ∧ rest.head? = some star)) :
    marked .text (c :: rest) = (.text, c) :: marked .text rest := by
  have hrole : Place.text.role c rest.head? = .text := by
    have hno : ¬(c = slash ∧ (rest.head? = some slash ∨ rest.head? = some star)) := fun h =>
      h.2.elim (fun h' => hs ⟨h.1, h'⟩) fun h' => hb ⟨h.1, h'⟩
    rw [Place.role, if_neg hq, if_neg hno]
  have hafter : Place.text.after c rest.head? = .text := by
    rw [Place.after, if_neg hq, if_neg hs, if_neg hb]
  rw [marked_cons, hrole, hafter]

theorem blankComments_eq (loop : Loop) (source : List UInt8) :
    blankComments loop source = (marked loop.place source).map clean := by
  fun_induction blankComments loop source with
  | case1 => rfl
  | case2 c =>
    by_cases hq : c = quote
    · subst hq; rfl
    · rw [Loop.place, marked_plain hq (by simp) (by simp)]
      rfl
  | case3 d rest ih => rw [ih]; rfl
  | case4 c d rest hq h ih =>
    obtain ⟨rfl, rfl⟩ := h
    rw [ih]
    rfl
  | case5 c d rest hq hs h ih =>
    obtain ⟨rfl, rfl⟩ := h
    rw [ih]
    rfl
  | case6 c d rest hq hs hb ih =>
    have hplain : marked .text (c :: d :: rest) = (.text, c) :: marked .text (d :: rest) :=
      marked_plain hq (fun h => hs ⟨h.1, Option.some.inj h.2⟩)
        fun h => hb ⟨h.1, Option.some.inj h.2⟩
    rw [ih, Loop.place, hplain]
    rfl
  | case7 => rfl
  | case8 e rest ih => rw [ih]; rfl
  | case9 e rest _ ih => rw [ih]; rfl
  | case10 d e rest hb hq ih =>
    have hafter : Place.literal.after d (some e) = .literal := by
      rw [Place.after, if_neg hb, if_neg hq]
    rw [ih, Loop.place, marked_cons _ d, List.head?_cons, hafter]
    rfl
  | case11 rest ih => rw [ih]; rfl
  | case12 c rest hn ih =>
    have hrole : Place.line.role c rest.head? = .comment := if_neg hn
    have hafter : Place.line.after c rest.head? = .line := if_neg hn
    rw [ih, Loop.place, marked_cons, hrole, hafter, List.map_cons, clean_comment, blank, if_neg hn]
  | case13 => rfl
  | case14 c d rest h ih =>
    obtain ⟨rfl, rfl⟩ := h
    rw [ih]
    rfl
  | case15 c d rest h ih =>
    have hafter : Place.block.after c (some d) = .block :=
      if_neg fun h' => h ⟨h'.1, Option.some.inj h'.2⟩
    rw [ih, Loop.place, marked_cons _ c, List.head?_cons, hafter]
    rfl

def Place.outside : Place → Bool
  | .literal | .escaped => false
  | _ => true

theorem Place.outside_step {p : Place} (hp : p.outside = true) (c : UInt8) (ahead : Option UInt8) :
    (p.role c ahead = .comment ∨ p.role c ahead = .text) ∧ (p.after c ahead).outside = true ∨
      p.role c ahead = .literal ∧ c = quote := by
  cases p with
  | text =>
    by_cases hq : c = quote
    · exact .inr ⟨if_pos hq, hq⟩
    · refine .inl ⟨?_, ?_⟩
      · rw [role, if_neg hq]
        split
        · exact .inl rfl
        · exact .inr rfl
      · rw [after, if_neg hq]
        split
        · rfl
        · split <;> rfl
  | literal | escaped => cases hp
  | line =>
    by_cases hn : c = newline
    · exact .inl ⟨.inr (if_pos hn), by rw [after, if_pos hn]; rfl⟩
    · exact .inl ⟨.inl (if_neg hn), by rw [after, if_neg hn]; rfl⟩
  | opener => exact .inl ⟨.inl rfl, rfl⟩
  | block =>
    refine .inl ⟨.inl rfl, ?_⟩
    rw [after]
    split <;> rfl
  | closer => exact .inl ⟨.inl rfl, rfl⟩

theorem Place.after_comma {p : Place} (h : p.role comma ahead = .literal) :
    p.after comma ahead = .literal := by
  cases p with
  | text => cases ahead <;> cases h
  | literal | escaped => rfl
  | line | opener | block | closer => cases h

theorem closes_blank (c : UInt8) (rest : List UInt8) : closes (blank c :: rest) = closes rest := by
  unfold blank
  split <;> rfl

theorem blank_ne_comma (c : UInt8) : blank c ≠ comma := by
  unfold blank
  split <;> decide

theorem closes_literal (rest : List UInt8) :
    closes ((marked .literal rest).map clean) = closes rest := by
  induction rest with
  | nil => rfl
  | cons c rest ih =>
    by_cases hb : c = backslash
    · subst hb; rfl
    by_cases hq : c = quote
    · subst hq; rfl
    · have hafter : Place.literal.after c rest.head? = .literal := by
        rw [Place.after, if_neg hb, if_neg hq]
      rw [marked_cons, hafter, List.map_cons, closes, closes, ih]
      rfl

theorem closes_outside {p : Place} (hp : p.outside = true) (rest : List UInt8) :
    closes ((marked p rest).map clean) = closesDocument (marked p rest) := by
  induction rest generalizing p with
  | nil => rfl
  | cons c rest ih =>
    rw [marked_cons, List.map_cons]
    rcases p.outside_step hp c rest.head? with ⟨hrole | hrole, hafter⟩ | ⟨hrole, rfl⟩
    · rw [hrole, clean_comment, closes_blank, ih hafter, closesDocument]
    · rw [hrole, clean_text, closes, ih hafter, closesDocument]
    · rw [hrole]
      rfl

theorem map_snd_marked (p : Place) (source : List UInt8) :
    (marked p source).map (·.2) = source := by
  induction source generalizing p with
  | nil => rfl
  | cons c rest ih => rw [marked_cons, List.map_cons, ih]

/-- What both passes leave of the first byte. -/
def firstOut (p : Place) (c : UInt8) (rest : List UInt8) : UInt8 :=
  let x := clean (p.role c rest.head?, c)
  if x = comma && closes ((marked (p.after c rest.head?) rest).map clean) then space else x

/-- The first byte is a comma in a literal that the second pass takes for a trailing one. -/
def StruckComma (p : Place) (c : UInt8) (rest : List UInt8) : Prop :=
  p.role c rest.head? = .literal ∧ c = comma ∧ closes rest = true

/-- What both passes leave of a source. -/
def emitted (p : Place) (source : List UInt8) : List UInt8 :=
  blankTrailing ((marked p source).map clean)

theorem preprocessJsonC_eq (source : List UInt8) :
    preprocessJsonC source = emitted .text source := by
  rw [preprocessJsonC, blankComments_eq]
  rfl

theorem emitted_cons (p : Place) (c : UInt8) (rest : List UInt8) :
    emitted p (c :: rest) = firstOut p c rest :: emitted (p.after c rest.head?) rest := rfl

theorem firstOut_struck (h : StruckComma p c rest) : firstOut p c rest = space := by
  obtain ⟨hrole, rfl, hcloses⟩ := h
  rw [firstOut, Place.after_comma hrole, closes_literal, hcloses, hrole]
  rfl

theorem stripped_cons (h : ¬StruckComma p c rest) :
    stripped (marked p (c :: rest)) =
      firstOut p c rest :: stripped (marked (p.after c rest.head?) rest) := by
  rw [marked_cons]
  cases hrole : p.role c rest.head? with
  | comment =>
    have hblank : firstOut p c rest = blank c := by
      simp only [firstOut, hrole, clean_comment]
      rw [decide_eq_false (blank_ne_comma c)]
      rfl
    rw [stripped, hblank]
  | text =>
    have hout : p.outside = true := by
      cases p with
      | literal | escaped => cases hrole
      | text | line | opener | block | closer => rfl
    obtain ⟨-, hafter⟩ | ⟨hlit, -⟩ := p.outside_step hout c rest.head?
    · rw [stripped, firstOut, hrole, clean_text, closes_outside hafter]
    · rw [hrole] at hlit
      cases hlit
  | literal =>
    rw [stripped, firstOut, hrole, clean_literal]
    by_cases hc : c = comma
    · subst hc
      have hno : closes rest = false := by
        by_contra hyes
        exact h ⟨hrole, rfl, by simpa using hyes⟩
      rw [Place.after_comma hrole, closes_literal, hno, Bool.and_false]
      rfl
    · rw [decide_eq_false hc]
      rfl

theorem commaInLiteral_cons : CommaInLiteral (marked p (c :: rest)) ↔
    StruckComma p c rest ∨ CommaInLiteral (marked (p.after c rest.head?) rest) := by
  constructor
  · rintro ⟨before, after, hsplit, hcloses⟩
    rw [marked_cons] at hsplit
    cases before with
    | nil =>
      obtain ⟨hx, hrest⟩ := List.cons.inj hsplit
      obtain ⟨hrole, rfl⟩ := Prod.mk.inj hx
      rw [← hrest, map_snd_marked] at hcloses
      exact .inl ⟨hrole, rfl, hcloses⟩
    | cons x before => exact .inr ⟨before, after, (List.cons.inj hsplit).2, hcloses⟩
  · rintro (⟨hrole, rfl, hcloses⟩ | ⟨before, after, hsplit, hcloses⟩)
    · refine ⟨[], marked (p.after comma rest.head?) rest, ?_, ?_⟩
      · rw [marked_cons, hrole]
        rfl
      · rw [map_snd_marked]
        exact hcloses
    · exact ⟨_ :: before, after, by rw [marked_cons, hsplit]; rfl, hcloses⟩

/-! ## What preprocessing preserves -/

theorem length_emitted (p : Place) (source : List UInt8) :
    (emitted p source).length = source.length := by
  induction source generalizing p with
  | nil => rfl
  | cons c rest ih => rw [emitted_cons, List.length_cons, ih, List.length_cons]

theorem firstOut_newline (p : Place) (rest : List UInt8) : firstOut p newline rest = newline := by
  have hclean : clean (p.role newline rest.head?, newline) = newline := by
    unfold clean
    split <;> rfl
  rw [firstOut, hclean]
  rfl

theorem newlines_emitted {p : Place} {source : List UInt8} {i : Nat}
    (h : source[i]? = some newline) : (emitted p source)[i]? = some newline := by
  induction source generalizing p i with
  | nil => cases h
  | cons c rest ih =>
    rw [emitted_cons]
    cases i with
    | zero => cases h; exact congrArg some (firstOut_newline p rest)
    | succ i => exact ih h

theorem emitted_eq_stripped {p : Place} {source : List UInt8}
    (h : ¬CommaInLiteral (marked p source)) : emitted p source = stripped (marked p source) := by
  induction source generalizing p with
  | nil => rfl
  | cons c rest ih =>
    rw [commaInLiteral_cons, not_or] at h
    rw [emitted_cons, stripped_cons h.1, ih h.2]

theorem literals_stripped {l : List (Role × UInt8)} {i : Nat} (h : l[i]? = some (Role.literal, c)) :
    (stripped l)[i]? = some c := by
  induction l generalizing i with
  | nil => cases h
  | cons x l ih =>
    obtain ⟨role, d⟩ := x
    cases i with
    | zero => cases h; rfl
    | succ i => cases role <;> exact ih h

theorem struck_of_commaInLiteral {p : Place} {source : List UInt8}
    (h : CommaInLiteral (marked p source)) :
    ∃ i : Nat, (marked p source)[i]? = some (Role.literal, comma) ∧
      (emitted p source)[i]? = some space := by
  induction source generalizing p with
  | nil =>
    obtain ⟨before, after, hsplit, -⟩ := h
    cases before <;> cases hsplit
  | cons c rest ih =>
    rw [emitted_cons, marked_cons]
    rcases commaInLiteral_cons.mp h with hstruck | hrest
    · refine ⟨0, ?_, congrArg some (firstOut_struck hstruck)⟩
      obtain ⟨hrole, rfl, -⟩ := hstruck
      rw [hrole]
      rfl
    · obtain ⟨i, hmark, hout⟩ := ih hrest
      exact ⟨i + 1, hmark, hout⟩

/-- **Preprocessing** leaves the literals of a source alone, and yields the document without its
comments and trailing commas, exactly when no literal contains a comma before a closer. The length
and the newlines it always keeps. -/
theorem preprocessJsonC_preserved_iff (parse : List UInt8 → Except String Json)
    (source : List UInt8) :
    Preserved parse source ↔ ¬CommaInLiteral (marked .text source) := by
  constructor
  · intro h hcomma
    obtain ⟨i, hmark, hout⟩ := struck_of_commaInLiteral hcomma
    have hkept := h.literals i comma hmark
    rw [preprocessJsonC_eq, hout] at hkept
    exact absurd (Option.some.inj hkept) (by decide)
  · intro h
    have hdoc := emitted_eq_stripped h
    refine ⟨fun i c hmark => ?_, ?_, fun i hn => ?_, ?_⟩
    · rw [preprocessJsonC_eq, hdoc]
      exact literals_stripped hmark
    · rw [preprocessJsonC_eq, length_emitted]
    · rw [preprocessJsonC_eq]
      exact newlines_emitted hn
    · rw [parseJsonC, preprocessJsonC_eq, hdoc]

/-- `"a, ]"`: the comma of the literal is lost. -/
theorem comma_in_literal_blanked :
    preprocessJsonC [quote, 0x61, comma, space, 0x5D, quote] =
        [quote, 0x61, space, space, 0x5D, quote] ∧
      ¬∀ parse source, Preserved parse source := by
  refine ⟨by decide, fun h => ?_⟩
  have hkept := (h (fun _ => .error "") [quote, 0x61, comma, space, 0x5D, quote]).literals 2 comma
    (by decide)
  revert hkept
  decide

end Cajeta.Buildtool.JsonC
