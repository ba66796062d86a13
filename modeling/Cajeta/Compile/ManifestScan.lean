import Mathlib.Data.List.TakeWhile
import Cajeta.Compile.CajetaArchive

/-!
# Scanning the manifest back

The manifest is a sequence of quoted segments. A value without a quote of its own cannot hide or
forge a key, so each scan finds the field the writer put there.
-/

namespace Cajeta.Compile
open Substring

theorem isDigit_digit (h : d < 10) : isDigit (UInt8.ofNat (0x30 + d)) = true := by
  have hall : ∀ d < 10, isDigit (UInt8.ofNat (0x30 + d)) = true := by decide
  exact hall d h

theorem toNat_digit (h : d < 10) : (UInt8.ofNat (0x30 + d)).toNat - 0x30 = d := by
  have hall : ∀ d < 10, (UInt8.ofNat (0x30 + d)).toNat - 0x30 = d := by decide
  exact hall d h

theorem isDigit_of_mem_decimal (h : b ∈ decimal n) : isDigit b = true := by
  unfold decimal at h
  split at h
  · have hall : ∀ b ∈ ascii "0", isDigit b = true := by decide +kernel
    exact hall b h
  · obtain ⟨d, hd, rfl⟩ := List.mem_map.mp h
    exact isDigit_digit (Nat.digits_lt_base (by decide) (List.mem_reverse.mp hd))

theorem decimal_ne_nil : decimal n ≠ [] := by
  unfold decimal
  split
  · decide
  · next h => simpa using Nat.digits_ne_nil_iff_ne_zero.mpr h

private theorem foldl_digits (L : List Nat) (hL : ∀ d ∈ L, d < 10) :
    ((L.reverse.map fun d => UInt8.ofNat (0x30 + d)).foldl
      (fun v b => v * 10 + (b.toNat - 0x30)) 0) = Nat.ofDigits 10 L := by
  rw [List.foldl_map, List.foldl_reverse]
  induction L with
  | nil => rfl
  | cons d L ih =>
    obtain ⟨hd, hL⟩ := List.forall_mem_cons.mp hL
    rw [List.foldr_cons, ih hL, toNat_digit hd, Nat.ofDigits_cons]
    exact (Nat.add_comm _ _).trans (congrArg (d + ·) (Nat.mul_comm _ _))

private theorem of_isDigit (h : isDigit b = true) :
    (b == 0x20 || (0x09 ≤ b && b ≤ 0x0D)) = false ∧ b ≠ 0x2D ∧ b ≠ 0x2B := by
  simp only [isDigit, Bool.and_eq_true, decide_eq_true_eq, UInt8.le_iff_toNat_le] at h
  have h30 : (0x30 : UInt8).toNat = 0x30 := rfl
  have h0D : (0x0D : UInt8).toNat = 0x0D := rfl
  refine ⟨?_, ?_, ?_⟩
  · have hsp : b ≠ 0x20 := by rintro rfl; exact absurd h.1 (by decide)
    have hle : ¬ b ≤ 0x0D := by rw [UInt8.le_iff_toNat_le]; omega
    simp [hsp, hle]
  · rintro rfl; exact absurd h.1 (by decide)
  · rintro rfl; exact absurd h.1 (by decide)

theorem stoul_decimal (h : n < 2 ^ 64) : stoul (decimal n) = some n := by
  obtain ⟨b, bs, hb⟩ := List.exists_cons_of_ne_nil (decimal_ne_nil (n := n))
  have hfirst := of_isDigit (isDigit_of_mem_decimal (n := n) (hb ▸ List.mem_cons_self))
  have hall : (decimal n).takeWhile isDigit = decimal n :=
    List.takeWhile_eq_self_iff.mpr fun _ hb => isDigit_of_mem_decimal hb
  have hvalue : (decimal n).foldl (fun v b => v * 10 + (b.toNat - 0x30)) 0 = n := by
    unfold decimal
    split
    · next h0 => subst h0; decide
    · rw [foldl_digits _ fun d hd => Nat.digits_lt_base (by decide) hd, Nat.ofDigits_digits]
  have hdrop : (decimal n).dropWhile (fun b => b == 0x20 || (0x09 ≤ b && b ≤ 0x0D)) =
      decimal n := by
    rw [hb, List.dropWhile_cons_of_neg (by simpa using hfirst.1)]
  have hhead : (decimal n).head? = some b := by rw [hb]; rfl
  simp only [stoul, hdrop, hhead]
  have hm : ((some b : Option UInt8) == some 0x2D) = false := by simpa using hfirst.2.1
  have hp : ((some b : Option UInt8) == some 0x2B) = false := by simpa using hfirst.2.2
  have hne : ¬ (decimal n = [] ∨ n ≥ 2 ^ 64) := by simp only [decimal_ne_nil, false_or]; omega
  simp only [hm, hp, Bool.or_self, Bool.false_eq_true, if_false, hall, hvalue, hne]

/-- `"key":"value"` and what follows it. -/
def field (key value rest : ByteString) : ByteString :=
  quote :: (key ++ quote :: (ascii ":" ++ quote :: (value ++ quote :: rest)))

/-- A key cannot be taken for the punctuation between two quotes. -/
structure IsKey (key : ByteString) : Prop where
  quote_notMem : quote ∉ key
  ne_colon : key ≠ ascii ":"
  ne_comma : key ≠ ascii ","

theorem isKey_name : IsKey (ascii "name") := by constructor <;> decide
theorem isKey_version : IsKey (ascii "version") := by constructor <;> decide
theorem isKey_kind : IsKey (ascii "kind") := by constructor <;> decide
theorem isKey_deps : IsKey (ascii "deps") := by constructor <;> decide
theorem isKey_count : IsKey (ascii "included_entry_count") := by constructor <;> decide

theorem scan_hit (hkey : IsKey key) (hvalue : quote ∉ value) :
    scanManifestString (field key value rest) key = value := by
  have hafter : after (quoted quote key (ascii ":\"")) (field key value rest) =
      some (value ++ quote :: rest) := by
    rw [field, after_quoted hkey.quote_notMem hkey.quote_notMem,
      if_pos ⟨rfl, value ++ quote :: rest, rfl⟩]
    rfl
  rw [scanManifestString, hafter]
  exact congrArg (·.getD []) (upTo_append hvalue rest)

theorem after_miss (hkey : IsKey key) (hk : IsKey k) (hne : key ≠ k) (hvalue : quote ∉ value)
    (hrest : rest.head? = some quote) :
    after (quoted quote key (0x3A :: tail)) (field k value (ascii "," ++ rest)) =
      after (quoted quote key (0x3A :: tail)) rest := by
  obtain ⟨rest, rfl⟩ : ∃ r, rest = quote :: r := ⟨rest.tail, List.eq_cons_of_mem_head? hrest⟩
  have hnot : ¬ (0x3A :: tail <+: ascii "," ++ quote :: rest) := by
    rintro ⟨l, hl⟩
    have : (0x3A : UInt8) = 0x2C := (List.cons.inj hl).1
    exact absurd this (by decide)
  rw [field, after_quoted hkey.quote_notMem hk.quote_notMem, if_neg fun h => hne h.1,
    after_quoted hkey.quote_notMem (by decide), if_neg fun h => hkey.ne_colon h.1,
    after_quoted hkey.quote_notMem hvalue, if_neg fun h => hnot h.2,
    after_quoted hkey.quote_notMem (by decide), if_neg fun h => hkey.ne_comma h.1]

theorem scan_miss (hkey : IsKey key) (hk : IsKey k) (hne : key ≠ k) (hvalue : quote ∉ value) :
    scanManifestString (field k value (ascii "," ++ field k' value' rest)) key =
      scanManifestString (field k' value' rest) key := by
  have hcolon : ascii ":\"" = 0x3A :: [quote] := by decide
  simp only [scanManifestString, hcolon]
  rw [after_miss hkey hk hne hvalue rfl]

theorem after_brace (key tail rest : ByteString) :
    after (quoted quote key tail) (ascii "\x7b" ++ rest) = after (quoted quote key tail) rest :=
  after_skip (by decide) _ _

theorem scan_brace (key rest : ByteString) :
    scanManifestString (ascii "\x7b" ++ rest) key = scanManifestString rest key := by
  rw [scanManifestString, after_brace, scanManifestString]

/-! ## Dependencies -/

/-- Free of the characters the scanner stops at. -/
def Plain (s : ByteString) : Prop := ∀ b ∈ s, b ∉ ascii "\"[]\x7b\x7d"

instance : DecidablePred Plain := fun s => inferInstanceAs (Decidable (∀ b ∈ s, _))

theorem Plain.quote_notMem (h : Plain s) : quote ∉ s := fun hb => h quote hb (by decide)

theorem Plain.notMem (h : Plain s) (hc : c ∈ ascii "\"[]\x7b\x7d") : c ∉ s := fun hb => h c hb hc

/-- A dependency the scanner can read back: an object without a name would be dropped. -/
structure DepSummary.Plain (d : DepSummary) : Prop where
  name : Compile.Plain d.name
  named : d.name ≠ []
  version : Compile.Plain d.version

/-- The text of a dependency behind its opening brace, with `rest` in place of the closing one. -/
def depFields (d : DepSummary) (rest : ByteString) : ByteString :=
  field (ascii "name") d.name (ascii "," ++ field (ascii "version") d.version (ascii "," ++
    (quoted quote (ascii "included_entry_count") (ascii ":") ++
      (decimal d.includedEntryCount.toNat ++ rest))))

theorem depManifest_eq (d : DepSummary) : depManifest d = ascii "\x7b" ++ depFields d [0x7D] := by
  have h₁ : ascii "\x7b\"name\":\"" =
      ascii "\x7b" ++ quote :: (ascii "name" ++ quote :: (ascii ":" ++ [quote])) := by
    decide +kernel
  have h₂ : ascii ",\"version\":\"" =
      ascii "," ++ quote :: (ascii "version" ++ quote :: (ascii ":" ++ [quote])) := by
    decide +kernel
  have h₃ : ascii ",\"included_entry_count\":" =
      ascii "," ++ quoted quote (ascii "included_entry_count") (ascii ":") := by decide +kernel
  have h₄ : ascii "\"" = [quote] := by decide +kernel
  have h₅ : ascii "\x7d" = [0x7D] := by decide +kernel
  simp only [depManifest, h₁, h₂, h₃, h₄, h₅, depFields, field, List.append_assoc, List.cons_append,
    List.nil_append]

theorem depFields_append (d : DepSummary) (rest : ByteString) :
    depFields d rest = depFields d [] ++ rest := by
  simp only [depFields, field, List.append_assoc, List.cons_append, List.append_nil]

theorem decimal_notMem (h : isDigit c = false) : c ∉ decimal n := fun hc => by
  rw [isDigit_of_mem_decimal hc] at h
  cases h

theorem scanDep_depManifest (hd : d.Plain) : scanDep (depManifest d) = d := by
  have hname : scanManifestString (depManifest d) (ascii "name") = d.name := by
    rw [depManifest_eq, scan_brace, depFields, scan_hit isKey_name hd.name.quote_notMem]
  have hversion : scanManifestString (depManifest d) (ascii "version") = d.version := by
    rw [depManifest_eq, scan_brace, depFields,
      scan_miss isKey_version isKey_name (by decide) hd.name.quote_notMem,
      scan_hit isKey_version hd.version.quote_notMem]
  have hafter : after (ascii "\"included_entry_count\":") (depManifest d) =
      some (decimal d.includedEntryCount.toNat ++ [0x7D]) := by
    have hneedle : ascii "\"included_entry_count\":" =
        quoted quote (ascii "included_entry_count") (0x3A :: []) := by decide
    have hcolon : ascii ":" = 0x3A :: [] := by decide
    rw [hneedle, depManifest_eq, after_brace, depFields,
      after_miss isKey_count isKey_name (by decide) hd.name.quote_notMem rfl,
      after_miss isKey_count isKey_version (by decide) hd.version.quote_notMem rfl, hcolon,
      after_append (quoted quote (ascii "included_entry_count") [0x3A]) _ (List.cons_ne_nil _ _)]
  have hcount : scanEntryCount (depManifest d) = d.includedEntryCount := by
    have hdigits : (decimal d.includedEntryCount.toNat ++ [0x7D]).takeWhile
        (fun b => !(b == 0x2C || b == 0x7D)) = decimal d.includedEntryCount.toNat := by
      rw [List.takeWhile_append_of_pos fun b hb => ?_]
      · simp
      · have h₁ : b ≠ 0x2C := fun h => decimal_notMem (by decide) (h ▸ hb)
        have h₂ : b ≠ 0x7D := fun h => decimal_notMem (by decide) (h ▸ hb)
        simp [h₁, h₂]
    have hlt : d.includedEntryCount.toNat < 2 ^ 64 :=
      Nat.lt_trans d.includedEntryCount.toNat_lt (by decide)
    rw [scanEntryCount, hafter]
    simp only [List.any_append, List.any_cons, beq_self_eq_true, Bool.or_true, Bool.true_or,
      if_true, hdigits, stoul_decimal hlt, Option.map_some, Option.getD_some]
    exact UInt32.ofNat_toNat
  rw [scanDep, hname, hversion, hcount]

theorem brace_notMem_depFields (hd : d.Plain) : (0x7D : UInt8) ∉ depFields d [] := by
  have h₁ : (0x7D : UInt8) ∉ d.name := hd.name.notMem (by decide)
  have h₂ : (0x7D : UInt8) ∉ d.version := hd.version.notMem (by decide)
  have h₃ : (0x7D : UInt8) ∉ decimal d.includedEntryCount.toNat := decimal_notMem (by decide)
  have h₄ : ∀ k ∈ [ascii "name", ascii "version", ascii "included_entry_count", ascii ":",
      ascii ",", [quote]], (0x7D : UInt8) ∉ k := by decide
  simp only [List.forall_mem_cons] at h₄
  simp only [depFields, field, quoted, List.mem_cons, List.mem_append, not_or]
  tauto

theorem bracket_notMem_depsManifest (h : ∀ d ∈ ds, d.Plain) :
    (0x5D : UInt8) ∉ depsManifest ds := by
  have hone : ∀ d : DepSummary, d.Plain → (0x5D : UInt8) ∉ depManifest d := by
    intro d hd
    have h₁ : (0x5D : UInt8) ∉ d.name := hd.name.notMem (by decide)
    have h₂ : (0x5D : UInt8) ∉ d.version := hd.version.notMem (by decide)
    have h₃ : (0x5D : UInt8) ∉ decimal d.includedEntryCount.toNat := decimal_notMem (by decide)
    have h₄ : ∀ k ∈ [ascii "\x7b\"name\":\"", ascii "\"", ascii ",\"version\":\"",
        ascii ",\"included_entry_count\":", ascii "\x7d"], (0x5D : UInt8) ∉ k := by decide
    simp only [List.forall_mem_cons, List.not_mem_nil, false_imp_iff, implies_true,
      and_true] at h₄
    simp only [depManifest, List.mem_append, not_or]
    tauto
  induction ds with
  | nil => exact List.not_mem_nil
  | cons d ds ih =>
    obtain ⟨hd, hds⟩ := List.forall_mem_cons.mp h
    cases ds with
    | nil => exact hone d hd
    | cons d' ds =>
      have hcomma : (0x5D : UInt8) ∉ ascii "," := by decide
      simp only [depsManifest, List.mem_append, not_or]
      exact ⟨⟨hone d hd, hcomma⟩, ih hds⟩

/-- The objects are read one after another, whatever separator stands before each. -/
theorem scanObjects_depsManifest (h : ∀ d ∈ ds, d.Plain) (hsep : ∀ b ∈ sep, b = 0x2C)
    (hfuel : (sep ++ depsManifest ds).length ≤ fuel) :
    scanObjects fuel (sep ++ depsManifest ds) = ds := by
  have hdrop : ∀ l : ByteString, (sep ++ l).dropWhile (· ≠ 0x7B) = l.dropWhile (· ≠ 0x7B) :=
    fun l => List.dropWhile_append_of_pos fun b hb => by rw [hsep b hb]; decide
  induction ds generalizing fuel sep with
  | nil =>
    cases fuel with
    | zero => rfl
    | succ fuel =>
      have hnil := hdrop []
      simp only [List.dropWhile_nil] at hnil
      simp only [scanObjects, depsManifest, hnil]
      rfl
  | cons d ds ih =>
    obtain ⟨hd, hds⟩ := List.forall_mem_cons.mp h
    obtain ⟨sep', hsep', hrest⟩ : ∃ sep' : ByteString, (∀ b ∈ sep', b = 0x2C) ∧
        depsManifest (d :: ds) = depManifest d ++ (sep' ++ depsManifest ds) := by
      cases ds with
      | nil => exact ⟨[], nofun, by simp [depsManifest]⟩
      | cons d' ds =>
        refine ⟨ascii ",", by decide +kernel, ?_⟩
        simp only [depsManifest, List.append_assoc]
    have hobj : depManifest d = (0x7B :: depFields d []) ++ [0x7D] := by
      have hbrace : ascii "\x7b" = [0x7B] := by decide
      rw [depManifest_eq, depFields_append, hbrace]
      rfl
    have hnot : (0x7D : UInt8) ∉ (0x7B :: depFields d [] : ByteString) := by
      simp only [List.mem_cons, not_or]
      exact ⟨by decide, brace_notMem_depFields hd⟩
    rw [hrest] at hfuel ⊢
    cases fuel with
    | zero => simp [hobj] at hfuel
    | succ fuel =>
      have hlen : (sep' ++ depsManifest ds).length ≤ fuel := by
        rw [hobj] at hfuel
        simp only [List.length_append, List.length_cons] at hfuel ⊢
        omega
      have hstart : (sep ++ (depManifest d ++ (sep' ++ depsManifest ds))).dropWhile (· ≠ 0x7B) =
          (0x7B :: depFields d []) ++ 0x7D :: (sep' ++ depsManifest ds) := by
        rw [hdrop, hobj, List.append_assoc]
        rfl
      have hupTo : upTo 0x7D ((0x7B :: depFields d []) ++ 0x7D :: (sep' ++ depsManifest ds)) =
          some (0x7B :: depFields d []) := upTo_append hnot _
      have htail : ((0x7B :: depFields d []) ++ 0x7D :: (sep' ++ depsManifest ds)).drop
          ((0x7B :: depFields d [] : ByteString).length + 1) = sep' ++ depsManifest ds := by
        rw [← List.drop_drop, List.drop_left]
        rfl
      simp only [scanObjects, hstart, hupTo, htail, ← hobj, scanDep_depManifest hd]
      rw [if_pos hd.named, ih hds hsep' hlen fun l => List.dropWhile_append_of_pos fun b hb => by
        rw [hsep' b hb]; decide]

/-! ## The manifest -/

/-- What follows the kind, with `rest` behind the last number. -/
def numbers (n : Nat) (rest : ByteString) : ByteString :=
  quote :: (ascii "format_version" ++ quote :: (ascii ":1," ++ quote :: (ascii "entry_count" ++
    quote :: ((ascii ":" ++ decimal n) ++ rest))))

def CajetaArchive.kindName (a : CajetaArchive) : ByteString :=
  ascii (if a.kind = .uber then "uber" else "cja")

def manifestDeps (a : CajetaArchive) : ByteString :=
  if a.kind = .uber ∧ a.deps ≠ [] then
    ascii "," ++ (quoted quote (ascii "deps") (ascii ":[") ++
      (depsManifest a.deps ++ ascii "]\x7d"))
  else ascii "\x7d"

theorem buildManifest_eq (a : CajetaArchive) :
    a.buildManifest = ascii "\x7b" ++ field (ascii "name") a.name (ascii "," ++
      field (ascii "version") a.version (ascii "," ++ field (ascii "kind") a.kindName
        (ascii "," ++ numbers a.entries.length (manifestDeps a)))) := by
  have h₁ : ascii "\"name\":\"" =
      quote :: (ascii "name" ++ quote :: (ascii ":" ++ [quote])) := by decide +kernel
  have h₂ : ascii ",\"version\":\"" =
      ascii "," ++ quote :: (ascii "version" ++ quote :: (ascii ":" ++ [quote])) := by
    decide +kernel
  have h₃ : ascii ",\"kind\":\"" =
      ascii "," ++ quote :: (ascii "kind" ++ quote :: (ascii ":" ++ [quote])) := by decide +kernel
  have h₄ : ascii ",\"format_version\":" ++ decimal formatVersion ++ ascii ",\"entry_count\":" =
      ascii "," ++ quote :: (ascii "format_version" ++ quote :: (ascii ":1," ++ quote ::
        (ascii "entry_count" ++ quote :: ascii ":"))) := by decide +kernel
  have h₅ : ascii ",\"deps\":[" =
      ascii "," ++ quoted quote (ascii "deps") (ascii ":[") := by decide +kernel
  have h₆ : ascii "\"" = [quote] := by decide +kernel
  have h₇ : ascii "]\x7d" = ascii "]" ++ ascii "\x7d" := by decide +kernel
  have hnumbers : ∀ p rest : ByteString,
      p ++ ascii ",\"format_version\":" ++ decimal formatVersion ++ ascii ",\"entry_count\":" ++
        rest = p ++ (ascii "," ++ quote :: (ascii "format_version" ++ quote :: (ascii ":1," ++
          quote :: (ascii "entry_count" ++ quote :: (ascii ":" ++ rest))))) := by
    intro p rest
    rw [List.append_assoc p, List.append_assoc p, h₄]
    simp only [List.append_assoc, List.cons_append]
  have hdeps : (if a.kind = .uber ∧ a.deps ≠ [] then
      ascii ",\"deps\":[" ++ depsManifest a.deps ++ ascii "]" else []) ++ ascii "\x7d" =
      manifestDeps a := by
    unfold manifestDeps
    split
    · rw [h₅, h₇]
      simp only [List.append_assoc]
    · rfl
  rw [CajetaArchive.buildManifest, hnumbers, List.append_assoc _ _ (ascii "\x7d"), hdeps]
  simp only [h₁, h₂, h₃, h₆, field, numbers, CajetaArchive.kindName, List.append_assoc,
    List.cons_append, List.nil_append]

section
variable {a : CajetaArchive}

theorem quote_notMem_kindName (a : CajetaArchive) : quote ∉ a.kindName := by
  unfold CajetaArchive.kindName
  split <;> decide

theorem scan_name (hname : Plain a.name) :
    scanManifestString a.buildManifest (ascii "name") = a.name := by
  rw [buildManifest_eq, scan_brace, scan_hit isKey_name hname.quote_notMem]

theorem scan_version (hname : Plain a.name) (hversion : Plain a.version) :
    scanManifestString a.buildManifest (ascii "version") = a.version := by
  rw [buildManifest_eq, scan_brace, scan_miss isKey_version isKey_name (by decide)
    hname.quote_notMem, scan_hit isKey_version hversion.quote_notMem]

theorem scan_kind (hname : Plain a.name) (hversion : Plain a.version) :
    scanManifestString a.buildManifest (ascii "kind") = a.kindName := by
  rw [buildManifest_eq, scan_brace,
    scan_miss isKey_kind isKey_name (by decide) hname.quote_notMem,
    scan_miss isKey_kind isKey_version (by decide) hversion.quote_notMem,
    scan_hit isKey_kind (quote_notMem_kindName a)]

theorem kindName_eq_uber : a.kindName = ascii "uber" ↔ a.kind = .uber := by
  unfold CajetaArchive.kindName
  split <;> simp_all
  decide

theorem decimal_segment (n : Nat) : quote ∉ ascii ":" ++ decimal n := by
  rw [List.mem_append, not_or]
  exact ⟨by decide, decimal_notMem (by decide)⟩

theorem after_numbers (n : Nat) (tail rest : ByteString) :
    after (quoted quote (ascii "deps") tail) (numbers n rest) =
      after (quoted quote (ascii "deps") tail) (quote :: ((ascii ":" ++ decimal n) ++ rest)) := by
  have hkey := isKey_deps.quote_notMem
  rw [numbers, after_quoted hkey (by decide), if_neg (fun h => absurd h.1 (by decide)),
    after_quoted hkey (by decide), if_neg (fun h => absurd h.1 (by decide)),
    after_quoted hkey (by decide), if_neg (fun h => absurd h.1 (by decide))]

theorem after_deps (hname : Plain a.name) (hversion : Plain a.version) :
    after (ascii "\"deps\":[") a.buildManifest =
      if a.kind = .uber ∧ a.deps ≠ [] then
        some (depsManifest a.deps ++ ascii "]\x7d") else none := by
  have hneedle : ascii "\"deps\":[" = quoted quote (ascii "deps") (0x3A :: ascii "[") := by decide
  have hcolon : ascii ":[" = 0x3A :: ascii "[" := by decide
  rw [buildManifest_eq, hneedle, after_brace,
    after_miss isKey_deps isKey_name (by decide) hname.quote_notMem rfl,
    after_miss isKey_deps isKey_version (by decide) hversion.quote_notMem rfl,
    after_miss isKey_deps isKey_kind (by decide) (quote_notMem_kindName a) rfl, after_numbers,
    manifestDeps]
  have hsegment := decimal_segment a.entries.length
  split
  · have hsplit : ∀ rest : ByteString, quote :: ((ascii ":" ++ decimal a.entries.length) ++
        (ascii "," ++ (quoted quote (ascii "deps") (ascii ":[") ++ rest))) =
        quote :: ((ascii ":" ++ decimal a.entries.length ++ ascii ",") ++
          quote :: (ascii "deps" ++ quote :: (ascii ":[" ++ rest))) := by
      intro rest
      simp only [quoted, List.append_assoc, List.cons_append]
    have hcomma : quote ∉ ascii ":" ++ decimal a.entries.length ++ ascii "," := by
      rw [List.mem_append, not_or]
      exact ⟨hsegment, by decide⟩
    rw [hsplit, after_quoted isKey_deps.quote_notMem hcomma, if_neg fun h => ?_,
      after_quoted isKey_deps.quote_notMem isKey_deps.quote_notMem, hcolon,
      if_pos ⟨rfl, List.prefix_append _ _⟩, List.drop_left]
    exact absurd (congrArg List.head? h.1) (by simp [ascii])
  · have hend : quote ∉ (ascii ":" ++ decimal a.entries.length) ++ ascii "\x7d" := by
      rw [List.mem_append, not_or]
      exact ⟨hsegment, by decide⟩
    exact after_quoted_last hend

theorem scanManifestDeps_buildManifest (hname : Plain a.name) (hversion : Plain a.version)
    (huber : a.kind = .uber) (hdeps : ∀ d ∈ a.deps, d.Plain) :
    scanManifestDeps a.buildManifest = a.deps := by
  rw [scanManifestDeps, after_deps hname hversion]
  by_cases hnil : a.deps = []
  · simp [hnil]
  · have hend : ascii "]\x7d" = 0x5D :: ascii "\x7d" := by decide
    rw [if_pos ⟨huber, hnil⟩, Option.bind_some, hend,
      upTo_append (bracket_notMem_depsManifest hdeps)]
    have hscan (fuel) (h : ([] ++ depsManifest a.deps).length ≤ fuel) :
        scanObjects fuel ([] ++ depsManifest a.deps) = a.deps :=
      scanObjects_depsManifest hdeps nofun h
    exact hscan _ (Nat.le_refl _)

end

end Cajeta.Compile
