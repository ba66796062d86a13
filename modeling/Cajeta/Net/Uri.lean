import Cajeta.Net.IpAddress

/-!
# URIs and their text

Parsing, printing and resolving a URI as the code does: over the bytes of a text, with indices that
every read checks, and into buffers whose size is computed beforehand and whose writes are checked.
-/

namespace Cajeta.Net

def slash : UInt8 := 47
def question : UInt8 := 63
def hash : UInt8 := 35
def atSign : UInt8 := 64
def openBracket : UInt8 := 91
def closeBracket : UInt8 := 93

/-- A parsed URI. A component that may be absent has a flag, and is empty when it is. -/
structure Uri where
  scheme : List UInt8 := []
  hasScheme : Bool := false
  hasAuthority : Bool := false
  userinfo : List UInt8 := []
  hasUserinfo : Bool := false
  host : List UInt8 := []
  hostIsIpv6 : Bool := false
  port : Int := -1
  hasExplicitPort : Bool := false
  path : List UInt8 := []
  query : List UInt8 := []
  hasQuery : Bool := false
  fragment : List UInt8 := []
  hasFragment : Bool := false
  deriving DecidableEq

namespace Uri

def isAlpha (c : UInt8) : Bool := (65 ≤ c && c ≤ 90) || (97 ≤ c && c ≤ 122)
def isDigit (c : UInt8) : Bool := 48 ≤ c && c ≤ 57
def isSchemeChar (c : UInt8) : Bool :=
  isAlpha c || isDigit c || c == 43 || c == 45 || c == 46

/-- Lower case, of the ASCII text that a scheme is. -/
def toLowerCase (s : List UInt8) : List UInt8 :=
  s.map fun c => if 65 ≤ c ∧ c ≤ 90 then c + 32 else c

/-- The bytes of `b[begin, last)`. -/
def slice (b : List UInt8) (begin last : Nat) : Parse (List UInt8) :=
  (List.range (last - begin)).mapM fun i => byteAt b (begin + i)

/-- The first `c` among the `left` bytes from `i` on. -/
def firstIn (b : List UInt8) (c : UInt8) : Nat → Nat → Parse (Option Nat)
  | _, 0 => return none
  | i, left + 1 => do
    let d ← byteAt b i
    if d = c then return some i else firstIn b c (i + 1) left

/-- The last `c` among the `left` bytes from `i` on, or what was found before. -/
def lastIn (b : List UInt8) (c : UInt8) : Nat → Nat → Option Nat → Parse (Option Nat)
  | _, 0, found => return found
  | i, left + 1, found => do
    let d ← byteAt b i
    lastIn b c (i + 1) left (if d = c then some i else found)

/-- Whether `b[i]` is `c`. -/
def byteIs (b : List UInt8) (i : Nat) (c : UInt8) : Parse Bool := do
  let d ← byteAt b i
  return d = c

/-! ## Parsing -/

def defaultPortFor (s : List UInt8) : Int :=
  if s = [104, 116, 116, 112] then 80 -- http
  else if s = [104, 116, 116, 112, 115] then 443 -- https
  else if s = [119, 115] then 80 -- ws
  else if s = [119, 115, 115] then 443 -- wss
  else if s = [102, 116, 112] then 21 -- ftp
  else -1

def portLoop (b : List UInt8) (start : Nat) : Nat → Nat → Nat → Parse Nat
  | _, 0, value => return value
  | i, left + 1, value => do
    let c ← byteAt b i
    if !isDigit c then malformed "non-numeric port" i
    else
      let value := value * 10 + (c.toNat - 48)
      if value > 65535 then malformed "port out of range (> 65535)" start
      else portLoop b start (i + 1) left value

/-- The port digits in `b[start, last)`. Without any there is no explicit port. -/
def parsePort (u : Uri) (b : List UInt8) (start last : Nat) : Parse Uri :=
  if start ≥ last then return u
  else do
    let value ← portLoop b start start (last - start) 0
    return { u with port := value, hasExplicitPort := true }

/-- The host in brackets that starts at `hostStart`, and what follows it. -/
def parseIpv6Host (u : Uri) (b : List UInt8) (hostStart last : Nat) : Parse Uri := do
  let close ← firstIn b closeBracket (hostStart + 1) (last - (hostStart + 1))
  match close with
  | none => malformed "unterminated IPv6 literal '[' in authority" hostStart
  | some close =>
    let host ← slice b (hostStart + 1) close
    let u := { u with host, hostIsIpv6 := true }
    if close + 1 < last then
      let c ← byteAt b (close + 1)
      if c ≠ colon then malformed "unexpected character after IPv6 literal ']'" (close + 1 : Nat)
      else parsePort u b (close + 2) last
    else return u

def parseRegName (u : Uri) (b : List UInt8) (hostStart last : Nat) : Parse Uri := do
  let colonIdx ← lastIn b colon hostStart (last - hostStart) none
  match colonIdx with
  | some colonIdx =>
    let host ← slice b hostStart colonIdx
    parsePort { u with host } b (colonIdx + 1) last
  | none =>
    let host ← slice b hostStart last
    return { u with host }

def parseUserinfo (u : Uri) (b : List UInt8) (start last : Nat) : Parse (Uri × Nat) := do
  let atIdx ← lastIn b atSign start (last - start) none
  match atIdx with
  | some atIdx =>
    let userinfo ← slice b start atIdx
    return ({ u with userinfo, hasUserinfo := true }, atIdx + 1)
  | none => return (u, start)

/-- The authority in `b[start, last)`. -/
def parseAuthority (u : Uri) (b : List UInt8) (start last : Nat) : Parse Uri := do
  let (u, hostStart) ← parseUserinfo u b start last
  let bracket ← (if hostStart < last then byteIs b hostStart openBracket else pure false)
  if bracket then parseIpv6Host u b hostStart last else parseRegName u b hostStart last

/-- The fragment, and where what stands before it ends. -/
def parseFragment (b : List UInt8) (u : Uri) (last : Nat) : Parse (Uri × Nat) := do
  let hashIdx ← firstIn b hash 0 last
  match hashIdx with
  | some hashIdx =>
    let fragment ← slice b (hashIdx + 1) last
    return ({ u with fragment, hasFragment := true }, hashIdx)
  | none => return (u, last)

def parseQuery (b : List UInt8) (u : Uri) (last : Nat) : Parse (Uri × Nat) := do
  let qIdx ← firstIn b question 0 last
  match qIdx with
  | some qIdx =>
    let query ← slice b (qIdx + 1) last
    return ({ u with query, hasQuery := true }, qIdx)
  | none => return (u, last)

def schemeColon (b : List UInt8) : Nat → Nat → Parse (Option Nat)
  | _, 0 => return none
  | j, left + 1 => do
    let c ← byteAt b j
    if c = colon then return some j
    else if c = slash then return none
    else if !isSchemeChar c then return none
    else schemeColon b (j + 1) left

/-- The scheme, and where what stands behind it starts. -/
def parseScheme (b : List UInt8) (u : Uri) (last : Nat) : Parse (Uri × Nat) := do
  let alpha ← (if 0 < last then isAlpha <$> byteAt b 0 else pure false)
  let colonAt ← (if alpha then schemeColon b 1 (last - 1) else pure none)
  match colonAt with
  | some colonAt =>
    let rawScheme ← slice b 0 colonAt
    return ({ u with scheme := toLowerCase rawScheme, hasScheme := true }, colonAt + 1)
  | none => return (u, 0)

/-- The port of an authority that does not say one. -/
def withDefaultPort (u : Uri) : Uri :=
  if u.hasExplicitPort then u
  else { u with port := if u.hasScheme then defaultPortFor u.scheme else -1 }

def parseHierPart (b : List UInt8) (u : Uri) (cursor last : Nat) : Parse (Uri × Nat) := do
  let two ← (if cursor + 1 < last then byteIs b cursor slash <&&> byteIs b (cursor + 1) slash
    else pure false)
  if two then
    let authEnd ← firstIn b slash (cursor + 2) (last - (cursor + 2))
    let authEnd := authEnd.getD last
    let u ← parseAuthority u b (cursor + 2) authEnd
    return (withDefaultPort { u with hasAuthority := true }, authEnd)
  else return (u, cursor)

def parse : Option (List UInt8) → Parse Uri
  | none => malformed "null URI input" (-1)
  | some b =>
    if b.length = 0 then malformed "empty URI" (-1)
    else do
      let (u, last) ← parseFragment b {} b.length
      let (u, last) ← parseQuery b u last
      let (u, cursor) ← parseScheme b u last
      let (u, cursor) ← parseHierPart b u cursor last
      let path ← slice b cursor last
      return { u with path }

/-! ## Printing -/

/-- A buffer, and where the next byte goes. -/
structure Output where
  out : List UInt8
  cursor : Nat

/-- `out[k] = v`. -/
def store (out : List UInt8) (k : Nat) (v : UInt8) : Parse (List UInt8) :=
  if k < out.length then .ok (out.set k v) else .error .outOfBounds

def putByte (o : Output) (c : UInt8) : Parse Output := do
  let out ← store o.out o.cursor c
  return ⟨out, o.cursor + 1⟩

def copyInto (o : Output) : List UInt8 → Parse Output
  | [] => return o
  | c :: src => do
    let o ← putByte o c
    copyInto o src

def countDigits (t : Nat) : Nat := if t = 0 then 0 else countDigits (t / 10) + 1

/-- The width of a number in decimal. -/
def digits (v : Nat) : Nat := if v < 10 then 1 else countDigits v

/-- Writes the digits of `t` from the last one back, the last one before index `j`. -/
def putDigits (out : List UInt8) : Nat → Nat → Parse (List UInt8)
  | 0, _ => .error .outOfBounds
  | j + 1, t => do
    let out ← store out j (UInt8.ofNat (48 + t % 10))
    if t / 10 > 0 then putDigits out j (t / 10) else return out

def putInt (o : Output) (v : Nat) : Parse Output := do
  let out ← putDigits o.out (o.cursor + digits v) v
  return ⟨out, o.cursor + digits v⟩

def printsPort (u : Uri) : Bool := u.hasExplicitPort && decide (u.port ≥ 0)

/-- The size of the buffer. -/
def textLength (u : Uri) : Nat :=
  (if u.hasScheme then u.scheme.length + 1 else 0) +
  (if u.hasAuthority then
    2 + (if u.hasUserinfo then u.userinfo.length + 1 else 0) +
      (if u.hostIsIpv6 then u.host.length + 2 else u.host.length) +
      (if u.printsPort then 1 + digits u.port.toNat else 0)
  else 0) +
  u.path.length +
  (if u.hasQuery then u.query.length + 1 else 0) +
  (if u.hasFragment then u.fragment.length + 1 else 0)

def fillScheme (u : Uri) (o : Output) : Parse Output :=
  if u.hasScheme then do
    let o ← copyInto o u.scheme
    putByte o colon
  else return o

def fillUserinfo (u : Uri) (o : Output) : Parse Output :=
  if u.hasUserinfo then do
    let o ← copyInto o u.userinfo
    putByte o atSign
  else return o

def fillHost (u : Uri) (o : Output) : Parse Output :=
  if u.hostIsIpv6 then do
    let o ← putByte o openBracket
    let o ← copyInto o u.host
    putByte o closeBracket
  else copyInto o u.host

def fillPort (u : Uri) (o : Output) : Parse Output :=
  if u.printsPort then do
    let o ← putByte o colon
    putInt o u.port.toNat
  else return o

def fillAuthority (u : Uri) (o : Output) : Parse Output :=
  if u.hasAuthority then do
    let o ← putByte o slash
    let o ← putByte o slash
    let o ← fillUserinfo u o
    let o ← fillHost u o
    fillPort u o
  else return o

/-- A component behind the character that announces it. -/
def fillTail (has : Bool) (c : UInt8) (src : List UInt8) (o : Output) : Parse Output :=
  if has then do
    let o ← putByte o c
    copyInto o src
  else return o

def fill (u : Uri) : Parse Output := do
  let o ← fillScheme u ⟨List.replicate u.textLength 0, 0⟩
  let o ← fillAuthority u o
  let o ← copyInto o u.path
  let o ← fillTail u.hasQuery question u.query o
  fillTail u.hasFragment hash u.fragment o

def toString (u : Uri) : Parse (List UInt8) := Output.out <$> u.fill

/-! ## Dot segments -/

/-- The working copy of a path with the index that moves over it, and the output with its length. -/
structure Dots where
  input : List UInt8
  out : List UInt8
  olen : Nat := 0
  i : Nat := 0

/-- Whether the bytes from `i` on are those of a pattern. -/
def matchesAt (b : List UInt8) : Nat → List UInt8 → Parse Bool
  | _, [] => return true
  | i, c :: cs => do
    let d ← byteAt b i
    if d = c then matchesAt b (i + 1) cs else return false

def startsAt (b : List UInt8) (n i : Nat) (a c d : UInt8) : Parse Bool :=
  if i + 2 < n then matchesAt b i [a, c, d] else return false

def startsAt2 (b : List UInt8) (n i : Nat) (a c : UInt8) : Parse Bool :=
  if i + 1 < n then matchesAt b i [a, c] else return false

/-- Whether what is left from `i` on is a pattern. -/
def restIs (b : List UInt8) (n i : Nat) (p : List UInt8) : Parse Bool :=
  if i + p.length = n then matchesAt b i p else return false

def isDot (b : List UInt8) (n i : Nat) : Parse Bool :=
  restIs b n i [dot] <||> restIs b n i [dot, dot]

/-- The length of the output without its last segment and the slash before that. -/
def popSegment (out : List UInt8) : Nat → Parse Nat
  | 0 => return 0
  | j + 1 => do
    let c ← byteAt out j
    if c ≠ slash then popSegment out j else return j

/-- Appends the `left` bytes from `k` on to the output. -/
def moveRange (input : List UInt8) : List UInt8 → Nat → Nat → Nat → Parse (List UInt8 × Nat)
  | out, olen, _, 0 => return (out, olen)
  | out, olen, k, left + 1 => do
    let c ← byteAt input k
    let out ← store out olen c
    moveRange input out (olen + 1) (k + 1) left

/-- Moves a segment, with the slash before it, to the output. -/
def moveSegment (n : Nat) (st : Dots) : Parse Dots := do
  let c ← byteAt st.input st.i
  let i := if c = slash then st.i + 1 else st.i
  let next ← firstIn st.input slash i (n - i)
  let i := next.getD n
  let (out, olen) ← moveRange st.input st.out st.olen st.i (i - st.i)
  return { st with out, olen, i }

/-- One of the five cases of the algorithm. -/
def dotStep (n : Nat) (st : Dots) : Parse Dots := do
  let up ← startsAt st.input n st.i dot dot slash
  if up then return { st with i := st.i + 3 }
  let here ← startsAt2 st.input n st.i dot slash
  if here then return { st with i := st.i + 2 }
  let slashHere ← startsAt st.input n st.i slash dot slash
  if slashHere then return { st with i := st.i + 2 }
  let endHere ← restIs st.input n st.i [slash, dot]
  if endHere then
    let input ← store st.input (st.i + 1) slash
    return { st with input, i := st.i + 1 }
  let slashUp ← startsAt st.input n st.i slash dot dot
  if slashUp && decide (st.i + 3 = n) then
    let input ← store st.input (st.i + 2) slash
    let olen ← popSegment st.out st.olen
    return { st with input, i := st.i + 2, olen }
  let slashUpSlash ← (if slashUp then byteIs st.input (st.i + 3) slash else pure false)
  if slashUpSlash then
    let olen ← popSegment st.out st.olen
    return { st with i := st.i + 3, olen }
  let dots ← isDot st.input n st.i
  if dots then return { st with i := n }
  moveSegment n st

def dotLoop (n : Nat) : Nat → Dots → Parse Dots
  | 0, st => if st.i < n then .error .outOfFuel else return st
  | fuel + 1, st =>
    if st.i < n then do
      let st ← dotStep n st
      dotLoop n fuel st
    else return st

def removeDotSegments (path : List UInt8) : Parse (List UInt8) := do
  let n := path.length
  let st ← dotLoop n n { input := path, out := List.replicate n 0 }
  slice st.out 0 st.olen

/-- The reference's path in the place of the base's last segment. -/
def merge (base : Uri) (refPath : List UInt8) : Parse (List UInt8) :=
  if base.hasAuthority ∧ base.path.length = 0 then do
    let o ← putByte ⟨List.replicate (refPath.length + 1) 0, 0⟩ slash
    let o ← copyInto o refPath
    return o.out
  else do
    let lastSlash ← lastIn base.path slash 0 base.path.length none
    let keep := (lastSlash.map (· + 1)).getD 0
    let kept ← slice base.path 0 keep
    let o ← copyInto ⟨List.replicate (keep + refPath.length) 0, 0⟩ kept
    let o ← copyInto o refPath
    return o.out

def copyAuthority (dst src : Uri) : Uri :=
  { dst with hasAuthority := src.hasAuthority, userinfo := src.userinfo,
             hasUserinfo := src.hasUserinfo, host := src.host, hostIsIpv6 := src.hostIsIpv6,
             port := src.port, hasExplicitPort := src.hasExplicitPort }

/-- The target's path and query, for a reference with neither scheme nor authority. -/
def resolvePath (base ref t : Uri) : Parse Uri :=
  if ref.path.length = 0 then
    if ref.hasQuery then return { t with path := base.path, query := ref.query, hasQuery := true }
    else return { t with path := base.path, query := base.query, hasQuery := base.hasQuery }
  else do
    let rooted ← byteIs ref.path 0 slash
    let path ← (if rooted then pure ref.path else merge base ref.path)
    let path ← removeDotSegments path
    return { t with path, query := ref.query, hasQuery := ref.hasQuery }

/-- The target of a parsed reference, but for its fragment. -/
def transform (base ref : Uri) : Parse Uri :=
  if ref.hasScheme then do
    let t := copyAuthority { scheme := ref.scheme, hasScheme := true } ref
    let path ← removeDotSegments ref.path
    return { t with path, query := ref.query, hasQuery := ref.hasQuery }
  else
    let t : Uri := { scheme := base.scheme, hasScheme := base.hasScheme }
    if ref.hasAuthority then do
      let path ← removeDotSegments ref.path
      return { copyAuthority t ref with path, query := ref.query, hasQuery := ref.hasQuery }
    else resolvePath base ref (copyAuthority t base)

/-- The reference, parsed. No text, or an empty one, is the reference to the same document. -/
def parseReference : Option (List UInt8) → Parse Uri
  | none => return {}
  | some b => if b.length > 0 then parse (some b) else return {}

def resolve (base : Uri) (reference : Option (List UInt8)) : Parse Uri := do
  let ref ← parseReference reference
  let t ← transform base ref
  return { t with fragment := ref.fragment, hasFragment := ref.hasFragment }

end Uri
end Cajeta.Net
