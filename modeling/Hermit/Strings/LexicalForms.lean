import Hermit.Strings.DatatypeAutomata

/-! # Lexical forms

The values of the string datatypes as scans over the characters of a text.
-/

namespace Hermit

open List

/-- The number of bytes of a code point. -/
def utf8Size (c : ℕ) : ℕ := if c ≤ 0x7F then 1 else if c ≤ 0x7FF then 2 else if c ≤
    0xFFFF then 3 else 4

/-- The number of bytes of a string. -/
def byteLength (w : List ℕ) : ℕ := (w.map utf8Size).sum

theorem byteLength_eq_length {w : List ℕ} (h : ∀ c ∈ w, c ≤ 0x7F) : byteLength w = w.length := by
  induction w with
  | nil => rfl
  | cons c w ih =>
    obtain ⟨hc, hw⟩ := forall_mem_cons.mp h
    have hone : utf8Size c = 1 := if_pos hc
    rw [byteLength, map_cons, sum_cons, hone, length_cons, Nat.add_comm]
    exact congrArg (· + 1) (ih hw)

theorem byteLength_eq_one {w : List ℕ} : byteLength w = 1 ↔ ∃ c, w = [c] ∧ c ≤ 0x7F := by
  have hsize : ∀ c, 1 ≤ utf8Size c ∧ (utf8Size c = 1 ↔ c ≤ 0x7F) := by
    intro c
    simp only [utf8Size]
    split_ifs <;> omega
  cases w with
  | nil => simp [byteLength]
  | cons c w =>
    have hc := hsize c
    rw [byteLength, map_cons, sum_cons]
    cases w with
    | nil => simp [hc.2]
    | cons d w =>
      have hd := hsize d
      rw [map_cons, sum_cons]
      refine iff_of_false (by omega) ?_
      rintro ⟨e, heq, -⟩
      cases heq

/-- The code point is the one of a character of the text. -/
def oneOf (s : String) (c : ℕ) : Bool := (codePoints s).contains c

/-! ## Characters -/

def isAsciiLowercase (c : ℕ) : Bool := 0x61 ≤ c && c ≤ 0x7A

def isAsciiAlphabetic (c : ℕ) : Bool := (0x41 ≤ c && c ≤ 0x5A) || isAsciiLowercase c

def isAsciiDigit (c : ℕ) : Bool := 0x30 ≤ c && c ≤ 0x39

def isAsciiAlphanumeric (c : ℕ) : Bool := isAsciiAlphabetic c || isAsciiDigit c

def isAsciiHexdigit (c : ℕ) : Bool :=
  isAsciiDigit c || (0x41 ≤ c && c ≤ 0x46) || (0x61 ≤ c && c ≤ 0x66)

def isNameStartChar (c : ℕ) (allowColon : Bool) : Bool :=
  (allowColon && c = 0x3A) || (0x41 ≤ c && c ≤ 0x5A) || c = 0x5F || (0x61 ≤ c && c ≤ 0x7A) ||
    (0xC0 ≤ c && c ≤ 0xD6) ||
    (0xD8 ≤ c && c ≤ 0xF6) || (0xF8 ≤ c && c ≤ 0x2FF) || (0x370 ≤ c && c ≤ 0x37D) ||
      (0x37F ≤ c && c ≤ 0x1FFF) ||
    (0x200C ≤ c && c ≤ 0x200D) || (0x2070 ≤ c && c ≤ 0x218F) || (0x2C00 ≤ c && c ≤ 0x2FEF) ||
      (0x3001 ≤ c && c ≤ 0xD7FF) ||
    (0xF900 ≤ c && c ≤ 0xFDCF) || (0xFDF0 ≤ c && c ≤ 0xFFFD) || (0x10000 ≤ c && c ≤ 0xEFFFF)

def isNameChar (c : ℕ) (allowColon : Bool) : Bool :=
  isNameStartChar c allowColon || (0x2D ≤ c && c ≤ 0x2E) || (0x30 ≤ c && c ≤ 0x39) || c = 0xB7 ||
    (0x300 ≤ c && c ≤ 0x36F) ||
    (0x203F ≤ c && c ≤ 0x2040)

def isTokenChar (c : ℕ) : Bool := (0x21 ≤ c && c ≤ 0xD7FF) || (0xE000 ≤ c && c ≤ 0xFFFD)

def isXmlChar (c : ℕ) : Bool :=
  c = 0x9 || c = 0xA || c = 0xD || (0x20 ≤ c && c ≤ 0xD7FF) ||
    (0xE000 ≤ c && c ≤ 0xFFFD) || 0xFFFF < c

/-! ## Strings -/

variable (s : List ℕ)

def isValidXmlName (allowColon : Bool) : Bool :=
  match s with
  | [] => false
  | first :: chars => isNameStartChar first allowColon && chars.all (isNameChar · allowColon)

def isValidNmtoken : Bool := !s.isEmpty && s.all (isNameChar · true)

def isValidNormalizedString : Bool :=
  s.all fun c => (0x20 ≤ c && c ≤ 0x7F) || (0xA0 ≤ c && c ≤ 0xD7FF) || (0xE000 ≤ c && c ≤ 0xFFFD)

/-- Two spaces follow one another. -/
def hasDoubleSpace : List ℕ → Bool
  | c :: d :: s => (c = 0x20 && d = 0x20) || hasDoubleSpace (d :: s)
  | _ => false

def isValidToken : Bool :=
  if s.isEmpty then true
  else if s.head? = some 0x20 || s.getLast? = some 0x20 || hasDoubleSpace s then false
  else s.all fun c => c = 0x20 || isTokenChar c

def isValidLanguage : Bool :=
  match s.splitOn 0x2D with
  | [] => false
  | first :: parts =>
    (1 ≤ byteLength first && byteLength first ≤ 8 && first.all isAsciiAlphabetic) &&
      parts.all fun p => 1 ≤ byteLength p && byteLength p ≤ 8 && p.all isAsciiAlphanumeric

/-- The datatypes that are no string types have no check here. -/
def stringLexicalValid (datatype : StringDatatype) (lexical : List ℕ) : Bool :=
  match datatype with
  | .string => lexical.all isXmlChar
  | .normalizedString => isValidNormalizedString lexical
  | .token => isValidToken lexical
  | .language => isValidLanguage lexical
  | .name => isValidXmlName lexical true
  | .ncname => isValidXmlName lexical false
  | .nmtoken => isValidNmtoken lexical
  | .anyUri => true

/-! ## Language tags -/

/-- Some number of bytes, all of a class. -/
def subtagOf (p : ℕ → Bool) (min max : ℕ) (t : List ℕ) : Bool :=
  min ≤ byteLength t && byteLength t ≤ max && t.all p

/-- Skip at most some number of subtags. -/
def skipUpTo (p : List ℕ → Bool) : ℕ → List (List ℕ) → List (List ℕ)
  | k + 1, t :: subtags => if p t then skipUpTo p k subtags else t :: subtags
  | _, subtags => subtags

def isExtlang : List ℕ → Bool := subtagOf isAsciiAlphabetic 3 3

def isScript : List ℕ → Bool := subtagOf isAsciiAlphabetic 4 4

def isRegion (t : List ℕ) : Bool := subtagOf isAsciiAlphabetic 2 2 t || subtagOf isAsciiDigit 3 3 t

def isVariant (t : List ℕ) : Bool :=
  subtagOf isAsciiAlphanumeric 5 8 t ||
    (byteLength t = 4 && (t.head?.any isAsciiDigit) && t.all fun c =>
        isAsciiDigit c || isAsciiLowercase c)

def isSingleton (t : List ℕ) : Bool :=
  byteLength t = 1 && t.head?.any fun c => isAsciiAlphanumeric c && c ≠ 0x78 && c ≠ 0x58

def isPrivate (t : List ℕ) : Bool := byteLength t = 1 && t.head?.any fun c => c = 0x78 || c = 0x58

/-- Skip extensions; a singleton with nothing after it ends the scan. -/
def skipExtensions : List (List ℕ) → Option (List (List ℕ))
  | [] => some []
  | t :: subtags =>
    if isSingleton t then
      if (subtags.takeWhile (subtagOf isAsciiAlphanumeric 2 8)).isEmpty then none
      else skipExtensions (subtags.dropWhile (subtagOf isAsciiAlphanumeric 2 8))
    else some (t :: subtags)
termination_by subtags => subtags.length
decreasing_by exact Nat.lt_succ_of_le (dropWhile_suffix _).length_le

def skipPrivate : List (List ℕ) → Option (List (List ℕ))
  | [] => some []
  | t :: subtags =>
    if isPrivate t then
      if (subtags.takeWhile (subtagOf isAsciiAlphanumeric 1 8)).isEmpty then none
      else some (subtags.dropWhile (subtagOf isAsciiAlphanumeric 1 8))
    else some (t :: subtags)

/-- What remains after the primary language. -/
def afterPrimary (first : List ℕ) (subtags : List (List ℕ)) : Option (List (List ℕ)) :=
  if !first.all isAsciiAlphabetic then none
  else if byteLength first = 2 || byteLength first = 3 then some (skipUpTo isExtlang 3 subtags)
  else if byteLength first = 4 then some subtags
  else if 5 ≤ byteLength first && byteLength first ≤ 8 then some subtags
  else none

def isValidLanguageBcp47 : Bool :=
  if s.isEmpty then false
  else if (s.splitOn 0x2D).any List.isEmpty then false
  else
    match s.splitOn 0x2D with
    | [] => false
    | first :: subtags =>
      match afterPrimary first subtags with
      | none => false
      | some subtags =>
        match skipExtensions
          ((skipUpTo isRegion 1 (skipUpTo isScript 1 subtags)).dropWhile isVariant) with
        | none => false
        | some subtags => skipPrivate subtags = some []

/-! ## URIs -/

/-- Split at the first character of a class. -/
def splitFirst (p : ℕ → Bool) : List ℕ → Option (List ℕ × List ℕ)
  | [] => none
  | c :: s => if p c then some ([], s) else (splitFirst p s).map fun r => (c :: r.1, r.2)

/-- Split at the last occurrence of a character. -/
def splitLast (c : ℕ) : List ℕ → Option (List ℕ × List ℕ)
  | [] => none
  | d :: s =>
    match splitLast c s with
    | some r => some (d :: r.1, r.2)
    | none => if d = c then some ([], s) else none

def uriIsUnreserved (c : ℕ) : Bool := isAsciiAlphanumeric c || oneOf "-_.!~*'()" c

def charIsIsoControl (c : ℕ) : Bool := c ≤ 0x1F || (0x7F ≤ c && c ≤ 0x9F)

def charIsSpaceChar (c : ℕ) : Bool :=
  c = 0x20 || c = 0xA0 || c = 0x1680 || (0x2000 ≤ c && c ≤ 0x200A) || c = 0x2028 || c = 0x2029 ||
    c = 0x202F || c = 0x205F ||
    c = 0x3000

def uriIsOther (c : ℕ) : Bool := 0x80 < c && !charIsSpaceChar c && !charIsIsoControl c

def uriIsPcharExtra : ℕ → Bool := oneOf ":@&=+$,"

def uriIsUricExtra : ℕ → Bool := oneOf ";/?:@&=+$,[]"

/-- Every character is unreserved, of the class, part of an escape or another one above ASCII. -/
def uriCharsOk (pred : ℕ → Bool) : List ℕ → Bool
  | [] => true
  | c :: s =>
    if c = 0x25 then
      match s with
      | d :: e :: s => isAsciiHexdigit d && isAsciiHexdigit e && uriCharsOk pred s
      | _ => false
    else if c < 0x80 then (uriIsUnreserved c || pred c) && uriCharsOk pred s
    else uriIsOther c && uriCharsOk pred s

def uriIsScheme : Bool :=
  match s with
  | [] => false
  | c :: s => isAsciiAlphabetic c && s.all fun c => isAsciiAlphanumeric c || oneOf "+-." c

def uriOpaqueOk (ssp : List ℕ) : Bool := !ssp.isEmpty && uriCharsOk uriIsUricExtra ssp

def anyUriPath (path : List ℕ) : Bool :=
  uriCharsOk (fun c => uriIsPcharExtra c || oneOf "/;" c) path

def anyUriHost (host : List ℕ) : Bool :=
  match host with
  | [] => true
  | c :: inner =>
    if c = 0x5B then
      match inner.getLast? with
      | some 0x5D =>
        !inner.dropLast.isEmpty && inner.dropLast.all fun c => isAsciiHexdigit c || oneOf ":.vV" c
      | _ => false
    else uriCharsOk (oneOf "$,;:&=+") host

/-- The host and the port; nothing where an IPv6 literal has no end or something other than a port
after it. -/
def splitHostPort (hostport : List ℕ) : Option (List ℕ × Option (List ℕ)) :=
  if hostport.head? = some 0x5B then
    match splitFirst (· = 0x5D) hostport with
    | none => none
    | some (host, []) => some (host ++ [0x5D], none)
    | some (host, c :: port) => if c = 0x3A then some (host ++ [0x5D], some port) else none
  else
    match splitLast 0x3A hostport with
    | some (host, port) => some (host, some port)
    | none => some (hostport, none)

def anyUriAuthority (authority : List ℕ) : Bool :=
  if authority.isEmpty then true
  else
    let (userinfo, hostport) :=
      match splitLast 0x40 authority with
      | some (userinfo, hostport) => (some userinfo, hostport)
      | none => (none, authority)
    (userinfo.all (uriCharsOk (oneOf ";:&=+$,"))) &&
      match splitHostPort hostport with
      | none => false
      | some (host, port) => (port.all fun port => port.all isAsciiDigit) && anyUriHost host

def anyUriHierPart (hier : List ℕ) : Bool :=
  let (pathAndAuthority, query) :=
    match splitFirst (· = 0x3F) hier with
    | some (path, query) => (path, some query)
    | none => (hier, none)
  (query.all (uriCharsOk uriIsUricExtra)) &&
    match pathAndAuthority with
    | 0x2F :: 0x2F :: rest =>
      let notEnd := fun c => !(c = 0x2F || c = 0x3F)
      anyUriAuthority (rest.takeWhile notEnd) && anyUriPath (rest.dropWhile notEnd)
    | path => anyUriPath path

def anyUriStructural : Bool :=
  if s.any fun c => c < 0x20 || c = 0x20 || c = 0x7F then false
  else
    let (beforeFrag, fragment) :=
      match splitFirst (· = 0x23) s with
      | some (before, fragment) => (before, some fragment)
      | none => (s, none)
    (fragment.all (uriCharsOk uriIsUricExtra)) &&
      match splitFirst (· = 0x3A) beforeFrag with
      | some (scheme, ssp) =>
        if (splitFirst (fun c => c = 0x2F || c = 0x3F) scheme).isNone && uriIsScheme scheme then
          if ssp.head? ≠ some 0x2F then uriOpaqueOk ssp else anyUriHierPart ssp
        else anyUriHierPart beforeFrag
      | none => anyUriHierPart beforeFrag

def anyUriGrammar : Bool := uriCharsOk (oneOf ";/?:@&=+$,[]#") s

def isValidAnyUri : Bool := anyUriStructural s && anyUriGrammar s

/-- The texts that are values of a datatype. -/
def lexicalValid (datatype : StringDatatype) (lexical : List ℕ) : Bool :=
  match datatype with
  | .anyUri => isValidAnyUri lexical
  | datatype => stringLexicalValid datatype lexical

end Hermit
