import Hermit.Strings.Automaton

/-! # The automata of the string datatypes

The words of a datatype are its strings, each followed by the separator and a language tag or
nothing.
-/

namespace Hermit

/-! ## Sets of ranges -/

/-- Merge what overlaps or touches; the ranges so far are in reverse order. -/
def mergeRanges : List (ℕ × ℕ) → List (ℕ × ℕ) → List (ℕ × ℕ)
  | out, [] => out.reverse
  | [], r :: rs => mergeRanges [r] rs
  | last :: out, r :: rs =>
    if r.1 ≤ last.2 + 1 then mergeRanges ((last.1, max last.2 r.2) :: out) rs
    else mergeRanges (r :: last :: out) rs

def normalizeRanges (ranges : List (ℕ × ℕ)) : List (ℕ × ℕ) :=
  mergeRanges [] ((ranges.filter fun r => r.1 ≤ r.2).insertionSort fun a b =>
      a.1 < b.1 ∨ (a.1 = b.1 ∧ a.2 ≤ b.2))

def complementFrom (next : ℕ) : List (ℕ × ℕ) → List (ℕ × ℕ)
  | [] => if next ≤ maxCp then [(next, maxCp)] else []
  | r :: rs => (if next < r.1 then [(next, r.1 - 1)] else []) ++ complementFrom (r.2 + 1) rs

/-- The code points outside of the ranges. -/
def complementRanges (ranges : List (ℕ × ℕ)) : List (ℕ × ℕ) :=
  complementFrom 0 (normalizeRanges ranges)

/-- Walk along both lists; the range that ends first is left. -/
def intersectLoop : ℕ → List (ℕ × ℕ) → List (ℕ × ℕ) → List (ℕ × ℕ)
  | 0, _, _ => []
  | fuel + 1, a :: as, b :: bs =>
    (if max a.1 b.1 ≤ min a.2 b.2 then [(max a.1 b.1, min a.2 b.2)] else []) ++
      if a.2 < b.2 then intersectLoop fuel as (b :: bs) else intersectLoop fuel (a :: as) bs
  | _ + 1, _, _ => []

def intersectRanges (a b : List (ℕ × ℕ)) : List (ℕ × ℕ) :=
  let a := normalizeRanges a
  let b := normalizeRanges b
  intersectLoop (a.length + b.length) a b

def subtractRanges (a b : List (ℕ × ℕ)) : List (ℕ × ℕ) :=
  intersectRanges (normalizeRanges a) (complementRanges b)

def xmlCharRanges : List (ℕ × ℕ) :=
  [(0x09, 0x0A), (0x0D, 0x0D), (0x20, 0xD7FF), (0xE000, 0xFFFD), (0x10000, 0x10FFFF)]

def nameStartCharRanges : List (ℕ × ℕ) :=
  [(0x3A, 0x3A), (0x41, 0x5A), (0x5F, 0x5F), (0x61, 0x7A), (0xC0, 0xD6), (0xD8, 0xF6),
      (0xF8, 0x2FF), (0x370, 0x37D),
    (0x37F, 0x1FFF), (0x200C, 0x200D), (0x2070, 0x218F), (0x2C00, 0x2FEF), (0x3001, 0xD7FF),
      (0xF900, 0xFDCF),
    (0xFDF0, 0xFFFD), (0x10000, 0xEFFFF)]

def nameCharRanges : List (ℕ × ℕ) :=
  normalizeRanges (nameStartCharRanges ++
    [(0x2D, 0x2E), (0x30, 0x39), (0xB7, 0xB7), (0x300, 0x36F), (0x203F, 0x2040)])

/-- The code points of a text. -/
def codePoints (s : String) : List ℕ := s.toList.map Char.toNat

namespace StringAutomaton

def literal (s : List ℕ) : StringAutomaton := s.foldl (fun a c => a.concatenate (char c)) epsilon

/-! ## Strings -/

def anyChar : StringAutomaton := ranges xmlCharRanges

def anyString : StringAutomaton := anyChar.repeat

def normalizedString : StringAutomaton :=
  (ranges [(0x20, 0x7F), (0xA0, 0xD7FF), (0xE000, 0xFFFD)]).repeat

def token : StringAutomaton :=
  let word := (ranges [(0x21, 0xD7FF), (0xE000, 0xFFFD)]).repeatMin 1
  let space := char 0x20
  let tail := (space.concatenate word).repeat
  (word.concatenate tail).optional

def name : StringAutomaton :=
  (ranges nameStartCharRanges).concatenate (ranges nameCharRanges).repeat

def ncname : StringAutomaton :=
  let noColon := fun rs => subtractRanges rs [(0x3A, 0x3A)]
  (ranges (noColon nameStartCharRanges)).concatenate (ranges (noColon nameCharRanges)).repeat

def nmtoken : StringAutomaton := (ranges nameCharRanges).repeatMin 1

def xsdLanguage : StringAutomaton :=
  let alpha := ranges [(0x41, 0x5A), (0x61, 0x7A)]
  let alnum := ranges [(0x30, 0x39), (0x41, 0x5A), (0x61, 0x7A)]
  let primary := alpha.repeatRange 1 8
  let dash := char 0x2D
  let subtag := (dash.concatenate (alnum.repeatRange 1 8)).repeat
  primary.concatenate subtag

def languageTag : StringAutomaton :=
  let alpha := ranges [(0x61, 0x7A)]
  let digit := ranges [(0x30, 0x39)]
  let alnum := ranges [(0x30, 0x39), (0x61, 0x7A)]
  let dash := char 0x2D
  let extlang := ((dash.concatenate (alpha.repeatRange 3 3)).repeatRange 0 3).optional
  let lang23 := (alpha.repeatRange 2 3).concatenate extlang
  let lang4 := alpha.repeatRange 4 4
  let lang58 := alpha.repeatRange 5 8
  let language := (lang23.union lang4).union lang58
  let script := (dash.concatenate (alpha.repeatRange 4 4)).optional
  let region := (dash.concatenate ((alpha.repeatRange 2 2).union (digit.repeatRange 3 3))).optional
  let varLong := alnum.repeatRange 5 8
  let varDig := digit.concatenate (alnum.repeatRange 3 3)
  let variant := (dash.concatenate (varLong.union varDig)).repeat
  let singleton := ranges [(0x30, 0x39), (0x61, 0x77), (0x79, 0x7A)]
  let extTail := (dash.concatenate (alnum.repeatRange 2 8)).repeatMin 1
  let extension := (dash.concatenate (singleton.concatenate extTail)).repeat
  let privTail := (dash.concatenate (alnum.repeatRange 1 8)).repeatMin 1
  let privateuse := ((dash.concatenate (char 0x78)).concatenate privTail).optional
  ((((language.concatenate script).concatenate region).concatenate variant).concatenate
    extension).concatenate privateuse

/-! ## URIs -/

/-- The characters of a text as ranges. -/
def charsOf (s : String) : List (ℕ × ℕ) := (codePoints s).map fun c => (c, c)

def unreservedRanges : List (ℕ × ℕ) :=
  [(0x30, 0x39), (0x41, 0x5A), (0x61, 0x7A)] ++ charsOf "-_.!~*'()"

def spaceRanges : List (ℕ × ℕ) :=
  [(0xA0, 0xA0), (0x1680, 0x1680), (0x2000, 0x200A), (0x2028, 0x2029), (0x202F, 0x202F),
      (0x205F, 0x205F), (0x3000, 0x3000),
    (0xD800, 0xDFFF)]

def otherRanges : List (ℕ × ℕ) := subtractRanges [(0xA1, maxCp)] spaceRanges

def rangeSet (rs : List (ℕ × ℕ)) : StringAutomaton := ranges (normalizeRanges rs)

def hexDigit : StringAutomaton := rangeSet [(0x30, 0x39), (0x41, 0x46), (0x61, 0x66)]

def escape : StringAutomaton := ((char 0x25).concatenate hexDigit).concatenate hexDigit

/-- The sequences of unreserved, other, escaped and extra characters. -/
def uriPart (extra : String) : StringAutomaton :=
  ((rangeSet (unreservedRanges ++ otherRanges ++ charsOf extra)).union escape).repeat

def everything : StringAutomaton := (charRange 0 maxCp).repeat

def starting (start : String) : StringAutomaton :=
  (literal (codePoints start)).concatenate everything

def anyUriValue : StringAutomaton :=
  let digits := (charRange 0x30 0x39).repeat
  let uric := uriPart ";/?:@&=+$,[]"
  let path := uriPart ":@&=+$,/;"
  let port := (char 0x3A).concatenate digits
  let hostPort := (uriPart "$,;&=+").union ((uriPart "$,;:&=+").concatenate port)
  let ipv6Chars := rangeSet [(0x30, 0x39), (0x41, 0x46), (0x61, 0x66), (0x3A, 0x3A), (0x2E, 0x2E),
    (0x56, 0x56), (0x76, 0x76)]
  let ipv6 := (((char 0x5B).concatenate (ipv6Chars.repeatMin 1)).concatenate
    (char 0x5D)).concatenate port.optional
  let authority := ((uriPart ";:&=+$,").concatenate (char 0x40)).optional.concatenate
    (hostPort.union ipv6)
  let netPath := ((literal (codePoints "//")).concatenate authority).concatenate
    ((char 0x2F).concatenate path).optional
  let pathPart := netPath.union (path.minus (starting "//"))
  let hierarchical := pathPart.concatenate ((char 0x3F).concatenate uric).optional
  let schemeChars := [(0x30, 0x39), (0x41, 0x5A), (0x61, 0x7A)] ++ charsOf "+-."
  let scheme := ((rangeSet [(0x41, 0x5A), (0x61, 0x7A)]).concatenate
    (rangeSet schemeChars).repeat).concatenate (char 0x3A)
  let opaquePart := (uric.minus (starting "/")).minus epsilon
  let absolute := scheme.concatenate (opaquePart.union (hierarchical.intersection (starting "/")))
  let relative := hierarchical.minus (scheme.concatenate everything)
  ((absolute.union relative).concatenate ((char 0x23).concatenate uric).optional).determinize

end StringAutomaton

/-- The symbol between a string and its language tag. -/
def separator : ℕ := 0x0001

inductive StringDatatype where
  | string
  | normalizedString
  | token
  | name
  | ncname
  | nmtoken
  | language
  | anyUri
deriving DecidableEq, Repr

namespace StringDatatype

open StringAutomaton

def stringPart : StringDatatype → StringAutomaton
  | string => anyString
  | normalizedString => StringAutomaton.normalizedString
  | token => StringAutomaton.token
  | name => StringAutomaton.name
  | ncname => StringAutomaton.ncname
  | nmtoken => StringAutomaton.nmtoken
  | language => xsdLanguage
  | anyUri => anyUriValue

/-- The words of a datatype have no language tag. -/
def datatypeAutomaton (d : StringDatatype) : StringAutomaton :=
  d.stringPart.concatenate (char separator)

end StringDatatype

end Hermit
