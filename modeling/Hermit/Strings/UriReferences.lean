import Hermit.Strings.Derivation
import Hermit.Strings.LexicalValidity

/-! # URI references

The scan of a URI cuts it at the first or the last occurrence of a delimiter.  The parts that the
automaton puts together do not have the delimiters they are cut at, so that there is one way to cut.
-/

namespace Hermit

open List hiding le_refl

open StringAutomaton Words

/-! ## Cutting -/

section cutting

variable {p : ℕ → Bool} {c : ℕ} {w u v : List ℕ}

theorem splitFirst_eq_none : splitFirst p w = none ↔ ∀ d ∈ w, p d = false := by
  induction w with
  | nil => exact iff_of_true rfl nofun
  | cons d w ih =>
    rw [splitFirst, forall_mem_cons]
    cases hd : p d with
    | true => simp
    | false => simp [ih]

theorem splitFirst_eq_some (h : splitFirst (· = c) w = some (u, v)) : w = u ++ c :: v ∧ c ∉ u := by
  induction w generalizing u with
  | nil => cases h
  | cons d w ih =>
    rw [splitFirst] at h
    split at h
    · rename_i heq
      cases h
      rw [decide_eq_true_eq.mp heq]
      exact ⟨rfl, not_mem_nil⟩
    · rename_i hne
      obtain ⟨⟨u', v'⟩, hspl, hpair⟩ := Option.map_eq_some_iff.mp h
      cases hpair
      obtain ⟨rfl, hnot⟩ := ih hspl
      refine ⟨rfl, fun hmem => ?_⟩
      rcases mem_cons.mp hmem with rfl | hmem
      · exact hne (decide_eq_true rfl)
      · exact hnot hmem

theorem splitLast_eq_none : splitLast c w = none ↔ c ∉ w := by
  induction w with
  | nil => exact iff_of_true rfl not_mem_nil
  | cons d w ih =>
    rw [splitLast]
    cases hspl : splitLast c w with
    | some r =>
      have hmem : c ∈ w := not_not.mp (ih.not.mp (by simp [hspl]))
      simp [hmem]
    | none =>
      have hnot := ih.mp hspl
      by_cases hd : d = c
      · simp [hd]
      · simp [hd, hnot, Ne.symm hd]

theorem splitLast_eq_some (h : splitLast c w = some (u, v)) : w = u ++ c :: v ∧ c ∉ v := by
  induction w generalizing u with
  | nil => cases h
  | cons d w ih =>
    rw [splitLast] at h
    cases hspl : splitLast c w with
    | some r =>
      rw [hspl] at h
      cases h
      obtain ⟨heq, hnot⟩ := ih hspl
      exact ⟨by rw [heq]; rfl, hnot⟩
    | none =>
      rw [hspl] at h
      by_cases hd : d = c
      · rw [if_pos hd] at h
        cases h
        exact ⟨by rw [hd]; rfl, splitLast_eq_none.mp hspl⟩
      · rw [if_neg hd] at h
        cases h

end cutting

/-! ## Parts of URIs -/

/-- The characters of a part, other than those of escapes. -/
def UriChar (extra : String) (c : ℕ) : Prop :=
  InRanges (unreservedRanges ++ otherRanges ++ charsOf extra) c

instance (extra : String) (c : ℕ) : Decidable (UriChar extra c) :=
  inferInstanceAs (Decidable (InRanges _ c))

def hexRanges : List (ℕ × ℕ) := [(0x30, 0x39), (0x41, 0x46), (0x61, 0x66)]

def escapes : Language ℕ := {[0x25]} * letters (InRanges hexRanges) * letters (InRanges hexRanges)

/-- The sequences of characters and escapes. -/
def uriWords (extra : String) : Language ℕ := KStar.kstar (letters (UriChar extra) + escapes)

section parts

variable {extra : String} {c : ℕ} {w : List ℕ}

theorem otherRanges_eq : otherRanges = [(0xA1, 0x167F), (0x1681, 0x1FFF), (0x200B, 0x2027),
      (0x202A, 0x202E), (0x2030, 0x205E),
    (0x2060, 0x2FFF), (0x3001, 0xD7FF), (0xE000, 0x10FFFF)] := by
  decide +kernel

theorem otherRanges_le : ∀ r ∈ otherRanges, 0x80 < r.1 ∧ r.2 ≤ maxCp := by
  rw [otherRanges_eq]
  decide

theorem recognizes_rangeSet {rs : List (ℕ × ℕ)} (hmax : ∀ r ∈ rs, r.2 ≤ maxCp) :
    Recognizes (rangeSet rs) (letters (InRanges rs)) := by
  refine (recognizes_ranges (normalizeRanges_le hmax)).congr fun w => ?_
  simp only [mem_letters, inRanges_normalizeRanges]

theorem inRanges_charsOf {s : String} : InRanges (charsOf s) c ↔ oneOf s c = true := by
  rw [oneOf, contains_iff_mem]
  constructor
  · rintro ⟨r, hr, hmin, hmax⟩
    obtain ⟨d, hd, rfl⟩ := mem_map.mp hr
    rwa [Nat.le_antisymm hmax hmin]
  · exact fun hc => ⟨(c, c), mem_map_of_mem hc, le_refl c, le_refl c⟩

theorem recognizes_uriPart (hextra : ∀ c ∈ codePoints extra, c ≤ maxCp) :
    Recognizes (uriPart extra) (uriWords extra) := by
  have hmax : ∀ r ∈ unreservedRanges ++ otherRanges ++ charsOf extra, r.2 ≤ maxCp := by
    rw [forall_mem_append, forall_mem_append]
    refine ⟨⟨by decide, fun r hr => (otherRanges_le r hr).2⟩, fun r hr => ?_⟩
    obtain ⟨d, hd, rfl⟩ := mem_map.mp hr
    exact hextra d hd
  have hhex : Recognizes hexDigit (letters (InRanges hexRanges)) := recognizes_rangeSet (by decide)
  have hescape := ((recognizes_char (by decide : 0x25 ≤ maxCp)).concatenate hhex).concatenate hhex
  exact ((recognizes_rangeSet hmax).union hescape).repeat

theorem cons_mem_uriWords : c :: w ∈ uriWords extra ↔ (UriChar extra c ∧ w ∈ uriWords extra) ∨
    (c = 0x25 ∧ ∃ d e v, w = d :: e :: v ∧ InRanges hexRanges d ∧ InRanges hexRanges e ∧
      v ∈ uriWords extra) := by
  have hunfold : uriWords extra = 1 +
      (letters (UriChar extra) * uriWords extra + escapes * uriWords extra) := by
    conv_lhs => rw [uriWords, ← Language.one_add_self_mul_kstar_eq_kstar, add_mul]
    rfl
  have hone : c :: w ∉ (1 : Language ℕ) := fun h => nomatch h
  have hescape : ({[0x25]} : Language ℕ) = letters (· = 0x25) := by
    ext x
    exact ⟨fun hx => ⟨0x25, rfl, hx⟩, fun ⟨_, hd, hx⟩ => hd ▸ hx⟩
  conv_lhs => rw [hunfold, Language.mem_add, Language.mem_add, cons_mem_letters_mul,
      or_iff_right hone, escapes, hescape, mul_assoc,
    mul_assoc, cons_mem_letters_mul]
  refine or_congr Iff.rfl (and_congr_right fun _ => ?_)
  constructor
  · intro h
    cases w with
    | nil => exact absurd h nil_notMem_letters_mul
    | cons d w =>
      obtain ⟨hd, h⟩ := cons_mem_letters_mul.mp h
      cases w with
      | nil => exact absurd h nil_notMem_letters_mul
      | cons e v =>
        obtain ⟨he, hv⟩ := cons_mem_letters_mul.mp h
        exact ⟨d, e, v, rfl, hd, he, hv⟩
  · rintro ⟨d, e, v, rfl, hd, he, hv⟩
    exact cons_mem_letters_mul.mpr ⟨hd, cons_mem_letters_mul.mpr ⟨he, hv⟩⟩

theorem nil_mem_uriWords : [] ∈ uriWords extra := Language.nil_mem_kstar _

theorem uriChar_iff : UriChar extra c ↔ (InRanges unreservedRanges c ∨ InRanges otherRanges c) ∨
    oneOf extra c = true := by
  rw [UriChar, inRanges_append, inRanges_append, inRanges_charsOf]

/-- The digits of escapes are in every part. -/
theorem uriChar_of_hex (h : InRanges hexRanges c) : UriChar extra c :=
  uriChar_iff.mpr (.inl (.inl (inRanges_mono (by decide) h)))

theorem mem_uriWords_of_chars {extra' : String} (h : ∀ c ∈ w, UriChar extra c → UriChar extra' c)
    (hw : w ∈ uriWords extra) :
    w ∈ uriWords extra' := by
  induction hn : w.length using Nat.strong_induction_on generalizing w with
  | _ n ih =>
    cases w with
    | nil => exact nil_mem_uriWords
    | cons c w =>
      obtain ⟨hc, hrest⟩ := forall_mem_cons.mp h
      rw [cons_mem_uriWords] at hw ⊢
      rcases hw with ⟨hchar, hw⟩ | ⟨hescape, d, e, v, rfl, hd, he, hv⟩
      · exact .inl ⟨hc hchar, ih w.length (hn ▸ Nat.lt_succ_self _) hrest hw rfl⟩
      · have hv' := ih v.length (by rw [← hn]; simp; omega)
          (fun x hx => hrest x (by simp [hx])) hv rfl
        exact .inr ⟨hescape, d, e, v, rfl, hd, he, hv'⟩

theorem over_uriWords : Over (fun c => UriChar extra c ∨ c = 0x25) (uriWords extra) := by
  have hhex : Over (fun c => UriChar extra c ∨ c = 0x25) (letters (InRanges hexRanges)) :=
    over_letters fun c hc => .inl (uriChar_of_hex hc)
  have hpercent : Over (fun c => UriChar extra c ∨ c = 0x25) {[0x25]} := by
    rintro _ rfl
    exact forall_mem_singleton.mpr (.inr rfl)
  exact ((over_letters fun c => .inl).add ((hpercent.mul hhex).mul hhex)).kstar

theorem notMem_uriWords (hc : ¬ (UriChar extra c ∨ c = 0x25)) : ∀ u ∈ uriWords extra, c ∉ u :=
  fun u hu hmem => hc (over_uriWords u hu c hmem)

/-- The characters between the parts of a reference. -/
def uriDelimiters : List ℕ := [0x23, 0x2F, 0x3A, 0x3F, 0x40, 0x5B, 0x5D]

theorem not_inRanges_delimiter : ∀ c ∈ uriDelimiters,
    ¬ InRanges (unreservedRanges ++ otherRanges) c := by decide +kernel

/-- A part has the delimiters that are among its extra characters. -/
theorem uriChar_delimiter (hc : c ∈ uriDelimiters) : UriChar extra c ↔ c ∈ codePoints extra := by
  rw [UriChar, inRanges_append, or_iff_right (not_inRanges_delimiter c hc), inRanges_charsOf, oneOf,
    contains_iff_mem]

theorem not_uriChar_delimiter (hc : c ∈ uriDelimiters) (hextra : c ∉ codePoints extra) :
    ¬ (UriChar extra c ∨ c = 0x25) := by
  have hpercent : c ≠ 0x25 := by
    rintro rfl
    exact absurd hc (by decide)
  rw [uriChar_delimiter hc]
  exact fun h => h.elim hextra hpercent

theorem isAsciiHexdigit_iff : isAsciiHexdigit c = true ↔ InRanges hexRanges c := by
  simp [isAsciiHexdigit, isAsciiDigit, InRanges, hexRanges, or_assoc]

theorem uriIsUnreserved_iff : uriIsUnreserved c = true ↔ InRanges unreservedRanges c := by
  rw [uriIsUnreserved, Bool.or_eq_true, isAsciiAlphanumeric_iff, unreservedRanges, inRanges_append,
    inRanges_charsOf]
  rfl

theorem uriIsOther_iff (hc : Scalar c) : uriIsOther c = true ↔ InRanges otherRanges c := by
  have hmax : maxCp = 0x10FFFF := rfl
  rw [otherRanges_eq]
  simp [Scalar] at hc
  simp [uriIsOther, charIsSpaceChar, charIsIsoControl, InRanges]
  omega

theorem uriChar_cases (hextra : ∀ c ∈ codePoints extra, c < 0x80) (hc : Scalar c) :
    UriChar extra c ↔ if c < 0x80 then (uriIsUnreserved c || oneOf extra c) =
    true else uriIsOther c = true := by
  have hoth : InRanges otherRanges c → 0x80 ≤ c := by
    rintro ⟨r, hr, hmin, -⟩
    exact (otherRanges_le r hr).1.le.trans hmin
  have hunreserved : InRanges unreservedRanges c → c < 0x80 := by
    rintro ⟨r, hr, -, hmax⟩
    exact Nat.lt_of_le_of_lt hmax ((by decide : ∀ r ∈ unreservedRanges, r.2 < 0x80) r hr)
  have honeOf : oneOf extra c = true → c < 0x80 := fun h => hextra c (contains_iff_mem.mp h)
  rw [uriChar_iff, Bool.or_eq_true, uriIsUnreserved_iff, uriIsOther_iff hc]
  split
  · rename_i hlt
    have hno : ¬ InRanges otherRanges c := fun h => absurd (hoth h) (by omega)
    simp [hno]
  · rename_i hge
    have hno : ¬ InRanges unreservedRanges c := fun h => hge (hunreserved h)
    have hno' : ¬ oneOf extra c = true := fun h => hge (honeOf h)
    simp [hno, hno']

theorem uriCharsOk_iff (hextra : ∀ c ∈ codePoints extra, c < 0x80 ∧ c ≠ 0x25)
    (hw : ∀ c ∈ w, Scalar c) :
    uriCharsOk (oneOf extra) w = true ↔ w ∈ uriWords extra := by
  have hascii : ∀ c ∈ codePoints extra, c < 0x80 := fun c hc => (hextra c hc).1
  have hpercent : ¬ UriChar extra 0x25 := by
    rw [uriChar_cases hascii (.inl (by decide)), if_pos (by decide), Bool.or_eq_true, not_or]
    refine ⟨by decide, fun h => ?_⟩
    exact (hextra 0x25 (contains_iff_mem.mp h)).2 rfl
  fun_induction uriCharsOk (oneOf extra) w with
  | case1 => exact iff_of_true rfl nil_mem_uriWords
  | case2 d e w ih =>
    have hrest : uriCharsOk (oneOf extra) w = true ↔ w ∈ uriWords extra :=
      ih fun c hc => hw c (by simp [hc])
    rw [cons_mem_uriWords, Bool.and_eq_true, Bool.and_eq_true, isAsciiHexdigit_iff,
      isAsciiHexdigit_iff, hrest]
    constructor
    · rintro ⟨⟨hd, he⟩, hw⟩
      exact .inr ⟨rfl, d, e, w, rfl, hd, he, hw⟩
    · rintro (⟨h, -⟩ | ⟨-, d', e', v, heq, hd, he, hv⟩)
      · exact absurd h hpercent
      · obtain ⟨rfl, rfl, rfl⟩ := by simpa using heq
        exact ⟨⟨hd, he⟩, hv⟩
  | case3 w hshort =>
    refine iff_of_false Bool.false_ne_true ?_
    rw [cons_mem_uriWords]
    rintro (⟨h, -⟩ | ⟨-, d, e, v, rfl, -⟩)
    · exact hpercent h
    · exact hshort d e v rfl
  | case4 c w hc hlt ih =>
    obtain ⟨hscalar, hw⟩ := forall_mem_cons.mp hw
    have hrest : uriCharsOk (oneOf extra) w = true ↔ w ∈ uriWords extra := ih hw
    rw [cons_mem_uriWords, uriChar_cases hascii hscalar, if_pos hlt, Bool.and_eq_true, hrest]
    exact (or_iff_left fun h => hc h.1).symm
  | case5 c w hc hge ih =>
    obtain ⟨hscalar, hw⟩ := forall_mem_cons.mp hw
    have hrest : uriCharsOk (oneOf extra) w = true ↔ w ∈ uriWords extra := ih hw
    rw [cons_mem_uriWords, uriChar_cases hascii hscalar, if_neg hge, Bool.and_eq_true, hrest]
    exact (or_iff_left fun h => hc h.1).symm

end parts

/-! ## The grammar -/

def uricWords : Language ℕ := uriWords ";/?:@&=+$,[]"

def pathWords : Language ℕ := uriWords ":@&=+$,/;"

def digitWords : Language ℕ := wordsWith fun w => ∀ c ∈ w, InRanges [(0x30, 0x39)] c

def portWords : Language ℕ := {[0x3A]} * digitWords

def hostPortWords : Language ℕ := uriWords "$,;&=+" + uriWords "$,;:&=+" * portWords

def ipv6Ranges : List (ℕ × ℕ) :=
  [(0x30, 0x39), (0x41, 0x46), (0x61, 0x66), (0x3A, 0x3A), (0x2E, 0x2E), (0x56, 0x56), (0x76, 0x76)]

def ipv6Chars : Language ℕ := wordsWith fun w => 1 ≤ w.length ∧ ∀ c ∈ w, InRanges ipv6Ranges c

def ipv6Words : Language ℕ := {[0x5B]} * ipv6Chars * {[0x5D]} * (portWords + 1)

def authorityWords : Language ℕ := (uriWords ";:&=+$," * {[0x40]} + 1) * (hostPortWords + ipv6Words)

def netPathWords : Language ℕ := {[0x2F, 0x2F]} * authorityWords * ({[0x2F]} * pathWords + 1)

/-- The words that start with some word. -/
def startingWords (s : List ℕ) : Language ℕ := wordsWith fun w => s <+: w ∧ ∀ c ∈ w, c ≤ maxCp

def pathPartWords : Language ℕ := netPathWords + wordsWith fun w =>
    w ∈ pathWords ∧ w ∉ startingWords [0x2F, 0x2F]

def hierWords : Language ℕ := pathPartWords * ({[0x3F]} * uricWords + 1)

def schemeRanges : List (ℕ × ℕ) := [(0x30, 0x39), (0x41, 0x5A), (0x61, 0x7A)] ++ charsOf "+-."

def schemeWords : Language ℕ := wordsWith fun w => StartsAndGoesOn alphaRanges schemeRanges w

def everyWord : Language ℕ := wordsWith fun w => ∀ c ∈ w, c ≤ maxCp

def opaqueWords : Language ℕ := wordsWith fun w =>
    (w ∈ uricWords ∧ w ∉ startingWords [0x2F]) ∧ w ≠ []

def absoluteWords : Language ℕ :=
  schemeWords * {[0x3A]} * (opaqueWords + wordsWith fun w =>
      w ∈ hierWords ∧ w ∈ startingWords [0x2F])

def relativeWords : Language ℕ := wordsWith fun w =>
    w ∈ hierWords ∧ w ∉ schemeWords * {[0x3A]} * everyWord

def referenceWords : Language ℕ := (absoluteWords + relativeWords) * ({[0x23]} * uricWords + 1)

theorem recognizes_everything : Recognizes everything everyWord := by
  have hrng : Recognizes (charRange 0 maxCp).repeat
    (wordsWith fun w => ∀ c ∈ w, InRanges [(0, maxCp)] c) :=
    recognizes_repeat_ranges (by decide)
  refine hrng.congr fun w => forall₂_congr fun c _ => ?_
  simp [InRanges]

theorem recognizes_starting (s : String) : Recognizes (starting s)
    (startingWords (codePoints s)) := by
  have hs : ∀ c ∈ codePoints s, c ≤ maxCp := fun c hc => (scalar_codePoints s c hc).le_maxCp
  refine ((recognizes_literal hs).concatenate recognizes_everything).congr fun w => ?_
  rw [Language.mem_mul]
  constructor
  · rintro ⟨_, rfl, v, hv, rfl⟩
    exact ⟨prefix_append _ _, forall_mem_append.mpr ⟨hs, hv⟩⟩
  · rintro ⟨⟨v, rfl⟩, hall⟩
    exact ⟨codePoints s, rfl, v, (forall_mem_append.mp hall).2, rfl⟩

theorem recognizes_anyUriValue : Recognizes anyUriValue referenceWords := by
  have hpart : ∀ extra, Recognizes (uriPart extra) (uriWords extra) :=
    fun extra => recognizes_uriPart fun c hc => (scalar_codePoints extra c hc).le_maxCp
  have hchar : ∀ c, c ≤ 0x7F → Recognizes (char c) {[c]} :=
    fun c hc => recognizes_char (hc.trans (by decide))
  have hslash : codePoints "/" = [0x2F] := by decide
  have hsl : codePoints "//" = [0x2F, 0x2F] := by decide
  have hst : Recognizes (starting "/") (startingWords [0x2F]) := hslash ▸ recognizes_starting "/"
  have hstarts : Recognizes (starting "//") (startingWords [0x2F, 0x2F]) :=
    hsl ▸ recognizes_starting "//"
  have hlit : Recognizes (literal (codePoints "//")) {[0x2F, 0x2F]} :=
    hsl ▸ recognizes_literal (by decide)
  have hdig : Recognizes (charRange 0x30 0x39).repeat digitWords :=
    recognizes_repeat_ranges (by decide)
  have hport := (hchar 0x3A (by decide)).concatenate hdig
  have hhostPort : Recognizes _ hostPortWords :=
    (hpart "$,;&=+").union ((hpart "$,;:&=+").concatenate hport)
  have hipv6Chars : Recognizes ((rangeSet ipv6Ranges).repeatMin 1) ipv6Chars :=
    ((recognizes_rangeSet (by decide)).repeatMin 1).congr fun _ => mem_letters_mul_kstar
  have hipv6 := (((hchar 0x5B (by decide)).concatenate hipv6Chars).concatenate
    (hchar 0x5D (by decide))).concatenate hport.optional
  have hauth := ((hpart ";:&=+$,").concatenate (hchar 0x40 (by decide))).optional.concatenate
    (hhostPort.union hipv6)
  have hpath := hpart ":@&=+$,/;"
  have huric := hpart ";/?:@&=+$,[]"
  have hnetPath := (hlit.concatenate hauth).concatenate
    ((hchar 0x2F (by decide)).concatenate hpath).optional
  have hhier := (hnetPath.union (hpath.minus hstarts)).concatenate
    ((hchar 0x3F (by decide)).concatenate huric).optional
  have hsch : Recognizes ((rangeSet alphaRanges).concatenate (rangeSet schemeRanges).repeat)
      schemeWords := by
    refine ((recognizes_rangeSet (by decide)).concatenate
      (recognizes_rangeSet (by decide)).repeat).congr fun w => ?_
    rw [Language.mem_mul]
    constructor
    · rintro ⟨_, ⟨c, hc, rfl⟩, v, hv, rfl⟩
      exact ⟨c, v, rfl, hc, mem_kstar_letters.mp hv⟩
    · rintro ⟨c, v, rfl, hc, hv⟩
      exact ⟨[c], ⟨c, hc, rfl⟩, v, mem_kstar_letters.mpr hv, rfl⟩
  have hsch := hsch.concatenate (hchar 0x3A (by decide))
  have hrootless := (huric.minus hst).minus recognizes_epsilon
  have habsolute := hsch.concatenate (hrootless.union (hhier.intersection hst))
  have hrelative := hhier.minus (hsch.concatenate recognizes_everything)
  exact ((habsolute.union hrelative).concatenate
    ((hchar 0x23 (by decide)).concatenate huric).optional).determinize

/-! ## Authorities -/

section authority

variable {w : List ℕ}

theorem anyUriPath_iff (hw : ∀ c ∈ w, Scalar c) : anyUriPath w = true ↔ w ∈ pathWords := by
  have hpred : (fun c => uriIsPcharExtra c || oneOf "/;" c) = oneOf ":@&=+$,/;" := by
    funext c
    have hextra : codePoints ":@&=+$,/;" = codePoints ":@&=+$," ++ codePoints "/;" := by decide
    rw [uriIsPcharExtra, oneOf, oneOf, oneOf, hextra, contains_eq_mem, contains_eq_mem,
        contains_eq_mem,
      ← Bool.decide_or]
    exact decide_eq_decide.mpr mem_append.symm
  rw [anyUriPath, hpred]
  exact uriCharsOk_iff (by decide) hw

theorem uricOk_iff (hw : ∀ c ∈ w, Scalar c) : uriCharsOk uriIsUricExtra w = true ↔ w ∈ uricWords :=
  uriCharsOk_iff (by decide) hw

theorem digits_iff : w.all isAsciiDigit = true ↔ w ∈ digitWords := by
  refine all_iff fun c _ => ?_
  simp [isAsciiDigit, InRanges]

theorem notMem_digitWords {c : ℕ} (hc : ¬ InRanges [(0x30, 0x39)] c) : ∀ u ∈ digitWords, c ∉ u :=
  fun _ hu => notMem_of_inRanges hc hu

/-- A host that is no IPv6 literal. -/
theorem anyUriHost_iff (hw : ∀ c ∈ w, Scalar c) (hhead : w.head? ≠ some 0x5B) :
    anyUriHost w = true ↔ w ∈ uriWords "$,;:&=+" := by
  cases w with
  | nil => exact iff_of_true rfl nil_mem_uriWords
  | cons c w =>
    have hc : c ≠ 0x5B := fun heq => hhead (by rw [heq]; rfl)
    rw [anyUriHost, if_neg hc]
    exact uriCharsOk_iff (by decide) hw

theorem anyUriHost_literal (inner : List ℕ) : anyUriHost (0x5B :: inner ++ [0x5D]) = true ↔
    inner ∈ ipv6Chars := by
  have hchars : (inner.all fun c => isAsciiHexdigit c || oneOf ":.vV" c) = true ↔ ∀ c ∈ inner,
      InRanges ipv6Ranges c := by
    refine all_iff fun c _ => ?_
    have hextra : codePoints ":.vV" = [0x3A, 0x2E, 0x76, 0x56] := by decide
    simp [isAsciiHexdigit, isAsciiDigit, oneOf, hextra, InRanges, ipv6Ranges]
    omega
  rw [cons_append, anyUriHost, if_pos rfl, getLast?_concat, dropLast_concat]
  change (!inner.isEmpty && _) = true ↔ _
  rw [Bool.and_eq_true, hchars]
  refine and_congr_left' ?_
  rw [Bool.not_eq_true', isEmpty_eq_false_iff]
  exact length_pos_iff.symm

/-- The check of what follows the user information. -/
def hostPortOk (w : List ℕ) : Prop :=
  ∃ host port, splitHostPort w = some (host, port) ∧
    (port.all fun port => port.all isAsciiDigit) = true ∧ anyUriHost host = true

theorem notMem_hostPortWords {c : ℕ} (hchar : ¬ (UriChar "$,;:&=+" c ∨ c = 0x25))
    (hchar' : ¬ (UriChar "$,;&=+" c ∨ c = 0x25))
    (hport : ∀ u ∈ portWords, c ∉ u) : ∀ u ∈ hostPortWords, c ∉ u := by
  rintro u (hu | hu) hc
  · exact notMem_uriWords hchar' u hu hc
  · obtain ⟨x, hx, y, hy, rfl⟩ := Language.mem_mul.mp hu
    rcases mem_append.mp hc with hc | hc
    · exact notMem_uriWords hchar x hx hc
    · exact hport y hy hc

theorem mem_portWords : w ∈ portWords ↔ ∃ v, w = 0x3A :: v ∧ v ∈ digitWords := by
  rw [portWords, Language.mem_mul]
  constructor
  · rintro ⟨_, rfl, v, hv, rfl⟩
    exact ⟨v, rfl, hv⟩
  · rintro ⟨v, rfl, hv⟩
    exact ⟨[0x3A], rfl, v, hv, rfl⟩

theorem notMem_portWords {c : ℕ} (hc : c ≠ 0x3A) (hdigit : ¬ InRanges [(0x30, 0x39)] c) :
    ∀ u ∈ portWords, c ∉ u := by
  intro u hu hmem
  obtain ⟨v, rfl, hv⟩ := mem_portWords.mp hu
  rcases mem_cons.mp hmem with rfl | hmem
  · exact hc rfl
  · exact notMem_digitWords hdigit v hv hmem

/-- An IPv6 literal goes up to the first closing bracket. -/
theorem hostPortOk_literal (hhead : w.head? = some 0x5B) : hostPortOk w ↔ w ∈ ipv6Words := by
  have hbracket : ∀ u ∈ ({[0x5B]} * ipv6Chars : Language ℕ), 0x5D ∉ u := by
    intro u hu
    obtain ⟨_, rfl, v, hv, rfl⟩ := Language.mem_mul.mp hu
    rw [singleton_append, mem_cons, not_or]
    exact ⟨by decide, notMem_of_inRanges (by decide) hv.2⟩
  simp only [hostPortOk, splitHostPort, if_pos hhead]
  cases hspl : splitFirst (· = 0x5D) w with
  | none =>
    have hnot : 0x5D ∉ w := fun hmem => by simpa using splitFirst_eq_none.mp hspl 0x5D hmem
    refine iff_of_false (by simp) fun hmem => hnot ?_
    obtain ⟨u, hu, v, -, rfl⟩ := Language.mem_mul.mp hmem
    obtain ⟨x, -, _, rfl, rfl⟩ := Language.mem_mul.mp hu
    simp
  | some r =>
    obtain ⟨host, after⟩ := r
    obtain ⟨rfl, hnot⟩ := splitFirst_eq_some hspl
    rw [ipv6Words, append_cons_mem_mul hbracket hnot]
    obtain ⟨inner, rfl⟩ : ∃ inner, host = 0x5B :: inner := by
      cases host with
      | nil => cases hhead
      | cons c inner =>
        cases hhead
        exact ⟨inner, rfl⟩
    have hinn : 0x5B :: inner ∈ ({[0x5B]} * ipv6Chars : Language ℕ) ↔
        anyUriHost (0x5B :: inner ++ [0x5D]) = true := by
      rw [anyUriHost_literal, Language.mem_mul]
      constructor
      · rintro ⟨_, rfl, v, hv, heq⟩
        cases heq
        exact hv
      · exact fun h => ⟨[0x5B], rfl, inner, h, rfl⟩
    rw [hinn, Language.mem_add, mem_portWords, Language.mem_one]
    cases after with
    | nil => simp
    | cons c port =>
      by_cases hc : c = 0x3A
      · simp [hc, ← digits_iff, and_comm]
      · simp [hc]

/-- Otherwise the port is after the last colon. -/
theorem hostPortOk_name (hw : ∀ c ∈ w, Scalar c) (hhead : w.head? ≠ some 0x5B) : hostPortOk w ↔
    w ∈ hostPortWords := by
  simp only [hostPortOk, splitHostPort, if_neg hhead]
  cases hspl : splitLast 0x3A w with
  | none =>
    have hnot := splitLast_eq_none.mp hspl
    have hchars : w ∈ uriWords "$,;:&=+" ↔ w ∈ uriWords "$,;&=+" := by
      have hextra : codePoints "$,;:&=+" = [0x24, 0x2C, 0x3B, 0x3A, 0x26, 0x3D, 0x2B] := by decide
      have hextra' : codePoints "$,;&=+" = [0x24, 0x2C, 0x3B, 0x26, 0x3D, 0x2B] := by decide
      have hchar : ∀ c ∈ w, UriChar "$,;:&=+" c ↔ UriChar "$,;&=+" c := by
        intro c hc
        have hne : c ≠ 0x3A := fun heq => hnot (heq ▸ hc)
        rw [uriChar_iff, uriChar_iff]
        refine or_congr Iff.rfl ?_
        simp [oneOf, hextra, hextra', hne]
      exact ⟨mem_uriWords_of_chars fun c hc => (hchar c hc).mp, mem_uriWords_of_chars fun c hc =>
          (hchar c hc).mpr⟩
    have hport : w ∉ uriWords "$,;:&=+" * portWords := by
      intro hmem
      obtain ⟨u, -, v, hv, rfl⟩ := Language.mem_mul.mp hmem
      obtain ⟨x, rfl, -⟩ := mem_portWords.mp hv
      exact hnot (mem_append_right _ mem_cons_self)
    rw [hostPortWords, Language.mem_add, or_iff_left hport, ← hchars, ← anyUriHost_iff hw hhead]
    simp
  | some r =>
    obtain ⟨host, port⟩ := r
    obtain ⟨rfl, hnot⟩ := splitLast_eq_some hspl
    have hno : host ++ 0x3A :: port ∉ uriWords "$,;&=+" := fun hmem =>
      notMem_uriWords (not_uriChar_delimiter (by decide) (by decide)) _ hmem
        (mem_append_right host mem_cons_self)
    have hhost : host.head? ≠ some 0x5B := by
      cases host with
      | nil => exact fun h => nomatch h
      | cons c host => exact hhead
    rw [hostPortWords, Language.mem_add, or_iff_right hno, portWords,
      append_cons_mem_mul_last (notMem_digitWords (by decide)) hnot, ← digits_iff,
      ← anyUriHost_iff (fun c hc => hw c (mem_append_left _ hc)) hhost]
    simp [and_comm]

theorem hostPortOk_iff (hw : ∀ c ∈ w, Scalar c) : hostPortOk w ↔ w ∈ hostPortWords + ipv6Words := by
  rw [Language.mem_add]
  by_cases hhead : w.head? = some 0x5B
  · have hno : w ∉ hostPortWords := fun hmem =>
      notMem_hostPortWords (not_uriChar_delimiter (by decide) (by decide))
        (not_uriChar_delimiter (by decide) (by decide))
        (notMem_portWords (by decide) (by decide)) w hmem
        (mem_of_head? hhead)
    rw [hostPortOk_literal hhead, or_iff_right hno]
  · have hno : w ∉ ipv6Words := by
      intro hmem
      rw [ipv6Words, mul_assoc, mul_assoc] at hmem
      obtain ⟨_, rfl, v, -, rfl⟩ := Language.mem_mul.mp hmem
      exact hhead rfl
    rw [hostPortOk_name hw hhead, or_iff_left hno]

theorem notMem_ipv6Words {c : ℕ} (hc : c ≠ 0x5B ∧ c ≠ 0x5D) (hchar : ¬ InRanges ipv6Ranges c)
    (hport : ∀ u ∈ portWords, c ∉ u) :
    ∀ u ∈ ipv6Words, c ∉ u := by
  intro u hu hmem
  obtain ⟨x, hx, p, hp, rfl⟩ := Language.mem_mul.mp hu
  obtain ⟨y, hy, _, rfl, rfl⟩ := Language.mem_mul.mp hx
  obtain ⟨_, rfl, v, hv, rfl⟩ := Language.mem_mul.mp hy
  have hv : c ∉ v := notMem_of_inRanges hchar hv.2
  have hp : c ∉ p := by
    rcases hp with hp | rfl
    · exact hport p hp
    · exact not_mem_nil
  simp [hc, hv, hp] at hmem

theorem notMem_hostPort {c : ℕ} (hc : c ∈ [0x23, 0x2F, 0x3F, 0x40]) :
    ∀ u ∈ hostPortWords + ipv6Words, c ∉ u := by
  have hfacts : ∀ c ∈ [0x23, 0x2F, 0x3F, 0x40], c ∈ uriDelimiters ∧ c ∉ codePoints "$,;:&=+" ∧
    c ∉ codePoints "$,;&=+" ∧
      (c ≠ 0x3A ∧ ¬ InRanges [(0x30, 0x39)] c) ∧ (c ≠ 0x5B ∧ c ≠ 0x5D) ∧
        ¬ InRanges ipv6Ranges c := by decide
  obtain ⟨hdelim, hextra, hextra', ⟨hcolon, hdigit⟩, hbrackets, hipv6⟩ := hfacts c hc
  have hchar := not_uriChar_delimiter hdelim hextra
  have hchar' := not_uriChar_delimiter hdelim hextra'
  have hport := notMem_portWords hcolon hdigit
  rintro u (hu | hu)
  · exact notMem_hostPortWords hchar hchar' hport u hu
  · exact notMem_ipv6Words hbrackets hipv6 hport u hu

/-- The user information goes up to the last at sign. -/
theorem anyUriAuthority_iff (hw : ∀ c ∈ w, Scalar c) : anyUriAuthority w = true ↔
    w ∈ authorityWords := by
  have hdistrib : authorityWords = uriWords ";:&=+$," * ({[0x40]} * (hostPortWords + ipv6Words)) +
      (hostPortWords + ipv6Words) := by
    rw [authorityWords, add_mul, one_mul, mul_assoc]
  have hat := notMem_hostPort (c := 0x40) (by decide)
  rw [anyUriAuthority, hdistrib, Language.mem_add]
  cases hemp : w.isEmpty with
  | true =>
    rw [List.isEmpty_iff.mp hemp]
    exact iff_of_true rfl (.inr (.inl (.inl nil_mem_uriWords)))
  | false =>
    rw [if_neg Bool.false_ne_true]
    cases hspl : splitLast 0x40 w with
    | none =>
      have hnot := splitLast_eq_none.mp hspl
      have hno : w ∉ uriWords ";:&=+$," * ({[0x40]} * (hostPortWords + ipv6Words)) := by
        intro hmem
        obtain ⟨u, -, v, hv, rfl⟩ := Language.mem_mul.mp hmem
        obtain ⟨_, rfl, x, -, rfl⟩ := Language.mem_mul.mp hv
        exact hnot (mem_append_right _ mem_cons_self)
      rw [or_iff_right hno, ← hostPortOk_iff hw, hostPortOk]
      rcases hparts : splitHostPort w with _ | ⟨host, port⟩
      · simp [hparts]
      · simp [hparts]
    | some r =>
      obtain ⟨userinfo, hostport⟩ := r
      obtain ⟨rfl, hnot⟩ := splitLast_eq_some hspl
      have hno : userinfo ++ 0x40 :: hostport ∉ hostPortWords + ipv6Words :=
        fun hmem => hat _ hmem (mem_append_right _ mem_cons_self)
      obtain ⟨huserinfo, hhostport⟩ := forall_mem_append.mp hw
      obtain ⟨-, hhostport⟩ := forall_mem_cons.mp hhostport
      rw [or_iff_left hno, append_cons_mem_mul_last hat hnot,
          ← hostPortOk_iff hhostport, hostPortOk,
        ← uriCharsOk_iff (by decide) huserinfo]
      rcases hparts : splitHostPort hostport with _ | ⟨host, port⟩
      · simp [hparts]
      · simp [hparts]

theorem notMem_authorityWords {c : ℕ} (hc : c ∈ [0x23, 0x2F, 0x3F]) :
    ∀ u ∈ authorityWords, c ∉ u := by
  have hfacts : ∀ c ∈ [0x23, 0x2F, 0x3F], c ∈ uriDelimiters ∧ c ∉ codePoints ";:&=+$," ∧ c ≠ 0x40 ∧
      c ∈ [0x23, 0x2F, 0x3F, 0x40] := by
    decide
  obtain ⟨hdelim, hextra, hat, hmem⟩ := hfacts c hc
  have hchar := not_uriChar_delimiter hdelim hextra
  intro u hu hcu
  obtain ⟨x, hx, y, hy, rfl⟩ := Language.mem_mul.mp hu
  rcases mem_append.mp hcu with hcu | hcu
  · rcases hx with hx | rfl
    · obtain ⟨z, hz, _, rfl, rfl⟩ := Language.mem_mul.mp hx
      rcases mem_append.mp hcu with hcu | hcu
      · exact notMem_uriWords hchar z hz hcu
      · exact hat (mem_singleton.mp hcu)
    · cases hcu
  · exact notMem_hostPort hmem y hy hcu

end authority

/-! ## Paths -/

section paths

variable {w : List ℕ}

theorem notMem_pathWords {c : ℕ} (hc : c ∈ [0x23, 0x3F]) : ∀ u ∈ pathWords, c ∉ u := by
  have hfacts : ∀ c ∈ [0x23, 0x3F], c ∈ uriDelimiters ∧ c ∉ codePoints ":@&=+$,/;" := by decide
  exact notMem_uriWords (not_uriChar_delimiter (hfacts c hc).1 (hfacts c hc).2)

theorem notMem_pathPartWords {c : ℕ} (hc : c ∈ [0x23, 0x3F]) : ∀ u ∈ pathPartWords, c ∉ u := by
  have hauth : c ∈ [0x23, 0x2F, 0x3F] ∧ c ≠ 0x2F := by
    revert c
    decide
  rintro u (hu | hu)
  · obtain ⟨x, hx, y, hy, rfl⟩ := Language.mem_mul.mp hu
    obtain ⟨_, rfl, z, hz, rfl⟩ := Language.mem_mul.mp hx
    have hz := notMem_authorityWords hauth.1 z hz
    have hy : c ∉ y := by
      rcases hy with hy | rfl
      · obtain ⟨_, rfl, v, hv, rfl⟩ := Language.mem_mul.mp hy
        have hv := notMem_pathWords hc v hv
        simp [hauth.2, hv]
      · exact not_mem_nil
    simp [hauth.2, hz, hy]
  · exact notMem_pathWords hc u hu.1

theorem cons_slash_mem_pathWords : 0x2F :: w ∈ pathWords ↔ w ∈ pathWords := by
  have hslash : UriChar ":@&=+$,/;" 0x2F := (uriChar_delimiter (by decide)).mpr (by decide)
  rw [pathWords, cons_mem_uriWords]
  simp [hslash]

/-- The authority goes up to the first slash. -/
theorem netPath_iff (hw : ∀ c ∈ w, Scalar c) (hquery : 0x3F ∉ w) :
    0x2F :: 0x2F :: w ∈ netPathWords ↔
    (anyUriAuthority (w.takeWhile fun c => !(c = 0x2F || c = 0x3F)) &&
      anyUriPath (w.dropWhile fun c => !(c = 0x2F || c = 0x3F))) = true := by
  have hsl : 0x2F :: 0x2F :: w ∈ netPathWords ↔
      w ∈ authorityWords * ({[0x2F]} * pathWords + 1) := by
    rw [netPathWords, mul_assoc, Language.mem_mul]
    constructor
    · rintro ⟨_, rfl, v, hv, heq⟩
      cases heq
      exact hv
    · exact fun hmem => ⟨[0x2F, 0x2F], rfl, w, hmem, rfl⟩
  have happ : (w.takeWhile fun c => !(c = 0x2F || c = 0x3F)) ++
    (w.dropWhile fun c => !(c = 0x2F || c = 0x3F)) = w :=
    takeWhile_append_dropWhile
  have hauth : 0x2F ∉ w.takeWhile fun c => !(c = 0x2F || c = 0x3F) :=
    fun hmem => absurd (mem_takeWhile_imp hmem) (by decide)
  have hscalars := forall_mem_append.mp (happ.symm ▸ hw)
  rw [hsl, Bool.and_eq_true, anyUriAuthority_iff hscalars.1, anyUriPath_iff hscalars.2]
  conv_lhs => rw [← happ]
  cases hpath : w.dropWhile fun c => !(c = 0x2F || c = 0x3F) with
  | nil =>
    rw [append_nil, mem_mul_optional_of_notMem hauth]
    exact (and_iff_left nil_mem_uriWords).symm
  | cons c path =>
    have hc : c = 0x2F := by
      have hend := head?_dropWhile_not (fun c => !(c = 0x2F || c = 0x3F)) w
      rw [hpath] at hend
      have hmem : c ∈ w := happ ▸ mem_append_right _ (hpath ▸ mem_cons_self)
      have hne : c ≠ 0x3F := fun heq => hquery (heq ▸ hmem)
      simpa [hne] using hend
    rw [hc, append_cons_mem_mul_optional (notMem_authorityWords (by decide)) hauth,
      cons_slash_mem_pathWords]

/-- The words that start with two slashes have an authority. -/
theorem slashes_mem_pathPartWords (hw : ∀ c ∈ w, Scalar c) :
    0x2F :: 0x2F :: w ∈ pathPartWords ↔ 0x2F :: 0x2F :: w ∈ netPathWords := by
  refine or_iff_left fun h => h.2 ⟨⟨w, rfl⟩, ?_⟩
  exact forall_mem_cons.mpr
    ⟨by decide, forall_mem_cons.mpr ⟨by decide, fun c hc => (hw c hc).le_maxCp⟩⟩

theorem mem_pathPartWords_of_not_prefix (hsl : ¬ [0x2F, 0x2F] <+: w) : w ∈ pathPartWords ↔
    w ∈ pathWords := by
  have hno : w ∉ netPathWords := by
    intro hmem
    rw [netPathWords, mul_assoc] at hmem
    obtain ⟨_, rfl, v, -, rfl⟩ := Language.mem_mul.mp hmem
    exact hsl (prefix_append _ _)
  have hmem : w ∈ pathPartWords ↔ w ∈ netPathWords ∨
    (w ∈ pathWords ∧ w ∉ startingWords [0x2F, 0x2F]) := Iff.rfl
  rw [hmem, or_iff_right hno]
  exact and_iff_left fun h => hsl h.1

/-- The test of what stands before the query. -/
def pathPartOk (u : List ℕ) : Bool :=
  match u with
  | 0x2F :: 0x2F :: rest =>
    anyUriAuthority (rest.takeWhile fun c => !(c = 0x2F || c = 0x3F)) &&
      anyUriPath (rest.dropWhile fun c => !(c = 0x2F || c = 0x3F))
  | path => anyUriPath path

theorem anyUriHierPart_iff (hw : ∀ c ∈ w, Scalar c) : anyUriHierPart w = true ↔ w ∈ hierWords := by
  -- What stands before the query has no question mark.
  have hpart : ∀ (u : List ℕ) (query : Option (List ℕ)), (∀ c ∈ u, Scalar c) → 0x3F ∉ u →
      ((query.all (uriCharsOk uriIsUricExtra) && pathPartOk u) = true ↔
        (query.all (uriCharsOk uriIsUricExtra)) = true ∧ u ∈ pathPartWords) := by
    intro u query hu hquery
    rw [Bool.and_eq_true]
    refine and_congr_right fun _ => ?_
    unfold pathPartOk
    split
    · rename_i rest
      have hrest : ∀ c ∈ rest, Scalar c := fun c hc => hu c (by simp [hc])
      rw [slashes_mem_pathPartWords hrest, netPath_iff hrest fun h => hquery (by simp [h])]
    · rename_i hno
      rw [anyUriPath_iff hu, mem_pathPartWords_of_not_prefix]
      rintro ⟨rest, rfl⟩
      exact hno rest rfl
  rw [anyUriHierPart]
  cases hspl : splitFirst (· = 0x3F) w with
  | none =>
    have hnot : 0x3F ∉ w := fun hmem => by simpa using splitFirst_eq_none.mp hspl 0x3F hmem
    rw [hierWords, mem_mul_optional_of_notMem hnot]
    exact (hpart w none hw hnot).trans (and_iff_right rfl)
  | some r =>
    obtain ⟨path, query⟩ := r
    obtain ⟨rfl, hnot⟩ := splitFirst_eq_some hspl
    obtain ⟨hpath, hquery⟩ := forall_mem_append.mp hw
    obtain ⟨-, hquery⟩ := forall_mem_cons.mp hquery
    rw [hierWords, append_cons_mem_mul_optional (notMem_pathPartWords (by decide)) hnot,
      ← uricOk_iff hquery, and_comm]
    exact hpart path (some query) hpath hnot

end paths

/-! ## Schemes -/

section schemes

variable {w : List ℕ}

theorem notMem_schemeWords {c : ℕ} (hc : c ∈ [0x23, 0x2F, 0x3A, 0x3F]) :
    ∀ u ∈ schemeWords, c ∉ u := by
  have hfacts : ∀ c ∈ [0x23, 0x2F, 0x3A, 0x3F], ¬ InRanges alphaRanges c ∧
    ¬ InRanges schemeRanges c := by decide
  obtain ⟨halpha, hsch⟩ := hfacts c hc
  rintro _ ⟨d, v, rfl, hd, hv⟩ hmem
  rcases mem_cons.mp hmem with rfl | hmem
  · exact halpha hd
  · exact hsch (hv c hmem)

theorem uriIsScheme_iff : uriIsScheme w = true ↔ w ∈ schemeWords := by
  have hchar : ∀ c, (isAsciiAlphanumeric c || oneOf "+-." c) = true ↔ InRanges schemeRanges c := by
    intro c
    rw [Bool.or_eq_true, isAsciiAlphanumeric_iff, schemeRanges, inRanges_append, inRanges_charsOf]
    rfl
  cases w with
  | nil =>
    refine iff_of_false Bool.false_ne_true ?_
    rintro ⟨c, v, heq, -⟩
    cases heq
  | cons c w =>
    rw [uriIsScheme, Bool.and_eq_true, isAsciiAlphabetic_iff, all_iff fun d _ => hchar d]
    constructor
    · rintro ⟨hc, hw⟩
      exact ⟨c, w, rfl, hc, hw⟩
    · rintro ⟨c', v, heq, hc, hv⟩
      cases heq
      exact ⟨hc, hv⟩

theorem scheme_check_iff : ((splitFirst (fun c => c = 0x2F || c = 0x3F) w).isNone &&
      uriIsScheme w) = true ↔ w ∈ schemeWords := by
  rw [Bool.and_eq_true, uriIsScheme_iff, Option.isNone_iff_eq_none, splitFirst_eq_none]
  refine and_iff_right_of_imp fun hw d hd => ?_
  have hslash : d ≠ 0x2F := fun heq => notMem_schemeWords (by decide) w hw (heq ▸ hd)
  have hquery : d ≠ 0x3F := fun heq => notMem_schemeWords (by decide) w hw (heq ▸ hd)
  simp [hslash, hquery]

variable (hw : ∀ c ∈ w, Scalar c)
include hw

theorem mem_startingWords_slash : w ∈ startingWords [0x2F] ↔ w.head? = some 0x2F := by
  have hmem : w ∈ startingWords [0x2F] ↔ [0x2F] <+: w ∧ ∀ c ∈ w, c ≤ maxCp := Iff.rfl
  rw [hmem, and_iff_left fun c hc => (hw c hc).le_maxCp]
  cases w with
  | nil => simp
  | cons c w => simp [cons_prefix_cons, eq_comm]

theorem ssp_iff : (if w.head? ≠ some 0x2F then uriOpaqueOk w else anyUriHierPart w) = true ↔
    w ∈ opaqueWords + wordsWith fun w => w ∈ hierWords ∧ w ∈ startingWords [0x2F] := by
  have hst := mem_startingWords_slash hw
  rw [Language.mem_add, mem_wordsWith, opaqueWords, mem_wordsWith, hst, ← anyUriHierPart_iff hw,
    ← uricOk_iff hw]
  split
  · rename_i hslash
    rw [uriOpaqueOk, Bool.and_eq_true]
    simp [hslash, and_comm]
  · rename_i hslash
    simp [not_not.mp hslash]

theorem beforeFragment_iff : (match splitFirst (· = 0x3A) w with
      | some (scheme, ssp) =>
        if (splitFirst (fun c => c = 0x2F || c = 0x3F) scheme).isNone && uriIsScheme scheme then
          if ssp.head? ≠ some 0x2F then uriOpaqueOk ssp else anyUriHierPart ssp
        else anyUriHierPart w
      | none => anyUriHierPart w) = true ↔ w ∈ absoluteWords + relativeWords := by
  have hrelative : w ∈ relativeWords ↔ w ∈ hierWords ∧
    w ∉ schemeWords * {[0x3A]} * everyWord := Iff.rfl
  rw [Language.mem_add, hrelative]
  cases hspl : splitFirst (· = 0x3A) w with
  | none =>
    have hnot : 0x3A ∉ w := fun hmem => by simpa using splitFirst_eq_none.mp hspl 0x3A hmem
    have hcolon : ∀ L : Language ℕ, w ∉ schemeWords * {[0x3A]} * L := by
      intro L hmem
      obtain ⟨u, hu, v, -, rfl⟩ := Language.mem_mul.mp hmem
      obtain ⟨x, -, _, rfl, rfl⟩ := Language.mem_mul.mp hu
      exact hnot (by simp)
    rw [absoluteWords, or_iff_right (hcolon _), and_iff_left (hcolon _)]
    exact anyUriHierPart_iff hw
  | some r =>
    obtain ⟨scheme, ssp⟩ := r
    obtain ⟨rfl, hnot⟩ := splitFirst_eq_some hspl
    obtain ⟨-, hssp⟩ := forall_mem_append.mp hw
    obtain ⟨-, hssp⟩ := forall_mem_cons.mp hssp
    have hcolon := notMem_schemeWords (c := 0x3A) (by decide)
    have hevery : ssp ∈ everyWord := fun c hc => (hssp c hc).le_maxCp
    rw [absoluteWords, append_cons_mem_mul hcolon hnot, append_cons_mem_mul hcolon hnot,
        ← ssp_iff hssp,
      ← anyUriHierPart_iff hw, ← scheme_check_iff]
    by_cases hsch : ((splitFirst (fun c => c = 0x2F || c = 0x3F) scheme).isNone &&
      uriIsScheme scheme) = true
    · simp [hsch, hevery]
    · simp [hsch]

end schemes

section references

variable {w : List ℕ} {extra : String} {L M : Language ℕ}

theorem notMem_uricWords : ∀ u ∈ uricWords, 0x23 ∉ u :=
  notMem_uriWords (not_uriChar_delimiter (by decide) (by decide))

theorem notMem_hierWords : ∀ u ∈ hierWords, 0x23 ∉ u := by
  intro u hu hmem
  obtain ⟨x, hx, y, hy, rfl⟩ := Language.mem_mul.mp hu
  have hx := notMem_pathPartWords (c := 0x23) (by decide) x hx
  rcases hy with hy | rfl
  · obtain ⟨_, rfl, z, hz, rfl⟩ := Language.mem_mul.mp hy
    have hz := notMem_uricWords z hz
    simp [hx, hz] at hmem
  · simp [hx] at hmem

theorem notMem_beforeFragment : ∀ u ∈ absoluteWords + relativeWords, 0x23 ∉ u := by
  rintro u (hu | hu)
  · obtain ⟨x, hx, y, hy, rfl⟩ := Language.mem_mul.mp hu
    obtain ⟨z, hz, _, rfl, rfl⟩ := Language.mem_mul.mp hx
    have hz := notMem_schemeWords (c := 0x23) (by decide) z hz
    have hy : 0x23 ∉ y := hy.elim (fun hy => notMem_uricWords y hy.1.1) fun hy =>
        notMem_hierWords y hy.1
    simp [hz, hy]
  · exact notMem_hierWords u hu.1

/-! ### All characters of references are reserved or unreserved -/

theorem mul_le_uriWords (hL : L ≤ uriWords extra) (hM : M ≤ uriWords extra) :
    L * M ≤ uriWords extra := by
  calc L * M ≤ uriWords extra * uriWords extra := mul_le_mul' hL hM
    _ = uriWords extra := kstar_mul_kstar _

theorem one_le_uriWords : 1 ≤ uriWords extra := one_le_kstar

theorem uriWords_mono {extra' : String} (h : ∀ c ∈ codePoints extra, c ∈ codePoints extra') :
    uriWords extra ≤ uriWords extra' := by
  refine fun w hw => mem_uriWords_of_chars (fun c _ hc => ?_) hw
  rw [uriChar_iff] at hc ⊢
  exact hc.imp_right fun hc => contains_iff_mem.mpr (h c (contains_iff_mem.mp hc))

theorem mem_uriWords_of_forall (h : ∀ c ∈ w, UriChar extra c) : w ∈ uriWords extra := by
  induction w with
  | nil => exact nil_mem_uriWords
  | cons c w ih =>
    obtain ⟨hc, hw⟩ := forall_mem_cons.mp h
    exact cons_mem_uriWords.mpr (.inl ⟨hc, ih hw⟩)

theorem singleton_le_uriWords {s : List ℕ} (h : ∀ c ∈ s, UriChar extra c) :
    {s} ≤ uriWords extra := by
  rintro _ rfl
  exact mem_uriWords_of_forall h

theorem referenceWords_le : referenceWords ≤ uriWords ";/?:@&=+$,[]#" := by
  have hextra : ∀ c ∈ uriDelimiters, c ∈ codePoints ";/?:@&=+$,[]#" := by decide
  have hdelim : ∀ c ∈ uriDelimiters, UriChar ";/?:@&=+$,[]#" c :=
    fun c hc => (uriChar_delimiter hc).mpr (hextra c hc)
  have hchar : ∀ c ∈ uriDelimiters, {[c]} ≤ uriWords ";/?:@&=+$,[]#" :=
    fun c hc => singleton_le_uriWords (forall_mem_singleton.mpr (hdelim c hc))
  have hslash := hdelim 0x2F (by decide)
  have hsl : {[0x2F, 0x2F]} ≤ uriWords ";/?:@&=+$,[]#" :=
    singleton_le_uriWords (forall_mem_cons.mpr ⟨hslash, forall_mem_singleton.mpr hslash⟩)
  have hdig : digitWords ≤ uriWords ";/?:@&=+$,[]#" :=
    fun w hw => mem_uriWords_of_forall fun c hc => inRanges_mono (by decide +kernel) (hw c hc)
  have hipv6Chars : ipv6Chars ≤ uriWords ";/?:@&=+$,[]#" :=
    fun w hw => mem_uriWords_of_forall fun c hc => inRanges_mono (by decide +kernel) (hw.2 c hc)
  have hsch : schemeWords ≤ uriWords ";/?:@&=+$,[]#" := by
    rintro _ ⟨c, v, rfl, hc, hv⟩
    refine mem_uriWords_of_forall
      (forall_mem_cons.mpr ⟨inRanges_mono (by decide +kernel) hc, fun d hd => ?_⟩)
    exact inRanges_mono (by decide +kernel) (hv d hd)
  have huric : uricWords ≤ uriWords ";/?:@&=+$,[]#" := uriWords_mono (by decide)
  have hpath : pathWords ≤ uriWords ";/?:@&=+$,[]#" := uriWords_mono (by decide)
  have hport : portWords ≤ uriWords ";/?:@&=+$,[]#" :=
    mul_le_uriWords (hchar 0x3A (by decide)) hdig
  have hhostPort : hostPortWords ≤ uriWords ";/?:@&=+$,[]#" :=
    add_le (uriWords_mono (by decide)) (mul_le_uriWords (uriWords_mono (by decide)) hport)
  have hipv6 : ipv6Words ≤ uriWords ";/?:@&=+$,[]#" :=
    mul_le_uriWords (mul_le_uriWords (mul_le_uriWords (hchar 0x5B (by decide)) hipv6Chars)
      (hchar 0x5D (by decide)))
      (add_le hport one_le_uriWords)
  have hauth : authorityWords ≤ uriWords ";/?:@&=+$,[]#" :=
    mul_le_uriWords (add_le (mul_le_uriWords (uriWords_mono (by decide)) (hchar 0x40 (by decide)))
      one_le_uriWords)
      (add_le hhostPort hipv6)
  have hnetPath : netPathWords ≤ uriWords ";/?:@&=+$,[]#" :=
    mul_le_uriWords (mul_le_uriWords hsl hauth)
      (add_le (mul_le_uriWords (hchar 0x2F (by decide)) hpath) one_le_uriWords)
  have hhier : hierWords ≤ uriWords ";/?:@&=+$,[]#" :=
    mul_le_uriWords (add_le hnetPath fun w hw => hpath hw.1)
      (add_le (mul_le_uriWords (hchar 0x3F (by decide)) huric) one_le_uriWords)
  have habsolute : absoluteWords ≤ uriWords ";/?:@&=+$,[]#" :=
    mul_le_uriWords (mul_le_uriWords hsch (hchar 0x3A (by decide)))
      (add_le (fun w hw => huric hw.1.1) fun w hw => hhier hw.1)
  have hrelative : relativeWords ≤ uriWords ";/?:@&=+$,[]#" := fun w hw => hhier hw.1
  exact mul_le_uriWords (add_le habsolute hrelative)
    (add_le (mul_le_uriWords (hchar 0x23 (by decide)) huric) one_le_uriWords)

/-- No character of a reference is a space or an ASCII control character. -/
theorem not_control_of_mem (hw : w ∈ uriWords ";/?:@&=+$,[]#") :
    (w.any fun c => c < 0x20 || c = 0x20 || c = 0x7F) = false := by
  have hrng : ∀ r ∈ unreservedRanges ++ otherRanges ++ charsOf ";/?:@&=+$,[]#",
      0x20 < r.1 ∧ (r.2 < 0x7F ∨ 0x7F < r.1) := by
    decide +kernel
  rw [any_eq_false]
  intro c hc
  have hbounds : 0x20 < c ∧ c ≠ 0x7F := by
    rcases over_uriWords w hw c hc with ⟨r, hr, hmin, hmax⟩ | rfl
    · have := hrng r hr
      omega
    · decide
  simp
  omega

/-- The fragment starts at the first number sign. -/
theorem anyUriStructural_iff (hw : ∀ c ∈ w, Scalar c)
    (hcontrol : (w.any fun c => c < 0x20 || c = 0x20 || c = 0x7F) = false) :
    anyUriStructural w = true ↔ w ∈ referenceWords := by
  rw [anyUriStructural, hcontrol, if_neg Bool.false_ne_true]
  cases hspl : splitFirst (· = 0x23) w with
  | none =>
    have hnot : 0x23 ∉ w := fun hmem => by simpa using splitFirst_eq_none.mp hspl 0x23 hmem
    rw [referenceWords, mem_mul_optional_of_notMem hnot, ← beforeFragment_iff hw]
    rfl
  | some r =>
    obtain ⟨before, fragment⟩ := r
    obtain ⟨rfl, hnot⟩ := splitFirst_eq_some hspl
    obtain ⟨hbef, hfragment⟩ := forall_mem_append.mp hw
    obtain ⟨-, hfragment⟩ := forall_mem_cons.mp hfragment
    rw [referenceWords, append_cons_mem_mul_optional notMem_beforeFragment hnot,
        ← beforeFragment_iff hbef, ← uricOk_iff hfragment,
      and_comm, ← Bool.and_eq_true]
    rfl

theorem isValidAnyUri_iff (hw : ∀ c ∈ w, Scalar c) : isValidAnyUri w = true ↔
    w ∈ referenceWords := by
  have hgrammar : anyUriGrammar w = true ↔ w ∈ uriWords ";/?:@&=+$,[]#" :=
    uriCharsOk_iff (by decide) hw
  rw [isValidAnyUri, Bool.and_eq_true, hgrammar]
  constructor
  · rintro ⟨hstructural, hmem⟩
    exact (anyUriStructural_iff hw (not_control_of_mem hmem)).mp hstructural
  · intro hmem
    have hchars := referenceWords_le hmem
    exact ⟨(anyUriStructural_iff hw (not_control_of_mem hchars)).mpr hmem, hchars⟩

end references

/-- What the automata recognize. -/
def StringDatatype.words : StringDatatype → Language ℕ
  | .string => wordsWith fun w => ∀ c ∈ w, InRanges xmlCharRanges c
  | .normalizedString => wordsWith fun w => ∀ c ∈ w, InRanges normalizedStringRanges c
  | .token =>
    wordsWith fun w => w = [] ∨ ∀ b ∈ w.splitOn 0x20, 1 ≤ b.length ∧ ∀ c ∈ b,
      InRanges tokenCharRanges c
  | .name => wordsWith fun w => StartsAndGoesOn nameStartCharRanges nameCharRanges w
  | .ncname =>
    wordsWith fun w => StartsAndGoesOn (withoutColon nameStartCharRanges)
      (withoutColon nameCharRanges) w
  | .nmtoken => wordsWith fun w => 1 ≤ w.length ∧ ∀ c ∈ w, InRanges nameCharRanges c
  | .language => wordsWith fun w =>
    ∃ b bs, w.splitOn 0x2D = b :: bs ∧ OfLength alphaRanges 1 8 b ∧ ∀ x ∈ bs,
      OfLength alnumRanges 1 8 x
  | .anyUri => referenceWords

theorem recognizes_stringPart (d : StringDatatype) : Recognizes d.stringPart d.words := by
  cases d with
  | string => exact recognizes_anyString
  | normalizedString => exact recognizes_normalizedString
  | token => exact recognizes_token
  | name => exact recognizes_name
  | ncname => exact recognizes_ncname
  | nmtoken => exact recognizes_nmtoken
  | language => exact recognizes_xsdLanguage
  | anyUri => exact recognizes_anyUriValue

theorem lexicalValid_iff (d : StringDatatype) {w : List ℕ} (hw : ∀ c ∈ w, Scalar c) :
    lexicalValid d w = true ↔ w ∈ d.words := by
  cases d with
  | string => exact all_iff fun c hc => isXmlChar_iff (hw c hc).le_maxCp
  | normalizedString => exact isValidNormalizedString_iff
  | token => exact isValidToken_iff
  | name => exact isValidXmlName_iff (fun c => isNameStartChar_iff) fun c => isNameChar_iff
  | ncname =>
    exact isValidXmlName_iff (fun c => isNameStartChar_noColon) fun c => isNameChar_noColon
  | nmtoken => exact isValidNmtoken_iff
  | language => exact isValidLanguage_iff
  | anyUri => exact isValidAnyUri_iff hw

/-- The scans and the automata accept the same texts and the same language tags in lowercase. -/
theorem lexicalValid_iff_run : (∀ (d : StringDatatype) (s : String),
      (lexicalValid d (codePoints s) = true ↔ d.Accepts (codePoints s)) ∧
        (lexicalValid d (codePoints s) = true ↔ d.stringPart.run (codePoints s) = true)) ∧
    ∀ t : String, Lowercase (codePoints t) →
      (isValidLanguageBcp47 (codePoints t) = true ↔ languageTag.run (codePoints t) = true) := by
  refine ⟨fun d s => ?_, fun t ht => ?_⟩
  · have hval := lexicalValid_iff d (scalar_codePoints s)
    exact ⟨hval.trans (StringDatatype.accepts_iff d (recognizes_stringPart d)).symm,
      hval.trans (recognizes_stringPart d).run_iff.symm⟩
  · exact (isValidLanguageBcp47_iff ht).trans languageTag_iff.run_iff.symm

theorem lexicalValid_iff_run_texts : anyUriValue.run (codePoints "http://u@[::1]:80/p?q#f") = true ∧
    languageTag.run (codePoints "de-latn-x-a") = true := by
  have hlower : Lowercase (codePoints "de-latn-x-a") := by
    unfold Lowercase
    decide
  exact ⟨((lexicalValid_iff_run.1 .anyUri "http://u@[::1]:80/p?q#f").2).mp (by decide +kernel),
    (lexicalValid_iff_run.2 "de-latn-x-a" hlower).mp (by decide +kernel)⟩

end Hermit
