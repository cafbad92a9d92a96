import Hermit.Strings.LanguageTags
import Hermit.Strings.LexicalForms

/-! # Language ranges

A tag matches a range if its subtags match one after the other, with other subtags between them that
are no singletons.  A scan takes the first subtag that matches; the automaton may take any.
-/

namespace Hermit

open StringAutomaton Words List

def asciiLowercase (c : ℕ) : ℕ := if 0x41 ≤ c ∧ c ≤ 0x5A then c + 0x20 else c

def toAsciiLowercase (w : List ℕ) : List ℕ := w.map asciiLowercase

/-- The subtag `*`. -/
def wildcard : List ℕ := [0x2A]

/-! ## The scan -/

/-- Skip subtags until one that matches; a singleton that does not ends the search. -/
def findSubtag (subtag : List ℕ) : List (List ℕ) → Option (List (List ℕ))
  | [] => none
  | tagSubtag :: tag =>
    if tagSubtag = subtag then some tag
    else if byteLength tagSubtag = 1 then none
    else findSubtag subtag tag

def matchSubtags : List (List ℕ) → List (List ℕ) → Bool
  | [], _ => true
  | subtag :: range, tag =>
    match findSubtag subtag tag with
    | none => false
    | some rest => matchSubtags range rest

/-- The values of strings: those without and those with a language tag. -/
inductive PlainLiteral where
  | text (string : List ℕ)
  | langString (string lang : List ℕ)

def valueSatisfiesLangRange (value : PlainLiteral) (range : List ℕ) : Bool :=
  match value with
  | .text _ => false
  | .langString _ lang =>
    match (toAsciiLowercase range).splitOn 0x2D, (toAsciiLowercase lang).splitOn 0x2D with
    | first :: range, tagFirst :: tag =>
      (first = wildcard || first = tagFirst) && matchSubtags (range.filter (· ≠ wildcard)) tag
    | _, _ => false

def anySubtag : StringAutomaton := (ranges [(0x30, 0x39), (0x61, 0x7A)]).repeatMin 1

def skippedSubtags : StringAutomaton :=
  ((char 0x2D).concatenate ((ranges [(0x30, 0x39), (0x61, 0x7A)]).repeatMin 2)).repeat

def rangeTag (subtags : List (List ℕ)) : StringAutomaton :=
  let first := subtags.headD []
  let tag := if first = wildcard then anySubtag else literal first
  let tag := (subtags.tail.filter (· ≠ wildcard)).foldl
    (fun tag subtag => ((tag.concatenate skippedSubtags).concatenate (char 0x2D)).concatenate
      (literal subtag)) tag
  tag.concatenate ((char 0x2D).concatenate anySubtag).repeat

def languageRangeAutomaton (languageRange : List ℕ) : StringAutomaton :=
  (anyString.concatenate (char separator)).concatenate
    ((rangeTag ((toAsciiLowercase languageRange).splitOn 0x2D)).intersection languageTag)

/-- The subtags of the range that remain are matched with those of the tag that remain. -/
def filterRemaining : List (List ℕ) → List (List ℕ) → Bool
  | [], _ => true
  | r :: range, [] => r = wildcard && filterRemaining range []
  | r :: range, t :: tag =>
    if r = wildcard then filterRemaining range (t :: tag)
    else if t = r then filterRemaining range tag
    else if t.length = 1 then false
    else filterRemaining (r :: range) tag
termination_by range tag => range.length + tag.length

/-- Matching a range with a tag by extended filtering. -/
def extendedFilter : List (List ℕ) → List (List ℕ) → Bool
  | r :: range, t :: tag => (r = wildcard || r = t) && filterRemaining range tag
  | _, _ => false

/-! ## The scan and the languages of subtags -/

section scan

variable {subtag : List ℕ} {range tag rest : List (List ℕ)}

/-- A subtag that may be skipped. -/
def Skipped (b : List ℕ) : Prop := 2 ≤ b.length ∧ ∀ c ∈ b, InRanges lowerAlnumRanges c

/-- The subtags that match those of a range, each after some that are skipped. -/
def rangeSubtags : List (List ℕ) → Language (List ℕ)
  | [] => 1
  | subtag :: range => KStar.kstar (letters Skipped) * letters (· = subtag) * rangeSubtags range

/-- The subtags of the tags that match. -/
def matching (range : List (List ℕ)) : Language (List ℕ) :=
  rangeSubtags range * KStar.kstar (letters Subtag)

theorem byteLength_eq {b : List ℕ} (h : ∀ c ∈ b, InRanges lowerAlnumRanges c) :
    byteLength b = b.length := by
  refine byteLength_eq_length fun c hc => ?_
  obtain ⟨r, hr, -, hmax⟩ := h c hc
  have hascii : ∀ r ∈ lowerAlnumRanges, r.2 ≤ 0x7F := by decide
  exact hmax.trans (hascii r hr)

theorem matching_nil : matching [] = KStar.kstar (letters Subtag) := one_mul _

theorem mem_matching_cons : tag ∈ matching (subtag :: range) ↔
    ∃ skipped, (∀ b ∈ skipped, Skipped b) ∧ ∃ rest ∈ matching range,
    tag = skipped ++ subtag :: rest := by
  rw [matching, rangeSubtags, mul_assoc, mul_assoc, Language.mem_mul]
  constructor
  · rintro ⟨skipped, hskip, v, hv, rfl⟩
    obtain ⟨_, ⟨b, rfl, rfl⟩, rest, hrest, rfl⟩ := Language.mem_mul.mp hv
    exact ⟨skipped, mem_kstar_letters.mp hskip, rest, hrest, rfl⟩
  · rintro ⟨skipped, hskip, rest, hrest, rfl⟩
    exact ⟨skipped, mem_kstar_letters.mpr hskip, subtag :: rest,
      Language.mem_mul.mpr ⟨[subtag], ⟨subtag, rfl, rfl⟩, rest, hrest, rfl⟩, rfl⟩

/-- A subtag that may be skipped can be put before subtags that match. -/
theorem cons_mem_matching {b : List ℕ} (hb : Skipped b) (h : tag ∈ matching range) :
    b :: tag ∈ matching range := by
  cases range with
  | nil =>
    rw [matching_nil] at h ⊢
    have hsub : Subtag b := ⟨(by decide : 1 ≤ 2).trans hb.1, hb.2⟩
    exact mem_kstar_letters.mpr (forall_mem_cons.mpr ⟨hsub, mem_kstar_letters.mp h⟩)
  | cons subtag range =>
    obtain ⟨skipped, hskip, rest, hrest, rfl⟩ := mem_matching_cons.mp h
    exact mem_matching_cons.mpr ⟨b :: skipped, forall_mem_cons.mpr ⟨hb, hskip⟩, rest, hrest, rfl⟩

theorem append_mem_matching {skipped : List (List ℕ)} (hskip : ∀ b ∈ skipped, Skipped b)
    (h : tag ∈ matching range) :
    skipped ++ tag ∈ matching range := by
  induction skipped with
  | nil => exact h
  | cons b skipped ih =>
    obtain ⟨hb, hskip⟩ := forall_mem_cons.mp hskip
    exact cons_mem_matching hb (ih hskip)

/-- The scan stops at the first subtag that matches, after subtags that may be skipped. -/
theorem findSubtag_eq_some (htag : ∀ b ∈ tag, Subtag b) : findSubtag subtag tag = some rest ↔
    ∃ skipped, (∀ b ∈ skipped, Skipped b) ∧ subtag ∉ skipped ∧ tag = skipped ++ subtag :: rest := by
  induction tag with
  | nil =>
    refine iff_of_false nofun ?_
    rintro ⟨skipped, -, -, heq⟩
    exact absurd heq.symm (by simp)
  | cons b tag ih =>
    obtain ⟨hb, htag⟩ := forall_mem_cons.mp htag
    rw [findSubtag]
    by_cases heq : b = subtag
    · rw [if_pos heq, Option.some.injEq]
      constructor
      · rintro rfl
        exact ⟨[], nofun, not_mem_nil, by rw [heq]; rfl⟩
      · rintro ⟨skipped, -, hnot, hspl⟩
        cases skipped with
        | nil => exact (List.cons.inj hspl).2
        | cons b' skipped =>
          obtain ⟨rfl, -⟩ := List.cons.inj hspl
          exact absurd (heq ▸ mem_cons_self) hnot
    · rw [if_neg heq]
      by_cases hone : byteLength b = 1
      · rw [if_pos hone]
        refine iff_of_false nofun ?_
        rintro ⟨skipped, hskip, -, hspl⟩
        cases skipped with
        | nil => exact heq (List.cons.inj hspl).1
        | cons b' skipped =>
          obtain ⟨rfl, -⟩ := List.cons.inj hspl
          have htwo := (hskip b mem_cons_self).1
          rw [byteLength_eq hb.2] at hone
          omega
      · rw [if_neg hone, ih htag]
        constructor
        · rintro ⟨skipped, hskip, hnot, rfl⟩
          have hlong : Skipped b := by
            refine ⟨?_, hb.2⟩
            have := hb.1
            rw [byteLength_eq hb.2] at hone
            omega
          exact ⟨b :: skipped, forall_mem_cons.mpr ⟨hlong, hskip⟩,
            by simp [hnot, Ne.symm heq], rfl⟩
        · rintro ⟨skipped, hskip, hnot, hspl⟩
          cases skipped with
          | nil => exact absurd (List.cons.inj hspl).1 heq
          | cons b' skipped =>
            obtain ⟨rfl, rfl⟩ := List.cons.inj hspl
            exact ⟨skipped, fun x hx => hskip x (mem_cons_of_mem _ hx), fun hx =>
                hnot (mem_cons_of_mem _ hx), rfl⟩

theorem matchSubtags_iff (htag : ∀ b ∈ tag, Subtag b) : matchSubtags range tag = true ↔
    tag ∈ matching range := by
  induction range generalizing tag with
  | nil =>
    rw [matching_nil, mem_kstar_letters]
    exact iff_of_true rfl htag
  | cons subtag range ih =>
    rw [mem_matching_cons]
    constructor
    · intro hmatch
      rw [matchSubtags] at hmatch
      cases hfind : findSubtag subtag tag with
      | none =>
        rw [hfind] at hmatch
        cases hmatch
      | some rest =>
        rw [hfind] at hmatch
        obtain ⟨skipped, hskip, -, rfl⟩ := (findSubtag_eq_some htag).mp hfind
        refine ⟨skipped, hskip, rest, (ih fun b hb => ?_).mp hmatch, rfl⟩
        exact htag b (mem_append_right _ (mem_cons_of_mem _ hb))
    · rintro ⟨skipped, hskip, rest, hrest, rfl⟩
      -- The first occurrence is the given one or a skipped subtag, which is no singleton.
      obtain ⟨before, after, hspl, ⟨hbef, hnot⟩, hafter⟩ : ∃ before after,
        skipped ++ subtag :: rest = before ++ subtag :: after ∧
          ((∀ b ∈ before, Skipped b) ∧ subtag ∉ before) ∧ after ∈ matching range := by
        by_cases hmem : subtag ∈ skipped
        · obtain ⟨before, after, rfl, hnot⟩ := eq_append_cons_of_mem hmem
          obtain ⟨hbef, hskip⟩ := forall_mem_append.mp hskip
          obtain ⟨hsub, hafter⟩ := forall_mem_cons.mp hskip
          refine ⟨before, after ++ subtag :: rest, by simp, ⟨hbef, hnot⟩, ?_⟩
          exact append_mem_matching hafter (cons_mem_matching hsub hrest)
        · exact ⟨skipped, rest, rfl, ⟨hskip, hmem⟩, hrest⟩
      rw [hspl] at htag ⊢
      have hfind : findSubtag subtag (before ++ subtag :: after) = some after :=
        (findSubtag_eq_some htag).mpr ⟨before, hbef, hnot, rfl⟩
      rw [matchSubtags, hfind]
      refine (ih fun b hb => ?_).mpr hafter
      exact htag b (mem_append_right _ (mem_cons_of_mem _ hb))

end scan

/-! ## What the automaton accepts -/

section automaton

variable {a : StringAutomaton} {F : Language ℕ} {K : Language (List ℕ)} {range : List (List ℕ)}

theorem recognizes_anySubtag : Recognizes anySubtag (wordsWith Subtag) :=
  recognizes_repeatMin_ranges (by decide) 1

theorem recognizes_skippedSubtags : Recognizes skippedSubtags
    (blocks dash (KStar.kstar (letters Skipped))) := by
  have hlong : Recognizes ((ranges lowerAlnumRanges).repeatMin 2) (wordsWith Skipped) :=
    recognizes_repeatMin_ranges (by decide) 2
  exact hlong.subtag.blocks_repeat

theorem recognizes_rangeStep {subtag : List ℕ} (hmax : ∀ c ∈ subtag, c ≤ maxCp)
    (h : Recognizes a (F * blocks dash K)) :
    Recognizes (((a.concatenate skippedSubtags).concatenate (char 0x2D)).concatenate
      (literal subtag))
      (F * blocks dash (K * (KStar.kstar (letters Skipped) * letters (· = subtag)))) := by
  refine (((h.concatenate recognizes_skippedSubtags).concatenate recognizes_dash).concatenate
    (recognizes_literal hmax)).congr fun w => ?_
  have hsub : ({[dash]} : Language ℕ) * {subtag} = blocks dash (letters (· = subtag)) :=
    singleton_mul_eq_blocks dash {subtag}
  rw [mul_assoc, hsub, mul_assoc, mul_assoc, map_mul, map_mul]

theorem recognizes_rangeSteps (hmax : ∀ b ∈ range, ∀ c ∈ b, c ≤ maxCp)
    (h : Recognizes a (F * blocks dash K)) :
    Recognizes (range.foldl (fun tag subtag =>
      ((tag.concatenate skippedSubtags).concatenate (char 0x2D)).concatenate (literal subtag)) a)
      (F * blocks dash (K * rangeSubtags range)) := by
  induction range generalizing a K with
  | nil => rwa [rangeSubtags, mul_one]
  | cons subtag range ih =>
    obtain ⟨hsub, hrng⟩ := forall_mem_cons.mp hmax
    rw [rangeSubtags, ← mul_assoc]
    exact ih hrng (recognizes_rangeStep hsub h)

/-- The first subtags that match the first one of a range. -/
def firstMatches (first : List ℕ) : Language ℕ :=
  wordsWith fun b => if first = wildcard then Subtag b else b = first

theorem recognizes_rangeTag {first : List ℕ} (hfst : ∀ c ∈ first, c ≤ maxCp)
    (hmax : ∀ b ∈ range, ∀ c ∈ b, c ≤ maxCp) :
    Recognizes (rangeTag (first :: range))
    (firstMatches first * blocks dash (matching (range.filter (· ≠ wildcard)))) := by
  have hst : Recognizes (if first = wildcard then anySubtag else literal first)
      (firstMatches first * blocks dash 1) := by
    rw [map_one, mul_one, firstMatches]
    split
    · exact recognizes_anySubtag
    · exact recognizes_literal hfst
  have hfilt : ∀ b ∈ range.filter (· ≠ wildcard), ∀ c ∈ b, c ≤ maxCp :=
    fun b hb => hmax b (mem_of_mem_filter hb)
  have hrng := recognizes_rangeSteps hfilt hst
  refine (hrng.concatenate recognizes_anySubtag.subtag.blocks_repeat).congr fun w => ?_
  rw [one_mul, mul_assoc, ← map_mul]
  rfl

theorem over_matching (hrng : ∀ b ∈ range, dash ∉ b) : Over (dash ∉ ·) (matching range) := by
  have hsubtags : Over (dash ∉ ·) (rangeSubtags range) := by
    induction range with
    | nil => exact over_one
    | cons subtag range ih =>
      obtain ⟨hsub, hrng⟩ := forall_mem_cons.mp hrng
      have hskip : Over (dash ∉ ·) (letters Skipped) :=
        over_letters fun b hb => notMem_of_inRanges (by decide) hb.2
      have hlet : Over (dash ∉ ·) (letters (· = subtag)) := by
        rintro _ ⟨_, rfl, rfl⟩
        exact forall_mem_singleton.mpr hsub
      exact (hskip.kstar.mul hlet).mul (ih hrng)
  exact hsubtags.mul (over_letters fun b hb => hb.notMem_dash).kstar

/-- The automaton of a range runs on the tags that the scan accepts. -/
theorem rangeTag_iff {first b : List ℕ} {bs : List (List ℕ)} {t : List ℕ}
    (hdash : ∀ b ∈ first :: range, dash ∉ b)
    (hspl : t.splitOn dash = b :: bs) (hb : Subtag b) (hbs : ∀ x ∈ bs, Subtag x) :
    t ∈ firstMatches first * blocks dash (matching (range.filter (· ≠ wildcard))) ↔
      ((first = wildcard || first = b) && matchSubtags (range.filter (· ≠ wildcard)) bs) = true :=
  by
  obtain ⟨hdashFirst, hdashRange⟩ := forall_mem_cons.mp hdash
  rw [mem_mul_blocks, hspl, Bool.and_eq_true, matchSubtags_iff hbs]
  · have hmatches : b ∈ firstMatches first ↔ (first = wildcard || first = b) = true := by
      rw [firstMatches, mem_wordsWith, Bool.or_eq_true, decide_eq_true_eq, decide_eq_true_eq]
      split
      · rename_i hwild
        exact iff_of_true hb (.inl hwild)
      · rename_i hwild
        constructor
        · exact fun heq => .inr heq.symm
        · exact fun heq => (heq.resolve_left hwild).symm
    rw [← hmatches]
    constructor
    · rintro ⟨b', hb', bs', hbs', heq⟩
      obtain ⟨rfl, rfl⟩ := List.cons.inj heq
      exact ⟨hb', hbs'⟩
    · rintro ⟨hb', hbs'⟩
      exact ⟨b, hb', bs, hbs', rfl⟩
  · intro b' hb'
    rw [firstMatches, mem_wordsWith] at hb'
    split at hb'
    · exact hb'.notMem_dash
    · rwa [hb']
  · exact over_matching fun x hx => hdashRange x (mem_of_mem_filter hx)

end automaton

theorem toAsciiLowercase_le {w : List ℕ} (h : ∀ c ∈ w, c ≤ maxCp) : ∀ c ∈ toAsciiLowercase w,
    c ≤ maxCp := by
  intro c hc
  obtain ⟨d, hd, rfl⟩ := mem_map.mp hc
  rw [asciiLowercase]
  split
  · rename_i hupper
    exact (Nat.add_le_add_right hupper.2 0x20).trans (by decide)
  · exact h d hd

theorem toAsciiLowercase_eq {t b : List ℕ} {bs : List (List ℕ)} (hspl : t.splitOn dash = b :: bs)
    (hb : Subtag b) (hbs : ∀ x ∈ bs, Subtag x) : toAsciiLowercase t = t := by
  have hlower : ∀ c, InRanges lowerAlnumRanges c → asciiLowercase c = c := by
    rintro c ⟨r, hr, hmin, hmax⟩
    have hnot : ∀ r ∈ lowerAlnumRanges, r.2 < 0x41 ∨ 0x5A < r.1 := by decide
    rw [asciiLowercase, if_neg]
    have := hnot r hr
    omega
  have ht : t = b ++ unblock dash bs :=
    (splitOn_eq_cons hb.notMem_dash fun x hx => (hbs x hx).notMem_dash).mp hspl
  have hall : ∀ c ∈ t, asciiLowercase c = c := by
    rw [ht, forall_mem_append]
    refine ⟨fun c hc => hlower c (hb.2 c hc), fun c hc => ?_⟩
    obtain ⟨x, hx, hc⟩ := mem_flatMap.mp hc
    rcases mem_cons.mp hc with rfl | hc
    · rfl
    · exact hlower c ((hbs x hx).2 c hc)
  rw [toAsciiLowercase, map_congr_left hall, map_id']

/-- The scan is extended filtering. -/
theorem filterRemaining_eq {range tag : List (List ℕ)} (htag : ∀ b ∈ tag, Subtag b) :
    filterRemaining range tag = matchSubtags (range.filter (· ≠ wildcard)) tag := by
  fun_induction filterRemaining range tag with
  | case1 tag => rfl
  | case2 r range ih =>
    by_cases hr : r = wildcard
    · simp [hr, ih]
    · simp [hr, matchSubtags, findSubtag]
  | case3 range t tag ih =>
    rw [ih htag, filter_cons_of_neg (by simp)]
  | case4 range t tag hwild ih =>
    rw [ih (forall_mem_cons.mp htag).2, filter_cons_of_pos (by simpa using hwild), matchSubtags,
      findSubtag, if_pos rfl]
  | case5 r range t tag hwild hne hone =>
    obtain ⟨ht, -⟩ := forall_mem_cons.mp htag
    rw [filter_cons_of_pos (by simpa using hwild), matchSubtags, findSubtag, if_neg hne,
      if_pos ((byteLength_eq ht.2).trans hone)]
  | case6 r range t tag hwild hne hone ih =>
    obtain ⟨ht, htag⟩ := forall_mem_cons.mp htag
    rw [ih htag, filter_cons_of_pos (by simpa using hwild), matchSubtags, matchSubtags]
    conv_rhs => rw [findSubtag, if_neg hne, if_neg (byteLength_eq ht.2 ▸ hone)]

theorem valueSatisfiesLangRange_eq {s t r first b : List ℕ} {range bs : List (List ℕ)}
    (hrng : (toAsciiLowercase r).splitOn dash = first :: range) (hlower : toAsciiLowercase t = t)
    (hspl : t.splitOn dash = b :: bs) :
    valueSatisfiesLangRange (.langString s t) r =
      ((first = wildcard || first = b) && matchSubtags (range.filter (· ≠ wildcard)) bs) := by
  have hdash : dash = 0x2D := rfl
  simp only [valueSatisfiesLangRange, hlower, ← hdash, hrng, hspl]

/-- A range is matched with a tag in the same way by the automaton, by the scan and by extended
filtering. -/
theorem languageRangeAutomaton_iff (r : String) {s t : List ℕ}
    (hs : ∀ c ∈ s, InRanges xmlCharRanges c) (ht : languageTag.run t = true) :
    ((languageRangeAutomaton (codePoints r)).run (s ++ separator :: t) = true ↔
        valueSatisfiesLangRange (.langString s t) (codePoints r) = true) ∧
      valueSatisfiesLangRange (.langString s t) (codePoints r) =
        extendedFilter ((toAsciiLowercase (codePoints r)).splitOn dash) (t.splitOn dash) := by
  have htag := languageTag_iff.run_iff.mp ht
  obtain ⟨b, bs, hspl, hlang⟩ := htag
  obtain ⟨hb, hbs⟩ := hlang.subtag
  obtain ⟨first, range, hrng⟩ :=
    exists_cons_of_ne_nil (splitOn_ne_nil dash (toAsciiLowercase (codePoints r)))
  have hval := valueSatisfiesLangRange_eq (s := s) hrng (toAsciiLowercase_eq hspl hb hbs) hspl
  refine ⟨?_, by rw [hval, hrng, hspl, extendedFilter, filterRemaining_eq hbs]⟩
  have hdash : ∀ x ∈ first :: range, dash ∉ x := fun x hx => notMem_of_mem_splitOn (hrng ▸ hx)
  have hmax : ∀ x ∈ first :: range, ∀ c ∈ x, c ≤ maxCp := by
    intro x hx c hc
    exact toAsciiLowercase_le (fun d hd => (scalar_codePoints r d hd).le_maxCp) c
      (mem_of_mem_splitOn (hrng ▸ hx) hc)
  obtain ⟨hfst, hmax⟩ := forall_mem_cons.mp hmax
  have haut :=
    (recognizes_anyString.concatenate (recognizes_char (by decide : separator ≤ maxCp))).concatenate
    ((recognizes_rangeTag hfst hmax).intersection languageTag_iff)
  have hsep : ∀ u ∈ wordsWith (fun w => ∀ c ∈ w, InRanges xmlCharRanges c), separator ∉ u :=
    fun u hu => notMem_of_inRanges (by decide) hu
  have hdashEq : (toAsciiLowercase (codePoints r)).splitOn 0x2D = first :: range := hrng
  rw [hval, ← rangeTag_iff hdash hspl hb hbs, languageRangeAutomaton, hdashEq, haut.run_iff,
    append_cons_mem_mul hsep (hsep s hs)]
  exact ⟨fun h => h.2.1, fun h => ⟨hs, h, b, bs, hspl, hlang⟩⟩

/-- A script may stand between the language and the region of the range. -/
theorem languageRangeAutomaton_german :
    (languageRangeAutomaton (codePoints "de-DE")).run
    (codePoints "hallo" ++ separator :: codePoints "de-latn-de") = true := by
  have hscr : [codePoints "latn"] ∈ letters Script + 1 :=
    .inl ⟨_, (by decide : OfLength lowerRanges 4 4 _), rfl⟩
  have hreg : [codePoints "de"] ∈ letters Region + 1 := .inl ⟨_, .inl (by decide), rfl⟩
  have hpriv : [] ∈ privateuse := .inr rfl
  have hnone : [] ∈ extlangs := .inr rfl
  have hafter : [codePoints "latn", codePoints "de"] ∈ afterLanguage :=
    Language.append_mem_mul (Language.append_mem_mul
      (Language.append_mem_mul (Language.append_mem_mul hscr hreg)
      (Language.nil_mem_kstar _)) (Language.nil_mem_kstar _)) hpriv
  have htag : languageTag.run (codePoints "de-latn-de") = true :=
    languageTag_iff.run_iff.mpr ⟨codePoints "de", _,
      by decide +kernel, .inl ⟨by decide, Language.append_mem_mul hnone hafter⟩⟩
  exact (languageRangeAutomaton_iff "de-DE" (by decide +kernel) htag).1.mpr (by decide +kernel)

end Hermit
