import Hermit.Strings.DatatypeLanguages

/-! # Language tags

A tag is a word of subtags; the automaton of the tags is a regular expression over subtags.
-/

namespace Hermit

namespace StringAutomaton

open Words

/-- The symbol between two subtags. -/
def dash : ℕ := 0x2D

def lowerRanges : List (ℕ × ℕ) := [(0x61, 0x7A)]

def digitRanges : List (ℕ × ℕ) := [(0x30, 0x39)]

def lowerAlnumRanges : List (ℕ × ℕ) := [(0x30, 0x39), (0x61, 0x7A)]

def singletonRanges : List (ℕ × ℕ) := [(0x30, 0x39), (0x61, 0x77), (0x79, 0x7A)]

/-! ## Classes of subtags -/

def Extlang : List ℕ → Prop := OfLength lowerRanges 3 3

def Script : List ℕ → Prop := OfLength lowerRanges 4 4

def Region (b : List ℕ) : Prop := OfLength lowerRanges 2 2 b ∨ OfLength digitRanges 3 3 b

def Variant (b : List ℕ) : Prop :=
  OfLength lowerAlnumRanges 5 8 b ∨ ∃ c v, b = c :: v ∧ InRanges digitRanges c ∧
    OfLength lowerAlnumRanges 3 3 v

def Singleton (b : List ℕ) : Prop := ∃ c, InRanges singletonRanges c ∧ b = [c]

def ExtensionSubtag : List ℕ → Prop := OfLength lowerAlnumRanges 2 8

def PrivateSubtag : List ℕ → Prop := OfLength lowerAlnumRanges 1 8

/-- One or more subtags of a class. -/
def someOf (P : List ℕ → Prop) : Language (List ℕ) := letters P ^ 1 * KStar.kstar (letters P)

def extlangs : Language (List ℕ) := between (letters Extlang) 0 3 + 1

def extensions : Language (List ℕ) := KStar.kstar (letters Singleton * someOf ExtensionSubtag)

def privateuse : Language (List ℕ) := letters (· = [0x78]) * someOf PrivateSubtag + 1

/-- What follows the language. -/
def afterLanguage : Language (List ℕ) :=
  (letters Script + 1) * (letters Region + 1) * KStar.kstar (letters Variant) *
    extensions * privateuse

/-- The languages of two or three letters may be extended. -/
def LanguageTag (b : List ℕ) (bs : List (List ℕ)) : Prop :=
  (OfLength lowerRanges 2 3 b ∧ bs ∈ extlangs * afterLanguage) ∨
    ((OfLength lowerRanges 4 4 b ∨ OfLength lowerRanges 5 8 b) ∧ bs ∈ afterLanguage)

/-! ## The automaton -/

section automaton

variable {a b : StringAutomaton} {L : Language ℕ} {K : Language (List ℕ)} {P : List ℕ → Prop}

theorem recognizes_ofLength (rs : List (ℕ × ℕ)) (hmax : ∀ r ∈ rs, r.2 ≤ maxCp) (min max : ℕ) :
    Recognizes ((ranges rs).repeatRange min max) (wordsWith (OfLength rs min max)) :=
  recognizes_repeatRange_ranges hmax min max

theorem recognizes_dash : Recognizes (char 0x2D) {[dash]} := recognizes_char (by decide)

/-- A subtag after a dash. -/
theorem Recognizes.subtag (h : Recognizes a (wordsWith P)) :
    Recognizes ((char 0x2D).concatenate a) (blocks dash (letters P)) :=
  (recognizes_dash.concatenate h).congr fun w => by
    rw [singleton_mul_eq_blocks]
    rfl

variable (h : Recognizes a (blocks dash K))
include h

theorem Recognizes.blocks_repeat : Recognizes a.repeat (blocks dash (KStar.kstar K)) :=
  h.repeat.congr fun w => by rw [blocks_kstar]

theorem Recognizes.blocks_repeatMin (min : ℕ) :
    Recognizes (a.repeatMin min) (blocks dash (K ^ min * KStar.kstar K)) :=
  (h.repeatMin min).congr fun w => by rw [map_mul, map_pow, blocks_kstar]

theorem Recognizes.blocks_repeatRange (min max : ℕ) :
    Recognizes (a.repeatRange min max) (blocks dash (between K min max)) :=
  (h.repeatRange min max).congr fun w => by rw [blocks_between]

theorem Recognizes.blocks_optional : Recognizes a.optional (blocks dash (K + 1)) :=
  h.optional.congr fun w => by rw [map_add, map_one]

theorem Recognizes.blocks_concatenate {K' : Language (List ℕ)}
    (h' : Recognizes b (blocks dash K')) :
    Recognizes (a.concatenate b) (blocks dash (K * K')) :=
  (h.concatenate h').congr fun w => by rw [map_mul]

end automaton

theorem recognizes_languageTag : Recognizes languageTag
    (wordsWith (OfLength lowerRanges 2 3) * blocks dash (extlangs * afterLanguage) +
      wordsWith (fun b => OfLength lowerRanges 4 4 b ∨ OfLength lowerRanges 5 8 b) *
      blocks dash afterLanguage) := by
  have halpha := recognizes_ofLength lowerRanges (by decide)
  have hdigit := recognizes_ofLength digitRanges (by decide)
  have halnum := recognizes_ofLength lowerAlnumRanges (by decide)
  have hextlang := ((halpha 3 3).subtag.blocks_repeatRange 0 3).blocks_optional
  have hlang := (((halpha 2 3).concatenate hextlang).union (halpha 4 4)).union (halpha 5 8)
  have hscr := (halpha 4 4).subtag.blocks_optional
  have hreg : Recognizes _ (wordsWith Region) :=
    ((halpha 2 2).union (hdigit 3 3)).congr fun w => Iff.rfl
  have hvar : Recognizes (((ranges lowerAlnumRanges).repeatRange 5 8).union
      ((ranges digitRanges).concatenate ((ranges lowerAlnumRanges).repeatRange 3 3)))
        (wordsWith Variant) := by
    refine ((halnum 5 8).union ((recognizes_ranges (by decide)).concatenate (halnum 3 3))).congr
      fun w => ?_
    rw [Language.mem_add]
    refine or_congr Iff.rfl ?_
    rw [Language.mem_mul]
    constructor
    · rintro ⟨_, ⟨c, hc, rfl⟩, v, hv, rfl⟩
      exact ⟨c, v, rfl, hc, hv⟩
    · rintro ⟨c, v, rfl, hc, hv⟩
      exact ⟨[c], ⟨c, hc, rfl⟩, v, hv, rfl⟩
  have hsing : Recognizes (ranges singletonRanges) (wordsWith Singleton) :=
    (recognizes_ranges (by decide)).congr fun w => Iff.rfl
  have hextTail := (halnum 2 8).subtag.blocks_repeatMin 1
  have hext : Recognizes ((char 0x2D).concatenate ((ranges singletonRanges).concatenate
      (((char 0x2D).concatenate ((ranges lowerAlnumRanges).repeatRange 2 8)).repeatMin 1)))
      (blocks dash (letters Singleton * someOf ExtensionSubtag)) := by
    refine (recognizes_dash.concatenate (hsing.concatenate hextTail)).congr fun w => ?_
    rw [← mul_assoc, singleton_mul_eq_blocks, ← map_mul]
    rfl
  have hx : Recognizes (char 0x78) (wordsWith (· = [0x78])) :=
    (recognizes_char (by decide)).congr fun w => Iff.rfl
  have hprivateuse :=
    (hx.subtag.blocks_concatenate ((halnum 1 8).subtag.blocks_repeatMin 1)).blocks_optional
  refine (((((hlang.concatenate hscr).concatenate hreg.subtag.blocks_optional).concatenate
    hvar.subtag.blocks_repeat).concatenate hext.blocks_repeat).concatenate
      hprivateuse).congr fun w => ?_
  have hfour : wordsWith (OfLength lowerRanges 4 4) + wordsWith (OfLength lowerRanges 5 8) =
      wordsWith fun b => OfLength lowerRanges 4 4 b ∨ OfLength lowerRanges 5 8 b := rfl
  have hafter : blocks dash afterLanguage = blocks dash (letters Script + 1) *
    blocks dash (letters Region + 1) *
      blocks dash (KStar.kstar (letters Variant)) * blocks dash extensions *
        blocks dash privateuse := by
    rw [afterLanguage, map_mul, map_mul, map_mul, map_mul]
  rw [map_mul, hafter, ← hfour]
  simp only [mul_assoc, add_mul, add_assoc]
  exact Iff.rfl

/-! ## Subtags -/

/-- Every subtag of a tag is a word of lowercase letters and digits. -/
def Subtag (b : List ℕ) : Prop := 1 ≤ b.length ∧ ∀ c ∈ b, InRanges lowerAlnumRanges c

theorem Subtag.notMem_dash {b : List ℕ} (h : Subtag b) : dash ∉ b :=
  notMem_of_inRanges (by decide) h.2

theorem subtag_of_ofLength {rs : List (ℕ × ℕ)}
    (hrs : ∀ r ∈ rs, ∃ r' ∈ lowerAlnumRanges, r'.1 ≤ r.1 ∧ r.2 ≤ r'.2) {min max : ℕ}
    (hmin : 1 ≤ min) {b : List ℕ} (h : OfLength rs min max b) : Subtag b :=
  ⟨hmin.trans h.1, fun c hc => inRanges_mono hrs (h.2.2 c hc)⟩

theorem over_someOf {P : List ℕ → Prop} (h : ∀ b, P b → Subtag b) : Over Subtag (someOf P) :=
  ((over_letters h).pow 1).mul (over_letters h).kstar

theorem over_afterLanguage : Over Subtag afterLanguage := by
  have hscr : Over Subtag (letters Script) :=
    over_letters fun b hb => subtag_of_ofLength (by decide) (by decide) hb
  have hreg : Over Subtag (letters Region) := by
    refine over_letters fun b hb => ?_
    rcases hb with hb | hb
    · exact subtag_of_ofLength (by decide) (by decide) hb
    · exact subtag_of_ofLength (by decide) (by decide) hb
  have hvar : Over Subtag (letters Variant) := by
    refine over_letters fun b hb => ?_
    rcases hb with hb | ⟨c, v, rfl, hc, hv⟩
    · exact subtag_of_ofLength (by decide) (by decide) hb
    · exact ⟨by simp, List.forall_mem_cons.mpr ⟨inRanges_mono (by decide) hc, hv.2.2⟩⟩
  have hext : Over Subtag (letters Singleton * someOf ExtensionSubtag) := by
    refine (over_letters fun b hb => ?_).mul (over_someOf fun b hb =>
        subtag_of_ofLength (by decide) (by decide) hb)
    obtain ⟨c, hc, rfl⟩ := hb
    exact ⟨le_refl 1, List.forall_mem_singleton.mpr (inRanges_mono (by decide) hc)⟩
  have hprivateuse : Over Subtag (letters (· = [0x78]) * someOf PrivateSubtag) := by
    refine (over_letters fun b hb => ?_).mul (over_someOf fun b hb =>
        subtag_of_ofLength (by decide) (by decide) hb)
    rw [hb]
    exact ⟨by decide, by decide⟩
  exact ((((hscr.add over_one).mul (hreg.add over_one)).mul hvar.kstar).mul hext.kstar).mul
    (hprivateuse.add over_one)

theorem over_extlangs : Over Subtag extlangs :=
  ((over_letters fun _ hb => subtag_of_ofLength (by decide) (by decide) hb).between 0 3).add
    over_one

theorem LanguageTag.subtag {b : List ℕ} {bs : List (List ℕ)} (h : LanguageTag b bs) : Subtag b ∧
    ∀ x ∈ bs, Subtag x := by
  rcases h with ⟨hb, hbs⟩ | ⟨hb | hb, hbs⟩
  · exact ⟨subtag_of_ofLength (by decide) (by decide) hb,
      over_extlangs.mul over_afterLanguage bs hbs⟩
  · exact ⟨subtag_of_ofLength (by decide) (by decide) hb, over_afterLanguage bs hbs⟩
  · exact ⟨subtag_of_ofLength (by decide) (by decide) hb, over_afterLanguage bs hbs⟩

/-- The automaton accepts the words of tags. -/
theorem languageTag_iff : Recognizes languageTag
    (wordsWith fun w => ∃ b bs, w.splitOn dash = b :: bs ∧ LanguageTag b bs) := by
  refine recognizes_languageTag.congr fun w => ?_
  have hdash : ∀ b, Subtag b → dash ∉ b := fun b hb => hb.notMem_dash
  rw [Language.mem_add, mem_mul_blocks, mem_mul_blocks]
  · constructor
    · rintro (⟨b, hb, bs, hbs, hspl⟩ | ⟨b, hb, bs, hbs, hspl⟩)
      · exact ⟨b, bs, hspl, .inl ⟨hb, hbs⟩⟩
      · exact ⟨b, bs, hspl, .inr ⟨hb, hbs⟩⟩
    · rintro ⟨b, bs, hspl, ⟨hb, hbs⟩ | ⟨hb, hbs⟩⟩
      · exact .inl ⟨b, hb, bs, hbs, hspl⟩
      · exact .inr ⟨b, hb, bs, hbs, hspl⟩
  · rintro b (hb | hb)
    · exact hdash b (subtag_of_ofLength (by decide) (by decide) hb)
    · exact hdash b (subtag_of_ofLength (by decide) (by decide) hb)
  · exact fun bs hbs b hb => hdash b (over_afterLanguage bs hbs b hb)
  · exact fun b hb => hdash b (subtag_of_ofLength (by decide) (by decide) hb)
  · exact fun bs hbs b hb => hdash b (over_extlangs.mul over_afterLanguage bs hbs b hb)

end StringAutomaton

end Hermit
