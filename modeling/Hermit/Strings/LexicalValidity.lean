import Hermit.Strings.LanguageTags
import Hermit.Strings.LexicalForms

/-! # Scans and automata of the string types

A scan looks at every character or goes along the subtags; the classes of subtags exclude one
another, so that it never has to go back.
-/

namespace Hermit

open StringAutomaton Words List

/-! ## Characters -/

section characters

variable {c : ℕ}

theorem isXmlChar_iff (hc : c ≤ maxCp) : isXmlChar c = true ↔ InRanges xmlCharRanges c := by
  have hmax : maxCp = 0x10FFFF := rfl
  simp [isXmlChar, InRanges, xmlCharRanges]
  omega

theorem isTokenChar_iff : isTokenChar c = true ↔ InRanges tokenCharRanges c := by
  simp [isTokenChar, InRanges, tokenCharRanges]

theorem between_self {k : ℕ} : k ≤ c ∧ c ≤ k ↔ c = k := by
  omega

theorem isNameStartChar_iff : isNameStartChar c true = true ↔ InRanges nameStartCharRanges c := by
  simp [isNameStartChar, InRanges, nameStartCharRanges, between_self, or_assoc]

theorem isNameStartChar_noColon : isNameStartChar c false = true ↔
    InRanges (withoutColon nameStartCharRanges) c := by
  have hrng : withoutColon nameStartCharRanges = nameStartCharRanges.tail := by decide +kernel
  rw [hrng]
  simp [isNameStartChar, InRanges, nameStartCharRanges, between_self, or_assoc]

theorem isNameChar_iff : isNameChar c true = true ↔ InRanges nameCharRanges c := by
  rw [nameCharRanges, inRanges_normalizeRanges]
  simp [isNameChar, isNameStartChar, InRanges, nameStartCharRanges, between_self, or_assoc]

theorem isNameChar_noColon : isNameChar c false = true ↔
    InRanges (withoutColon nameCharRanges) c := by
  have hrng : withoutColon nameCharRanges = normalizeRanges
      (nameStartCharRanges.tail ++ [(0x2D, 0x2E), (0x30, 0x39), (0xB7, 0xB7), (0x300, 0x36F),
        (0x203F, 0x2040)]) := by
    decide +kernel
  rw [hrng, inRanges_normalizeRanges]
  simp [isNameChar, isNameStartChar, InRanges, nameStartCharRanges, between_self, or_assoc]

theorem all_iff {p : ℕ → Bool} {P : ℕ → Prop} {w : List ℕ} (h : ∀ c ∈ w, p c = true ↔ P c) :
    w.all p = true ↔ ∀ c ∈ w, P c := by
  rw [all_eq_true]
  exact forall₂_congr h

end characters

section strings

variable {w : List ℕ}

theorem isValidXmlName_iff {allowColon : Bool} {start rest : List (ℕ × ℕ)}
    (hst : ∀ c, isNameStartChar c allowColon = true ↔ InRanges start c)
    (hrest : ∀ c, isNameChar c allowColon = true ↔ InRanges rest c) :
    isValidXmlName w allowColon = true ↔ StartsAndGoesOn start rest w := by
  cases w with
  | nil =>
    refine iff_of_false nofun ?_
    rintro ⟨c, v, heq, -⟩
    cases heq
  | cons c w =>
    rw [isValidXmlName, Bool.and_eq_true, hst, all_iff fun d _ => hrest d]
    constructor
    · rintro ⟨hc, hw⟩
      exact ⟨c, w, rfl, hc, hw⟩
    · rintro ⟨c', v, heq, hc, hv⟩
      obtain ⟨rfl, rfl⟩ := List.cons.inj heq
      exact ⟨hc, hv⟩

theorem isValidNmtoken_iff : isValidNmtoken w = true ↔ 1 ≤ w.length ∧ ∀ c ∈ w,
    InRanges nameCharRanges c := by
  rw [isValidNmtoken, Bool.and_eq_true, all_iff fun c _ => isNameChar_iff]
  refine and_congr_left' ?_
  cases w with
  | nil => decide
  | cons c w => simp

theorem isValidNormalizedString_iff : isValidNormalizedString w = true ↔ ∀ c ∈ w,
    InRanges normalizedStringRanges c := by
  refine all_iff fun c _ => ?_
  simp [InRanges, normalizedStringRanges, or_assoc]

/-- The blocks after the first one are not empty if no space is last or before another one. -/
theorem splitOn_tail_ne_nil :
    (∀ b ∈ (w.splitOn 0x20).tail, b ≠ []) ↔ w.getLast? ≠ some 0x20 ∧ hasDoubleSpace w = false := by
  induction w with
  | nil => decide
  | cons c w ih =>
    obtain ⟨b, bs, hspl, hb⟩ := exists_splitOn_head w 0x20
    rw [hspl, tail_cons] at ih
    rw [splitOn_cons_eq_if_modifyHead, hspl]
    cases w with
    | nil =>
      obtain ⟨rfl, rfl⟩ := List.cons.inj (hspl.symm.trans (splitOn_nil 0x20))
      by_cases hc : c = 0x20
      · simp [hc]
      · simp [hc, hasDoubleSpace]
    | cons d w =>
      rw [getLast?_cons_cons, hasDoubleSpace]
      by_cases hc : c = 0x20
      · have hhead : b ≠ [] ↔ d ≠ 0x20 := by simpa using hb.not
        simp only [hc, BEq.rfl, if_true, tail_cons, forall_mem_cons, ih, hhead]
        simp
        tauto
      · simp [hc, ih]

theorem isValidToken_iff : isValidToken w = true ↔
    w = [] ∨ ∀ b ∈ w.splitOn 0x20, 1 ≤ b.length ∧ ∀ c ∈ b, InRanges tokenCharRanges c := by
  rw [isValidToken]
  cases hemp : w.isEmpty with
  | true => exact iff_of_true rfl (.inl (List.isEmpty_iff.mp hemp))
  | false =>
    have hne : w ≠ [] := by simpa using hemp
    obtain ⟨b, bs, hspl, hb⟩ := exists_splitOn_head w 0x20
    have htail : (∀ b ∈ bs, b ≠ []) ↔ _ := hspl ▸ splitOn_tail_ne_nil (w := w)
    have hchars : (w.all fun c => c = 0x20 || isTokenChar c) = true ↔ ∀ b ∈ w.splitOn 0x20, ∀ c ∈ b,
        InRanges tokenCharRanges c := by
      rw [all_iff fun c _ => by rw [Bool.or_eq_true, decide_eq_true_eq, isTokenChar_iff]]
      constructor
      · intro hall b hb c hc
        refine (hall c (mem_of_mem_splitOn hb hc)).resolve_left fun heq => ?_
        exact notMem_of_mem_splitOn hb (heq ▸ hc)
      · intro hall c hc
        exact (eq_or_exists_mem_splitOn hc).imp_right fun ⟨b, hb, hc⟩ => hall b hb c hc
    have hblks : (∀ b ∈ w.splitOn 0x20, 1 ≤ b.length) ↔
        ¬ (w.head? = some 0x20 || w.getLast? = some 0x20 || hasDoubleSpace w) = true := by
      have hlen : ∀ b : List ℕ, 1 ≤ b.length ↔ b ≠ [] := fun b => length_pos_iff
      simp only [hlen, hspl, forall_mem_cons, htail, hb.not, Bool.or_eq_true, decide_eq_true_eq]
      simp [hne, and_assoc]
    rw [if_neg Bool.false_ne_true]
    by_cases hspaces : (w.head? = some 0x20 || w.getLast? = some 0x20 || hasDoubleSpace w) = true
    · rw [if_pos hspaces]
      refine iff_of_false Bool.false_ne_true (not_or.mpr ⟨hne, fun hall => ?_⟩)
      exact hblks.mp (fun b hb => (hall b hb).1) hspaces
    · rw [if_neg hspaces, hchars]
      constructor
      · exact fun hall => .inr fun b hb => ⟨hblks.mpr hspaces b hb, hall b hb⟩
      · exact fun hall b hb => (hall.resolve_left hne b hb).2

/-- On ASCII characters the number of bytes is the length. -/
theorem subtagOf_iff {p : ℕ → Bool} {rs : List (ℕ × ℕ)} (hrs : ∀ r ∈ rs, r.2 ≤ 0x7F) {min max : ℕ}
    (hp : ∀ c ∈ w, p c = true ↔ InRanges rs c) : subtagOf p min max w = true ↔
    OfLength rs min max w := by
  have hbytes : (∀ c ∈ w, InRanges rs c) → byteLength w = w.length := fun hall =>
    byteLength_eq_length fun c hc => by
      obtain ⟨r, hr, -, hmax⟩ := hall c hc
      exact hmax.trans (hrs r hr)
  rw [subtagOf, Bool.and_eq_true, Bool.and_eq_true, decide_eq_true_eq, decide_eq_true_eq,
    all_iff hp, OfLength, and_assoc]
  constructor
  · rintro ⟨hmin, hmax, hall⟩
    rw [hbytes hall] at hmin hmax
    exact ⟨hmin, hmax, hall⟩
  · rintro ⟨hmin, hmax, hall⟩
    rw [hbytes hall]
    exact ⟨hmin, hmax, hall⟩

theorem isAsciiAlphabetic_iff {c : ℕ} : isAsciiAlphabetic c = true ↔ InRanges alphaRanges c := by
  simp [isAsciiAlphabetic, isAsciiLowercase, InRanges, alphaRanges]

theorem isAsciiAlphanumeric_iff {c : ℕ} : isAsciiAlphanumeric c = true ↔
    InRanges alnumRanges c := by
  simp [isAsciiAlphanumeric, isAsciiAlphabetic, isAsciiLowercase, isAsciiDigit, InRanges,
    alnumRanges]
  omega

theorem isValidLanguage_iff : isValidLanguage w = true ↔
    ∃ b bs, w.splitOn 0x2D = b :: bs ∧ OfLength alphaRanges 1 8 b ∧ ∀ x ∈ bs,
    OfLength alnumRanges 1 8 x := by
  obtain ⟨b, bs, hspl⟩ := exists_cons_of_ne_nil (splitOn_ne_nil 0x2D w)
  have hval : isValidLanguage w =
      (subtagOf isAsciiAlphabetic 1 8 b && bs.all (subtagOf isAsciiAlphanumeric 1 8)) := by
    rw [isValidLanguage, hspl]
    rfl
  rw [hval, hspl, Bool.and_eq_true, subtagOf_iff (by decide) fun c _ => isAsciiAlphabetic_iff,
    all_eq_true]
  simp only [subtagOf_iff (by decide : ∀ r ∈ alnumRanges, r.2 ≤ 0x7F) fun c _ =>
      isAsciiAlphanumeric_iff]
  constructor
  · rintro ⟨hb, hbs⟩
    exact ⟨b, bs, rfl, hb, hbs⟩
  · rintro ⟨b', bs', heq, hb, hbs⟩
    obtain ⟨rfl, rfl⟩ := List.cons.inj heq
    exact ⟨hb, hbs⟩

end strings

/-! ## Language tags -/

/-- No uppercase letter is in the word. -/
def Lowercase (t : List ℕ) : Prop := ∀ c ∈ t, ¬ (0x41 ≤ c ∧ c ≤ 0x5A)

section tags

variable {t : List ℕ} {bs : List (List ℕ)} {L : Language (List ℕ)}
variable {max min : ℕ} {b : List ℕ}

section

variable (ht : Lowercase t)
include ht

theorem subtagOf_alphabetic :
    subtagOf isAsciiAlphabetic min max t = true ↔ OfLength lowerRanges min max t := by
  refine subtagOf_iff (by decide) fun c hc => ?_
  have := ht c hc
  simp [isAsciiAlphabetic, isAsciiLowercase, InRanges, lowerRanges]
  omega

theorem subtagOf_alphanumeric :
    subtagOf isAsciiAlphanumeric min max t = true ↔ OfLength lowerAlnumRanges min max t := by
  refine subtagOf_iff (by decide) fun c hc => ?_
  have := ht c hc
  simp [isAsciiAlphanumeric, isAsciiAlphabetic, isAsciiLowercase, isAsciiDigit, InRanges,
    lowerAlnumRanges]
  omega

theorem isExtlang_iff : isExtlang t = true ↔ Extlang t := subtagOf_alphabetic ht

theorem isScript_iff : isScript t = true ↔ Script t := subtagOf_alphabetic ht

theorem isRegion_iff : isRegion t = true ↔ Region t := by
  have hdigit : subtagOf isAsciiDigit 3 3 t = true ↔ OfLength digitRanges 3 3 t := by
    refine subtagOf_iff (by decide) fun c _ => ?_
    simp [isAsciiDigit, InRanges, digitRanges]
  rw [isRegion, Bool.or_eq_true, subtagOf_alphabetic ht, hdigit]
  rfl

theorem isVariant_iff : isVariant t = true ↔ Variant t := by
  rw [isVariant, Bool.or_eq_true, subtagOf_alphanumeric ht, Bool.and_eq_true, Bool.and_eq_true,
    decide_eq_true_eq]
  refine or_congr Iff.rfl ?_
  have hchar : ∀ c, (isAsciiDigit c || isAsciiLowercase c) = true ↔
      InRanges lowerAlnumRanges c := by
    intro c
    simp [isAsciiDigit, isAsciiLowercase, InRanges, lowerAlnumRanges]
  have hdigit : ∀ c, isAsciiDigit c = true ↔ InRanges digitRanges c := by
    intro c
    simp [isAsciiDigit, InRanges, digitRanges]
  rw [all_iff fun c _ => hchar c]
  have hbytes : (∀ c ∈ t, InRanges lowerAlnumRanges c) → byteLength t = t.length := fun hall =>
    byteLength_eq_length fun c hc => by
      obtain ⟨r, hr, -, hmax⟩ := hall c hc
      exact hmax.trans ((by decide : ∀ r ∈ lowerAlnumRanges, r.2 ≤ 0x7F) r hr)
  constructor
  · rintro ⟨⟨hlen, hfst⟩, hall⟩
    rw [hbytes hall] at hlen
    cases t with
    | nil => cases hlen
    | cons c v =>
      have hv : v.length = 3 := Nat.succ.inj hlen
      exact ⟨c, v, rfl, (hdigit c).mp hfst, hv.ge, hv.le, (forall_mem_cons.mp hall).2⟩
  · rintro ⟨c, v, rfl, hc, hmin, hmax, hall⟩
    have hall : ∀ d ∈ c :: v, InRanges lowerAlnumRanges d :=
      forall_mem_cons.mpr ⟨inRanges_mono (by decide) hc, hall⟩
    rw [hbytes hall]
    exact ⟨⟨congrArg (· + 1) (Nat.le_antisymm hmax hmin), (hdigit c).mpr hc⟩, hall⟩

theorem isSingleton_iff : isSingleton t = true ↔ Singleton t := by
  rw [isSingleton, Bool.and_eq_true, decide_eq_true_eq, byteLength_eq_one]
  constructor
  · rintro ⟨⟨c, rfl, -⟩, hc⟩
    have hlower := ht c mem_cons_self
    refine ⟨c, ?_, rfl⟩
    simp [isAsciiAlphanumeric, isAsciiAlphabetic, isAsciiLowercase, isAsciiDigit] at hc
    simp [InRanges, singletonRanges]
    omega
  · rintro ⟨c, hc, rfl⟩
    simp [InRanges, singletonRanges] at hc
    refine ⟨⟨c, rfl, by omega⟩, ?_⟩
    simp [isAsciiAlphanumeric, isAsciiAlphabetic, isAsciiLowercase, isAsciiDigit]
    omega

theorem isPrivate_iff : isPrivate t = true ↔ t = [0x78] := by
  rw [isPrivate, Bool.and_eq_true, decide_eq_true_eq, byteLength_eq_one]
  constructor
  · rintro ⟨⟨c, rfl, -⟩, hc⟩
    have hlower := ht c mem_cons_self
    simp at hc
    rw [singleton_inj]
    omega
  · rintro rfl
    exact ⟨⟨0x78, rfl, by decide⟩, rfl⟩

end

variable {p : List ℕ → Bool}

/-- Skipping takes as many subtags of the class as it can. -/
theorem mem_between_mul_iff {P : List ℕ → Prop} (hp : ∀ b ∈ bs, p b = true ↔ P b)
    (hL : FirstIn (fun b => ¬ P b) L) (k : ℕ) : bs ∈ between (letters P) 0 k * L ↔
    skipUpTo p k bs ∈ L := by
  induction k generalizing bs with
  | zero =>
    rw [between_zero_zero, one_mul]
    cases bs with
    | nil | cons b bs => exact Iff.rfl
  | succ k ih =>
    cases bs with
    | nil =>
      change _ ↔ [] ∈ L
      constructor
      · intro h
        obtain ⟨u, -, v, hv, heq⟩ := Language.mem_mul.mp h
        exact (append_eq_nil_iff.mp heq).2 ▸ hv
      · exact fun h => Language.append_mem_mul (nil_mem_between _ _) h
    | cons b bs =>
      obtain ⟨hb, hbs⟩ := forall_mem_cons.mp hp
      rw [cons_mem_between_mul hL, skipUpTo, ih hbs]
      split
      · rename_i h
        simp [hb.mp h]
      · rename_i h
        simp [hb.not.mp h]

theorem skipUpTo_subset {k : ℕ} : skipUpTo p k bs ⊆ bs := by
  fun_induction skipUpTo p k bs with
  | case1 k t bs hp ih => exact fun b hb => mem_cons_of_mem _ (ih hb)
  | case2 k t bs hp => exact fun b hb => hb
  | case3 k bs hcons => exact fun b hb => hb

/-- Nothing but an extension can start with a singleton. -/
theorem mem_extensions_mul_iff (hbs : ∀ b ∈ bs, Lowercase b)
    (hL : FirstIn (fun b => ¬ Singleton b ∧ ¬ ExtensionSubtag b) L) :
    bs ∈ extensions * L ↔ ∃ rest, skipExtensions bs = some rest ∧ rest ∈ L := by
  have hunfold : extensions * L = L + letters Singleton *
      (someOf ExtensionSubtag * (extensions * L)) := by
    conv_lhs => rw [extensions, ← Language.one_add_self_mul_kstar_eq_kstar, add_mul, one_mul,
      ← extensions]
    rw [mul_assoc, mul_assoc]
  have hsgl : ∀ b, Singleton b → ¬ ExtensionSubtag b := by
    rintro _ ⟨c, -, rfl⟩ hext
    exact absurd hext.1 (by simp)
  have hfst : FirstIn (fun b => ¬ ExtensionSubtag b) (extensions * L) :=
    (firstIn_letters_mul hsgl).kstar.mul (hL.mono fun b hb => hb.2)
  fun_induction skipExtensions bs with
  | case1 =>
    rw [hunfold, Language.mem_add]
    constructor
    · rintro (h | h)
      · exact ⟨[], rfl, h⟩
      · exact absurd h nil_notMem_letters_mul
    · rintro ⟨_, ⟨⟩, h⟩
      exact .inl h
  | case2 t bs hsing hemp =>
    obtain ⟨ht, hbs⟩ := forall_mem_cons.mp hbs
    have hsing := (isSingleton_iff ht).mp hsing
    refine iff_of_false ?_ (by simp)
    rw [hunfold, Language.mem_add, cons_mem_letters_mul, someOf,
      mem_pow_one_mul_kstar_mul (p := ExtensionSubtag)
        (fun b hb => subtagOf_alphanumeric (hbs b hb)) hfst]
    rintro (h | ⟨-, hne, -⟩)
    · exact (hL t bs h).1 hsing
    · exact hne (List.isEmpty_iff.mp hemp)
  | case3 t bs hsing hemp ih =>
    obtain ⟨ht, hbs⟩ := forall_mem_cons.mp hbs
    have hsing := (isSingleton_iff ht).mp hsing
    have hrest : bs.dropWhile (subtagOf isAsciiAlphanumeric 2 8) ∈ extensions * L ↔
        ∃ rest, skipExtensions (bs.dropWhile (subtagOf isAsciiAlphanumeric 2 8)) =
          some rest ∧ rest ∈ L :=
      ih fun b hb => hbs b ((dropWhile_suffix _).subset hb)
    rw [hunfold, Language.mem_add, cons_mem_letters_mul, someOf,
      mem_pow_one_mul_kstar_mul (p := ExtensionSubtag)
        (fun b hb => subtagOf_alphanumeric (hbs b hb)) hfst, hrest]
    constructor
    · rintro (h | ⟨-, -, h⟩)
      · exact absurd hsing (hL t bs h).1
      · exact h
    · exact fun h => .inr ⟨hsing, fun heq => hemp (List.isEmpty_iff.mpr heq), h⟩
  | case4 t bs hsing =>
    have hsing := (isSingleton_iff (hbs t mem_cons_self)).not.mp hsing
    rw [hunfold, Language.mem_add, cons_mem_letters_mul]
    constructor
    · rintro (h | ⟨h, -⟩)
      · exact ⟨_, rfl, h⟩
      · exact absurd h hsing
    · rintro ⟨_, ⟨⟩, h⟩
      exact .inl h

variable {rest : List (List ℕ)}

theorem skipExtensions_subset (h : skipExtensions bs = some rest) : rest ⊆ bs := by
  fun_induction skipExtensions bs with
  | case1 =>
    cases h
    exact fun b hb => hb
  | case2 t bs hsing hemp => cases h
  | case3 t bs hsing hemp ih =>
    exact fun b hb => mem_cons_of_mem _ ((dropWhile_suffix _).subset (ih h hb))
  | case4 t bs hsing =>
    cases h
    exact fun b hb => hb

theorem mem_privateuse_iff (hbs : ∀ b ∈ bs, Lowercase b) : bs ∈ privateuse ↔
    skipPrivate bs = some [] := by
  have hone : FirstIn (fun b => ¬ PrivateSubtag b) (1 : Language (List ℕ)) :=
    fun b w hw => nomatch hw
  rw [privateuse, Language.mem_add, Language.mem_one]
  cases bs with
  | nil => exact iff_of_true (.inr rfl) rfl
  | cons t bs =>
    obtain ⟨ht, hbs⟩ := forall_mem_cons.mp hbs
    rw [cons_mem_letters_mul, ← isPrivate_iff ht, ← mul_one (someOf PrivateSubtag), someOf,
      mem_pow_one_mul_kstar_mul (p := PrivateSubtag) (fun b hb => subtagOf_alphanumeric (hbs b hb))
        hone, Language.mem_one, skipPrivate]
    by_cases hpriv : isPrivate t = true
    · rw [if_pos hpriv]
      by_cases hemp : (bs.takeWhile (subtagOf isAsciiAlphanumeric 1 8)).isEmpty = true
      · rw [if_pos hemp]
        simp [List.isEmpty_iff.mp hemp]
      · rw [if_neg hemp]
        have hne := List.isEmpty_iff.not.mp hemp
        simp [hpriv, hne]
    · simp [hpriv]

/-! ### The classes exclude one another -/

theorem StringAutomaton.Variant.length (h : Variant b) : 4 ≤ b.length := by
  rcases h with ⟨hmin, -⟩ | ⟨c, v, rfl, -, hmin, -⟩
  · omega
  · rw [length_cons]
    omega

theorem not_ofLength_lower {c : ℕ} (hc : c ∈ b) (hdigit : InRanges digitRanges c) :
    ¬ OfLength lowerRanges min max b := by
  intro h
  have hlower := h.2.2 c hc
  simp [InRanges, digitRanges, lowerRanges] at hdigit hlower
  omega

theorem StringAutomaton.Variant.not_script (h : Variant b) : ¬ Script b := by
  rcases h with ⟨hmin, -⟩ | ⟨c, v, rfl, hc, -⟩
  · exact fun hscr => absurd hscr.2.1 (by omega)
  · exact not_ofLength_lower mem_cons_self hc

theorem StringAutomaton.Region.not_extlang (h : Region b) : ¬ Extlang b := by
  rcases h with ⟨-, hmax, -⟩ | ⟨hmin, -, hdigit⟩
  · exact fun hextlang => absurd hextlang.1 (by omega)
  · cases b with
    | nil => cases hmin
    | cons c b => exact not_ofLength_lower mem_cons_self (hdigit c mem_cons_self)

theorem StringAutomaton.Region.length (h : Region b) : 2 ≤ b.length ∧ b.length ≤ 3 := by
  rcases h with ⟨hmin, hmax, -⟩ | ⟨hmin, hmax, -⟩
  · omega
  · omega

/-- The scan after the language: what is skipped is of the first class it can be of. -/
theorem mem_afterLanguage_iff (hbs : ∀ b ∈ bs, Lowercase b) : bs ∈ afterLanguage ↔
    ∃ rest, skipExtensions ((skipUpTo isRegion 1 (skipUpTo isScript 1 bs)).dropWhile isVariant) =
    some rest ∧ skipPrivate rest = some [] := by
  have hpriv : FirstIn (· = [0x78]) privateuse :=
    (firstIn_letters_mul fun b hb => hb).add fun b w hw => by cases hw
  have hextension : FirstIn (fun b => b.length = 1) (extensions * privateuse) := by
    refine FirstIn.mul (FirstIn.kstar (firstIn_letters_mul ?_)) (hpriv.mono ?_)
    · rintro _ ⟨c, -, rfl⟩
      rfl
    · rintro _ rfl
      rfl
  have hvar : FirstIn (fun b => b.length = 1 ∨ Variant b)
    (KStar.kstar (letters Variant) * (extensions * privateuse)) :=
    (over_letters fun b => .inr).kstar.firstIn.mul (hextension.mono fun b => .inl)
  have hreg : FirstIn (fun b => (b.length = 1 ∨ Variant b) ∨ Region b)
      (between (letters Region) 0 1 *
        (KStar.kstar (letters Variant) * (extensions * privateuse))) :=
    ((over_letters fun b => .inr).between 0 1).firstIn.mul (hvar.mono fun b => .inl)
  rw [afterLanguage, ← between_zero_one, ← between_zero_one, mul_assoc, mul_assoc, mul_assoc]
  -- The subtags that remain are subtags of the tag.
  have hscr : ∀ b ∈ skipUpTo isScript 1 bs, Lowercase b := fun b hb => hbs b (skipUpTo_subset hb)
  have hlower : ∀ b ∈ skipUpTo isRegion 1 (skipUpTo isScript 1 bs), Lowercase b :=
    fun b hb => hscr b (skipUpTo_subset hb)
  have hrest : ∀ b ∈ (skipUpTo isRegion 1 (skipUpTo isScript 1 bs)).dropWhile isVariant,
    Lowercase b :=
    fun b hb => hlower b ((dropWhile_suffix _).subset hb)
  rw [mem_between_mul_iff fun b hb => isScript_iff (hbs b hb), mem_between_mul_iff fun b hb =>
      isRegion_iff (hscr b hb),
    mem_kstar_letters_mul fun b hb => isVariant_iff (hlower b hb), mem_extensions_mul_iff hrest]
  · refine exists_congr fun rest => and_congr_right fun hskip => ?_
    exact mem_privateuse_iff fun b hb => hrest b (skipExtensions_subset hskip hb)
  · refine hpriv.mono ?_
    rintro _ rfl
    refine ⟨?_, fun h => absurd h.1 (by decide)⟩
    rintro ⟨c, hc, heq⟩
    exact absurd (singleton_inj.mp heq ▸ hc) (by decide)
  · exact hextension.mono fun b hlen hvar => absurd hvar.length (by omega)
  · refine hvar.mono fun b hb hreg => ?_
    have := hreg.length
    rcases hb with hlen | hvar
    · omega
    · have := hvar.length
      omega
  · refine hreg.mono fun b hb hscr => ?_
    have := hscr.1
    rcases hb with (hlen | hvar) | hreg
    · omega
    · exact hvar.not_script hscr
    · have := hreg.length
      omega

/-- No extended language starts what follows the languages. -/
theorem firstIn_afterLanguage : FirstIn (fun b => ¬ Extlang b) afterLanguage := by
  have hextlang : ∀ b, Extlang b → b.length = 3 := fun b hb => Nat.le_antisymm hb.2.1 hb.1
  have hscr : FirstIn (fun b => ¬ Extlang b) (letters Script + 1) := by
    refine (FirstIn.add (Over.firstIn (over_letters fun b hb hext => ?_)) fun b w hw => nomatch hw)
    have := hextlang b hext
    have := hb.1
    omega
  have hreg : FirstIn (fun b => ¬ Extlang b) (letters Region + 1) :=
    (Over.firstIn (over_letters fun b hb => hb.not_extlang)).add fun b w hw => nomatch hw
  have hvar : FirstIn (fun b => ¬ Extlang b) (letters Variant) := by
    refine Over.firstIn (over_letters fun b hb hext => ?_)
    have := hextlang b hext
    have := hb.length
    omega
  have hextension : FirstIn (fun b => ¬ Extlang b) extensions := by
    refine (firstIn_letters_mul ?_).kstar
    rintro _ ⟨c, -, rfl⟩ hext
    cases hextlang _ hext
  have hpriv : FirstIn (fun b => ¬ Extlang b) privateuse := by
    refine (firstIn_letters_mul ?_).add fun b w hw => nomatch hw
    rintro _ rfl hext
    cases hextlang _ hext
  exact (((hscr.mul hreg).mul hvar.kstar).mul hextension).mul hpriv

theorem mem_extlangs_mul_iff (hbs : ∀ b ∈ bs, Lowercase b) (hL : FirstIn (fun b => ¬ Extlang b) L) :
    bs ∈ extlangs * L ↔ skipUpTo isExtlang 3 bs ∈ L := by
  have hextlangs : extlangs = between (letters Extlang) 0 3 := by
    ext w
    rw [extlangs, Language.mem_add]
    refine or_iff_left_of_imp ?_
    rintro rfl
    exact nil_mem_between _ _
  rw [hextlangs, mem_between_mul_iff (fun b hb => isExtlang_iff (hbs b hb)) hL]

theorem languageTag_iff_afterPrimary (ht : Lowercase t) (hbs : ∀ b ∈ bs, Lowercase b) :
    LanguageTag t bs ↔ ∃ rest, afterPrimary t bs = some rest ∧ rest ∈ afterLanguage := by
  have halpha : t.all isAsciiAlphabetic = true ↔ ∀ c ∈ t, InRanges lowerRanges c := by
    refine all_iff fun c hc => ?_
    have := ht c hc
    simp [isAsciiAlphabetic, isAsciiLowercase, InRanges, lowerRanges]
    omega
  rw [LanguageTag, afterPrimary, mem_extlangs_mul_iff hbs firstIn_afterLanguage]
  by_cases hall : ∀ c ∈ t, InRanges lowerRanges c
  · have hbytes : byteLength t = t.length := byteLength_eq_length fun c hc => by
      obtain ⟨r, hr, -, hmax⟩ := hall c hc
      exact hmax.trans ((by decide : ∀ r ∈ lowerRanges, r.2 ≤ 0x7F) r hr)
    have hlen : ∀ min max, OfLength lowerRanges min max t ↔ min ≤ t.length ∧ t.length ≤ max :=
      fun min max => ⟨fun h => ⟨h.1, h.2.1⟩, fun h => ⟨h.1, h.2, hall⟩⟩
    simp only [hlen, hbytes, halpha.mpr hall, Bool.not_true, Bool.false_eq_true, if_false,
        Bool.or_eq_true, Bool.and_eq_true,
      decide_eq_true_eq]
    split_ifs with h23 h4 h58
    · have h4 : ¬ ((4 ≤ t.length ∧ t.length ≤ 4) ∨ (5 ≤ t.length ∧ t.length ≤ 8)) := by omega
      simp [h4, (by omega : 2 ≤ t.length ∧ t.length ≤ 3)]
    · simp [h4]
    · have h23 : ¬ (2 ≤ t.length ∧ t.length ≤ 3) := by omega
      simp [h23, h58]
    · have h23 : ¬ (2 ≤ t.length ∧ t.length ≤ 3) := by omega
      have h48 : ¬ ((4 ≤ t.length ∧ t.length ≤ 4) ∨ (5 ≤ t.length ∧ t.length ≤ 8)) := by omega
      simp [h23, h48]
  · have hnot : ∀ min max, ¬ OfLength lowerRanges min max t := fun min max h => hall h.2.2
    rw [if_pos (by simpa using halpha.not.mpr hall)]
    simp [hnot]

theorem afterPrimary_subset (h : afterPrimary t bs = some rest) : rest ⊆ bs := by
  simp only [afterPrimary] at h
  split_ifs at h
  · cases h
    exact skipUpTo_subset
  · cases h
    exact fun b hb => hb
  · cases h
    exact fun b hb => hb

theorem isValidLanguageBcp47_iff (ht : Lowercase t) :
    isValidLanguageBcp47 t = true ↔ ∃ b bs, t.splitOn dash = b :: bs ∧ LanguageTag b bs := by
  obtain ⟨b, bs, hspl⟩ := exists_cons_of_ne_nil (splitOn_ne_nil dash t)
  have hlower : ∀ x ∈ b :: bs, Lowercase x :=
    fun x hx c hc => ht c (mem_of_mem_splitOn (hspl ▸ hx) hc)
  obtain ⟨hb, hbs⟩ := forall_mem_cons.mp hlower
  have hex : (∃ b bs, t.splitOn dash = b :: bs ∧ LanguageTag b bs) ↔ LanguageTag b bs := by
    constructor
    · rintro ⟨b', bs', heq, htag⟩
      obtain ⟨rfl, rfl⟩ := List.cons.inj (hspl.symm.trans heq)
      exact htag
    · exact fun htag => ⟨b, bs, hspl, htag⟩
  have hscan : LanguageTag b bs ↔ (∃ rest, afterPrimary b bs = some rest ∧ ∃ last, skipExtensions
        ((skipUpTo isRegion 1 (skipUpTo isScript 1 rest)).dropWhile isVariant) = some last ∧
        skipPrivate last = some []) := by
    rw [languageTag_iff_afterPrimary hb hbs]
    refine exists_congr fun rest => and_congr_right fun hrest => ?_
    exact mem_afterLanguage_iff fun x hx => hbs x (afterPrimary_subset hrest hx)
  have hdash : t.splitOn 0x2D = b :: bs := hspl
  rw [hex, isValidLanguageBcp47, hdash]
  by_cases hemp : t.isEmpty = true ∨ (b :: bs).any List.isEmpty = true
  · -- Every subtag of a tag has a character.
    have hnot : ¬ LanguageTag b bs := by
      intro htag
      obtain ⟨hfst, hrest⟩ := htag.subtag
      have hall : ∀ x ∈ b :: bs, x ≠ [] := forall_mem_cons.mpr
        ⟨length_pos_iff.mp hfst.1, fun x hx => length_pos_iff.mp (hrest x hx).1⟩
      rcases hemp with hemp | hany
      · rw [List.isEmpty_iff.mp hemp, splitOn_nil] at hspl
        exact hall b mem_cons_self (List.cons.inj hspl).1.symm
      · obtain ⟨x, hx, hnil⟩ := any_eq_true.mp hany
        exact hall x hx (List.isEmpty_iff.mp hnil)
    refine iff_of_false ?_ hnot
    rcases hemp with hemp | hany
    · rw [if_pos hemp]
      exact Bool.false_ne_true
    · rw [if_pos hany, ite_self]
      exact Bool.false_ne_true
  · obtain ⟨hemp, hany⟩ := not_or.mp hemp
    rw [if_neg hemp, if_neg hany, hscan]
    cases hprim : afterPrimary b bs with
    | none => simp [hprim]
    | some rest =>
      cases hskip : skipExtensions
        ((skipUpTo isRegion 1 (skipUpTo isScript 1 rest)).dropWhile isVariant) with
      | none => simp [hprim, hskip]
      | some last => simp [hprim, hskip]

end tags

end Hermit
