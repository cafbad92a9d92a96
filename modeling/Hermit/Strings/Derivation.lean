import Hermit.Strings.DatatypeLanguages

/-! # Derived string datatypes

Every automaton has its own ranges of characters.  Tokens may have the control characters U+0080 to
U+009F, which normalized strings do not have, and names may have supplementary characters, which
tokens do not have.
-/

namespace Hermit

open List hiding le_refl

namespace StringDatatype

open StringAutomaton Words

/-- The automaton of the datatype runs on a string without a language tag. -/
def Accepts (d : StringDatatype) (s : List ℕ) : Prop :=
  d.datatypeAutomaton.run (s ++ [separator]) = true

/-- The separator at the end does not matter. -/
theorem accepts_iff (d : StringDatatype) {L : Language ℕ} (h : Recognizes d.stringPart L)
    {s : List ℕ} : d.Accepts s ↔ s ∈ L := by
  have hseparator : Recognizes (char separator) {[separator]} := recognizes_char (by decide)
  rw [Accepts, datatypeAutomaton, (h.concatenate hseparator).run_iff, Language.mem_mul]
  constructor
  · rintro ⟨u, hu, _, rfl, heq⟩
    exact append_cancel_right heq ▸ hu
  · exact fun hs => ⟨s, hs, [separator], rfl, rfl⟩

/-- The datatypes with their bases. -/
def derivations : List (StringDatatype × StringDatatype) :=
  [(ncname, name), (name, token), (nmtoken, token), (language, token), (token, normalizedString),
    (normalizedString, string)]

variable {s : List ℕ}

theorem accepts_string : Accepts string s ↔ ∀ c ∈ s, InRanges xmlCharRanges c :=
  accepts_iff string recognizes_anyString

theorem accepts_normalizedString : Accepts normalizedString s ↔ ∀ c ∈ s,
    InRanges normalizedStringRanges c :=
  accepts_iff normalizedString recognizes_normalizedString

theorem accepts_token : Accepts token s ↔ s = [] ∨ ∀ b ∈ s.splitOn 0x20, 1 ≤ b.length ∧ ∀ c ∈ b,
    InRanges tokenCharRanges c :=
  accepts_iff token recognizes_token

theorem accepts_name : Accepts name s ↔ StartsAndGoesOn nameStartCharRanges nameCharRanges s :=
  accepts_iff name recognizes_name

theorem accepts_ncname : Accepts ncname s ↔ StartsAndGoesOn (withoutColon nameStartCharRanges)
    (withoutColon nameCharRanges) s :=
  accepts_iff ncname recognizes_ncname

theorem accepts_nmtoken : Accepts nmtoken s ↔ 1 ≤ s.length ∧ ∀ c ∈ s, InRanges nameCharRanges c :=
  accepts_iff nmtoken recognizes_nmtoken

theorem accepts_language : Accepts language s ↔
    ∃ b bs, s.splitOn 0x2D = b :: bs ∧ OfLength alphaRanges 1 8 b ∧ ∀ x ∈ bs,
    OfLength alnumRanges 1 8 x :=
  accepts_iff language recognizes_xsdLanguage

/-! ## Characters -/

section characters

variable {c : ℕ}

/-- A token character is a character of normalized strings unless it is a control character. -/
theorem inRanges_normalizedString (hc : InRanges tokenCharRanges c) :
    InRanges normalizedStringRanges c ↔ ¬ (0x80 ≤ c ∧ c ≤ 0x9F) := by
  simp only [InRanges, tokenCharRanges, normalizedStringRanges, mem_cons, not_mem_nil, or_false,
      exists_eq_or_imp,
    exists_eq_left] at hc ⊢
  omega

/-- A name character is a token character unless it is a supplementary character. -/
theorem inRanges_tokenChar (hc : InRanges nameCharRanges c) : InRanges tokenCharRanges c ↔
    c ≤ 0xFFFF := by
  have hall : ∀ r ∈ nameCharRanges, (0x21 ≤ r.1 ∧ r.2 ≤ 0xD7FF) ∨ (0xE000 ≤ r.1 ∧ r.2 ≤ 0xFFFD) ∨
      0x10000 ≤ r.1 := by
    decide +kernel
  obtain ⟨r, hr, hmin, hmax⟩ := hc
  have hr := hall r hr
  simp only [InRanges, tokenCharRanges, mem_cons, not_mem_nil, or_false, exists_eq_or_imp,
    exists_eq_left]
  omega

end characters

theorem inRanges_of_accepts_token (h : Accepts token s) : ∀ c ∈ s,
    c = 0x20 ∨ InRanges tokenCharRanges c := by
  rcases accepts_token.mp h with rfl | hblks
  · nofun
  · intro c hc
    rcases (eq_or_exists_mem_splitOn hc : c = 0x20 ∨ _) with hc | ⟨b, hb, hc⟩
    · exact .inl hc
    · exact .inr ((hblks b hb).2 c hc)

theorem accepts_token_of_word (hne : 1 ≤ s.length) (h : ∀ c ∈ s, InRanges tokenCharRanges c) :
    Accepts token s := by
  have hsp : 0x20 ∉ s := notMem_of_inRanges (by decide) h
  have hspl : s.splitOn 0x20 = [s] := by
    refine (splitOn_eq_cons hsp ?_).mpr ?_
    · nofun
    · simp [unblock]
  refine accepts_token.mpr (.inr ?_)
  rw [hspl]
  exact forall_mem_singleton.mpr ⟨hne, h⟩

theorem accepts_normalizedString_of_token (h : Accepts token s) :
    Accepts normalizedString s ↔ ∀ c ∈ s, ¬ (0x80 ≤ c ∧ c ≤ 0x9F) := by
  rw [accepts_normalizedString]
  refine forall₂_congr fun c hc => ?_
  rcases inRanges_of_accepts_token h c hc with rfl | hc
  · decide
  · exact inRanges_normalizedString hc

/-- A word of name characters is a token unless it has a supplementary character. -/
theorem accepts_token_of_nmtoken (h : Accepts nmtoken s) : Accepts token s ↔ ∀ c ∈ s,
    c ≤ 0xFFFF := by
  obtain ⟨hne, hname⟩ := accepts_nmtoken.mp h
  constructor
  · intro htoken c hc
    rcases inRanges_of_accepts_token htoken c hc with rfl | hchar
    · omega
    · exact (inRanges_tokenChar (hname c hc)).mp hchar
  · intro hall
    exact accepts_token_of_word hne fun c hc => (inRanges_tokenChar (hname c hc)).mpr (hall c hc)

theorem accepts_nmtoken_of_name (h : Accepts name s) : Accepts nmtoken s := by
  obtain ⟨c, v, rfl, hc, hv⟩ := accepts_name.mp h
  have hst : InRanges nameCharRanges c := inRanges_mono (by decide +kernel) hc
  exact accepts_nmtoken.mpr ⟨by simp, forall_mem_cons.mpr ⟨hst, hv⟩⟩

theorem accepts_name_of_ncname (h : Accepts ncname s) : Accepts name s := by
  obtain ⟨c, v, rfl, hc, hv⟩ := accepts_ncname.mp h
  exact accepts_name.mpr ⟨c, v, rfl, inRanges_mono (by decide +kernel) hc, fun d hd =>
      inRanges_mono (by decide +kernel) (hv d hd)⟩

theorem accepts_token_of_language (h : Accepts language s) : Accepts token s := by
  obtain ⟨b, bs, hspl, hb, hbs⟩ := accepts_language.mp h
  have hs : s = b ++ unblock 0x2D bs := by
    rw [← intercalate_cons, ← hspl, intercalate_splitOn]
  refine accepts_token_of_word ?_ fun c hc => ?_
  · rw [hs, length_append]
    exact hb.1.trans (Nat.le_add_right _ _)
  · rw [hs, mem_append, unblock, mem_flatMap] at hc
    rcases hc with hc | ⟨b', hb', hc⟩
    · exact inRanges_mono (by decide) (hb.2.2 c hc)
    · rcases mem_cons.mp hc with rfl | hc
      · decide
      · exact inRanges_mono (by decide) ((hbs b' hb').2.2 c hc)

/-- A string of a derived datatype is one of its base unless it is a token with a control character
or a name token with a supplementary character. -/
theorem accepts_base_iff (s : List ℕ) : (∀ d ∈ derivations, d.1.Accepts s → d.2.Accepts s) ↔
    (Accepts token s → ∀ c ∈ s, ¬ (0x80 ≤ c ∧ c ≤ 0x9F)) ∧
    (Accepts nmtoken s → ∀ c ∈ s, c ≤ 0xFFFF) := by
  simp only [derivations, forall_mem_cons, not_mem_nil, false_imp_iff, implies_true, and_true]
  constructor
  · rintro ⟨-, -, hnmtoken, -, htoken, -⟩
    exact ⟨fun h => (accepts_normalizedString_of_token h).mp (htoken h), fun h =>
        (accepts_token_of_nmtoken h).mp (hnmtoken h)⟩
  · rintro ⟨htoken, hnmtoken⟩
    have hbase : Accepts nmtoken s → Accepts token s :=
      fun h => (accepts_token_of_nmtoken h).mpr (hnmtoken h)
    refine ⟨accepts_name_of_ncname, fun h => hbase (accepts_nmtoken_of_name h), hbase,
        accepts_token_of_language,
      fun h => (accepts_normalizedString_of_token h).mpr (htoken h), fun h => ?_⟩
    exact accepts_string.mpr fun c hc =>
        inRanges_mono (by decide) (accepts_normalizedString.mp h c hc)

/-- A token that is no normalized string, and a name that is no token. -/
theorem accepts_base_fails : (Accepts token [0x80] ∧ ¬ Accepts normalizedString [0x80]) ∧
    (Accepts name [0x10000] ∧ ¬ Accepts token [0x10000]) := by
  have htoken : Accepts token [0x80] := accepts_token_of_word (le_refl 1) (by decide)
  have hname : Accepts name [0x10000] := accepts_name.mpr ⟨0x10000, [], rfl, by decide, nofun⟩
  refine ⟨⟨htoken, ?_⟩, hname, ?_⟩
  · rw [accepts_normalizedString_of_token htoken]
    decide
  · rw [accepts_token_of_nmtoken (accepts_nmtoken_of_name hname)]
    decide

end StringDatatype

end Hermit
