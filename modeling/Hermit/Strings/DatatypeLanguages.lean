import Hermit.Library.Words
import Hermit.Strings.BooleanOperations
import Hermit.Strings.DatatypeAutomata

/-! # The languages of the string datatypes

What each automaton recognizes, as a condition on words.
-/

namespace Hermit

open List hiding le_refl

open Words

/-- A code point of a character. -/
def Scalar (c : ℕ) : Prop := c < 0xD800 ∨ (0xDFFF < c ∧ c ≤ maxCp)

variable {c : ℕ} {rs : List (ℕ × ℕ)}

theorem Scalar.le_maxCp (h : Scalar c) : c ≤ maxCp := by
  have hmax : maxCp = 0x10FFFF := rfl
  rcases h with h | h
  · omega
  · exact h.2

theorem scalar_codePoints (s : String) : ∀ c ∈ codePoints s, Scalar c := by
  intro c hc
  obtain ⟨d, -, rfl⟩ := mem_map.mp hc
  have hval : d.toNat < 0xD800 ∨ 0xDFFF < d.toNat ∧ d.toNat < 0x110000 := d.valid
  exact hval.imp_right fun h => ⟨h.1, Nat.le_of_lt_succ h.2⟩

/-- The code point is in one of the ranges. -/
def InRanges (rs : List (ℕ × ℕ)) (c : ℕ) : Prop := ∃ r ∈ rs, r.1 ≤ c ∧ c ≤ r.2

instance (rs : List (ℕ × ℕ)) (c : ℕ) : Decidable (InRanges rs c) :=
  inferInstanceAs (Decidable (∃ r ∈ rs, _))

variable {rs' : List (ℕ × ℕ)}

theorem inRanges_mono (h : ∀ r ∈ rs, ∃ r' ∈ rs', r'.1 ≤ r.1 ∧ r.2 ≤ r'.2)
    (hc : InRanges rs c) : InRanges rs' c := by
  obtain ⟨r, hr, hmin, hmax⟩ := hc
  obtain ⟨r', hr', hmin', hmax'⟩ := h r hr
  exact ⟨r', hr', hmin'.trans hmin, hmax.trans hmax'⟩

theorem inRanges_cons {r : ℕ × ℕ} : InRanges (r :: rs) c ↔ (r.1 ≤ c ∧ c ≤ r.2) ∨ InRanges rs c := by
  simp [InRanges]

theorem inRanges_append : InRanges (rs ++ rs') c ↔ InRanges rs c ∨ InRanges rs' c := by
  simp only [InRanges, mem_append, or_and_right, exists_or]

variable {out : List (ℕ × ℕ)}

/-- Merging ranges by their first code points keeps the code points. -/
theorem inRanges_mergeRanges (hsort : rs.Pairwise (·.1 ≤ ·.1))
    (hout : ∀ last ∈ out, ∀ r ∈ rs, last.1 ≤ r.1) : InRanges (mergeRanges out rs) c ↔
    InRanges out c ∨ InRanges rs c := by
  fun_induction mergeRanges out rs with
  | case1 out =>
    simp [InRanges]
  | case2 r rs ih =>
    obtain ⟨hfst, hsort⟩ := pairwise_cons.mp hsort
    rw [ih hsort (by simpa using hfst), inRanges_cons, inRanges_cons]
    simp [InRanges]
  | case3 last out r rs hmerge ih =>
    obtain ⟨hfst, hsort⟩ := pairwise_cons.mp hsort
    obtain ⟨hlast, hout⟩ := forall_mem_cons.mp hout
    have hle : last.1 ≤ r.1 := hlast r mem_cons_self
    rw [ih hsort, inRanges_cons, inRanges_cons, inRanges_cons]
    · have hboth : (last.1 ≤ c ∧ c ≤ max last.2 r.2) ↔
        (last.1 ≤ c ∧ c ≤ last.2) ∨ (r.1 ≤ c ∧ c ≤ r.2) := by omega
      rw [hboth, or_assoc, or_or_or_comm]
    · refine forall_mem_cons.mpr ⟨fun x hx => hlast x (mem_cons_of_mem _ hx), ?_⟩
      exact fun x hx y hy => hout x hx y (mem_cons_of_mem _ hy)
  | case4 last out r rs hmerge ih =>
    obtain ⟨hfst, hsort⟩ := pairwise_cons.mp hsort
    rw [ih hsort, inRanges_cons, inRanges_cons, inRanges_cons]
    · rw [or_assoc, or_left_comm]
    · exact forall_mem_cons.mpr ⟨hfst, fun x hx y hy => hout x hx y (mem_cons_of_mem _ hy)⟩

theorem mergeRanges_le {m : ℕ} (hout : ∀ r ∈ out, r.2 ≤ m) (hrs : ∀ r ∈ rs, r.2 ≤ m) :
    ∀ r ∈ mergeRanges out rs, r.2 ≤ m := by
  fun_induction mergeRanges out rs with
  | case1 out => exact fun r hr => hout r (mem_reverse.mp hr)
  | case2 r rs ih =>
    obtain ⟨hr, hrs⟩ := forall_mem_cons.mp hrs
    exact ih (forall_mem_singleton.mpr hr) hrs
  | case3 last out r rs hmerge ih =>
    obtain ⟨hr, hrs⟩ := forall_mem_cons.mp hrs
    obtain ⟨hlast, hout⟩ := forall_mem_cons.mp hout
    exact ih (forall_mem_cons.mpr ⟨max_le hlast hr, hout⟩) hrs
  | case4 last out r rs hmerge ih =>
    obtain ⟨hr, hrs⟩ := forall_mem_cons.mp hrs
    exact ih (forall_mem_cons.mpr ⟨hr, hout⟩) hrs

theorem normalizeRanges_le {m : ℕ} (hrs : ∀ r ∈ rs, r.2 ≤ m) : ∀ r ∈ normalizeRanges rs,
    r.2 ≤ m := by
  refine mergeRanges_le (fun r hr => absurd hr not_mem_nil) fun r hr => ?_
  exact hrs r (mem_of_mem_filter (mem_insertionSort _ |>.mp hr))

theorem inRanges_normalizeRanges : InRanges (normalizeRanges rs) c ↔ InRanges rs c := by
  have htotal : Std.Total fun a b : ℕ × ℕ => a.1 < b.1 ∨ (a.1 = b.1 ∧ a.2 ≤ b.2) :=
    ⟨fun a b => by omega⟩
  have htrans : IsTrans (ℕ × ℕ) fun a b => a.1 < b.1 ∨ (a.1 = b.1 ∧ a.2 ≤ b.2) :=
    ⟨fun a b c hab hbc => by omega⟩
  have hsort := pairwise_insertionSort (fun a b : ℕ × ℕ => a.1 < b.1 ∨ (a.1 = b.1 ∧ a.2 ≤ b.2))
    (rs.filter fun r => r.1 ≤ r.2)
  have hfst := hsort.imp (S := (·.1 ≤ ·.1)) fun {a b} hab => by omega
  rw [normalizeRanges, inRanges_mergeRanges hfst (by simp)]
  have hmem : ∀ r, r ∈ (rs.filter fun r => r.1 ≤ r.2).insertionSort
    (fun a b => a.1 < b.1 ∨ (a.1 = b.1 ∧ a.2 ≤ b.2)) ↔ r ∈ rs ∧ r.1 ≤ r.2 := by
    intro r
    rw [mem_insertionSort, mem_filter, decide_eq_true_eq]
  constructor
  · rintro (⟨r, hr, -⟩ | ⟨r, hr, hc⟩)
    · cases hr
    · exact ⟨r, ((hmem r).mp hr).1, hc⟩
  · rintro ⟨r, hr, hmin, hmax⟩
    exact .inr ⟨r, (hmem r).mpr ⟨hr, hmin.trans hmax⟩, hmin, hmax⟩

namespace StringAutomaton

/-- The automaton is sound, and its language is known. -/
structure Recognizes (a : StringAutomaton) (L : Language ℕ) : Prop where
  wellFormed : a.WellFormed
  language : a.language = L

namespace Recognizes

variable {a b : StringAutomaton} {L M : Language ℕ}

theorem run_iff (h : Recognizes a L) {w : List ℕ} : a.run w = true ↔ w ∈ L := by
  rw [h.wellFormed.run_iff, h.language]

theorem congr (h : Recognizes a L) (hiff : ∀ w, w ∈ L ↔ w ∈ M) : Recognizes a M :=
  ⟨h.wellFormed, h.language.trans (Language.ext hiff)⟩

theorem le_maxCp (h : Recognizes a L) {w : List ℕ} (hw : w ∈ L) : ∀ c ∈ w, c ≤ maxCp :=
  h.wellFormed.le_maxCp (h.language.symm ▸ hw)

theorem concatenate (ha : Recognizes a L) (hb : Recognizes b M) :
    Recognizes (a.concatenate b) (L * M) :=
  ⟨ha.wellFormed.concatenate hb.wellFormed,
    by rw [ha.wellFormed.language_concatenate, ha.language, hb.language]⟩

theorem union (ha : Recognizes a L) (hb : Recognizes b M) : Recognizes (a.union b) (L + M) :=
  ⟨ha.wellFormed.union hb.wellFormed,
    by rw [ha.wellFormed.language_union hb.wellFormed, ha.language, hb.language]⟩

theorem «repeat» (ha : Recognizes a L) : Recognizes a.repeat (KStar.kstar L) :=
  ⟨ha.wellFormed.repeat, by rw [ha.wellFormed.language_repeat, ha.language]⟩

theorem repeatMin (ha : Recognizes a L) (min : ℕ) :
    Recognizes (a.repeatMin min) (L ^ min * KStar.kstar L) :=
  ⟨ha.wellFormed.repeatMin min, by rw [ha.wellFormed.language_repeatMin, ha.language]⟩

theorem repeatRange (ha : Recognizes a L) (min max : ℕ) :
    Recognizes (a.repeatRange min max) (between L min max) := by
  refine ⟨ha.wellFormed.repeatRange min max, ?_⟩
  ext w
  rw [ha.wellFormed.mem_language_repeatRange, ha.language]
  rfl

theorem optional (ha : Recognizes a L) : Recognizes a.optional (L + 1) :=
  ⟨ha.wellFormed.optional, by rw [ha.wellFormed.language_optional, ha.language]⟩

theorem intersection (ha : Recognizes a L) (hb : Recognizes b M) :
    Recognizes (a.intersection b) (wordsWith fun w => w ∈ L ∧ w ∈ M) := by
  refine ⟨ha.wellFormed.intersection hb.wellFormed, ?_⟩
  ext w
  rw [ha.wellFormed.mem_language_intersection hb.wellFormed, ha.language, hb.language]
  rfl

theorem minus (ha : Recognizes a L) (hb : Recognizes b M) :
    Recognizes (a.minus b) (wordsWith fun w => w ∈ L ∧ w ∉ M) := by
  have hminus := ha.wellFormed.minus hb.wellFormed
  refine ⟨hminus, ?_⟩
  ext w
  by_cases hw : ∀ c ∈ w, c ≤ maxCp
  · rw [ha.wellFormed.mem_language_minus hb.wellFormed hw, ha.language, hb.language]
    rfl
  · exact iff_of_false (fun hmem => hw (hminus.le_maxCp hmem)) fun hmem => hw (ha.le_maxCp hmem.1)

theorem determinize (ha : Recognizes a L) : Recognizes a.determinize L :=
  ⟨ha.wellFormed.determinize, by rw [ha.wellFormed.language_determinize, ha.language]⟩

end Recognizes

theorem recognizes_epsilon : Recognizes epsilon 1 := ⟨wellFormed_epsilon, language_epsilon⟩

variable {rs : List (ℕ × ℕ)}

open Automata in
theorem recognizes_ranges (hmax : ∀ r ∈ rs, r.2 ≤ maxCp) :
    Recognizes (ranges rs) (letters (InRanges rs)) := by
  refine ⟨wellFormed_ranges hmax, ?_⟩
  have hstep : ∀ c q, q ∈ (ranges rs).toNFA.step 0 (some c) ↔ q = 1 ∧ InRanges rs c := by
    intro c q
    rw [mem_step_some]
    constructor
    · rintro ⟨t, ht, hmin, hmax, rfl⟩
      obtain ⟨r, hr, rfl⟩ := mem_map.mp ht
      exact ⟨rfl, r, (mem_filter.mp hr).1, hmin, hmax⟩
    · rintro ⟨rfl, r, hr, hmin, hmax⟩
      refine ⟨⟨r.1, r.2, 1⟩, mem_map_of_mem (mem_filter.mpr ⟨hr, ?_⟩), hmin, hmax, rfl⟩
      exact decide_eq_true (hmin.trans hmax)
  have hfwd : Forward (ranges rs).toNFA fun q =>
      (wordsWith fun w => (q = 0 ∧ w = []) ∨ (q = 1 ∧ w ∈ letters (InRanges rs))) := by
    intro s l q hq w hw
    cases l with
    | none =>
      match s with
      | 0 => cases hq
      | 1 => cases hq
      | s + 2 => cases hq
    | some c =>
      rcases hw with ⟨rfl, rfl⟩ | ⟨rfl, -⟩
      · obtain ⟨rfl, hc⟩ := (hstep c q).mp hq
        exact .inr ⟨rfl, c, hc, rfl⟩
      · obtain ⟨t, ht, -⟩ := hq
        cases ht
  ext w
  rw [mem_language]
  constructor
  · rintro ⟨q, hq, hw⟩
    rcases hfwd.mem_of_wordsTo (.inl ⟨rfl, rfl⟩) hw with ⟨rfl, -⟩ | ⟨-, hw⟩
    · cases hq
    · exact hw
  · rintro ⟨c, hc, rfl⟩
    refine ⟨1, ?_, wordsTo_step ((hstep c 1).mpr ⟨rfl, hc⟩) (nil_mem_wordsTo 0)⟩
    obtain ⟨r, hr, hmin, hmax⟩ := hc
    have hne : (rs.filter fun i => i.1 ≤ i.2) ≠ [] :=
      ne_nil_of_mem (mem_filter.mpr ⟨hr, decide_eq_true (hmin.trans hmax)⟩)
    change (!(rs.filter fun i => i.1 ≤ i.2).isEmpty) = true
    rw [Bool.not_eq_true', isEmpty_eq_false_iff]
    exact hne

theorem recognizes_char {c : ℕ} (hc : c ≤ maxCp) : Recognizes (char c) {[c]} := by
  have hrng : Recognizes (char c) (letters (InRanges [(c, c)])) :=
    recognizes_ranges (by simpa using hc)
  refine hrng.congr fun w => ?_
  rw [mem_letters]
  constructor
  · rintro ⟨d, ⟨r, hr, hmin, hmax⟩, rfl⟩
    cases mem_singleton.mp hr
    rw [Nat.le_antisymm hmax hmin]
    rfl
  · rintro rfl
    exact ⟨c, ⟨(c, c), mem_singleton_self _, le_refl c, le_refl c⟩, rfl⟩

theorem recognizes_literal {s : List ℕ} (hs : ∀ c ∈ s, c ≤ maxCp) : Recognizes (literal s) {s} := by
  have hfold : ∀ (s : List ℕ) (a : StringAutomaton) (before : List ℕ), (∀ c ∈ s, c ≤ maxCp) →
    Recognizes a {before} →
      Recognizes (s.foldl (fun a c => a.concatenate (char c)) a) {before ++ s} := by
    intro s
    induction s with
    | nil =>
      intro a before _ ha
      rwa [append_nil]
    | cons c s ih =>
      intro a before hs ha
      obtain ⟨hc, hs⟩ := forall_mem_cons.mp hs
      have hnext := (ha.concatenate (recognizes_char hc)).congr (M := {before ++ [c]}) fun w => by
        rw [Language.mem_mul]
        constructor
        · rintro ⟨_, rfl, _, rfl, rfl⟩
          rfl
        · rintro rfl
          exact ⟨before, rfl, [c], rfl, rfl⟩
      rw [append_cons]
      exact ih _ _ hs hnext
  exact hfold s epsilon [] hs recognizes_epsilon

/-! ## Strings -/

section

variable (hmax : ∀ r ∈ rs, r.2 ≤ maxCp)
include hmax

theorem recognizes_repeat_ranges :
    Recognizes (ranges rs).repeat (wordsWith fun w => ∀ c ∈ w, InRanges rs c) :=
  (recognizes_ranges hmax).repeat.congr fun _ => mem_kstar_letters

theorem recognizes_repeatMin_ranges (min : ℕ) : Recognizes ((ranges rs).repeatMin min)
    (wordsWith fun w => min ≤ w.length ∧ ∀ c ∈ w, InRanges rs c) :=
  ((recognizes_ranges hmax).repeatMin min).congr fun _ => mem_letters_mul_kstar

theorem recognizes_repeatRange_ranges (min max : ℕ) : Recognizes ((ranges rs).repeatRange min max)
    (wordsWith fun w => min ≤ w.length ∧ w.length ≤ max ∧ ∀ c ∈ w, InRanges rs c) :=
  ((recognizes_ranges hmax).repeatRange min max).congr fun _ => mem_between_letters

end

def normalizedStringRanges : List (ℕ × ℕ) := [(0x20, 0x7F), (0xA0, 0xD7FF), (0xE000, 0xFFFD)]

def tokenCharRanges : List (ℕ × ℕ) := [(0x21, 0xD7FF), (0xE000, 0xFFFD)]

theorem recognizes_anyString : Recognizes anyString
    (wordsWith fun w => ∀ c ∈ w, InRanges xmlCharRanges c) :=
  recognizes_repeat_ranges (by decide)

theorem recognizes_normalizedString : Recognizes normalizedString
    (wordsWith fun w => ∀ c ∈ w, InRanges normalizedStringRanges c) :=
  recognizes_repeat_ranges (by decide)

/-- One or more blocks of a language, with separators between them. -/
theorem mem_mul_kstar_blocks {sep : ℕ} {L : Language ℕ} (hL : ∀ b ∈ L, sep ∉ b) {w : List ℕ} :
    w ∈ L * KStar.kstar ({[sep]} * L) ↔ ∀ b ∈ w.splitOn sep, b ∈ L := by
  rw [singleton_mul_eq_blocks, ← blocks_kstar, mem_mul_blocks hL]
  · constructor
    · rintro ⟨b, hb, bs, hbs, hspl⟩
      rw [hspl]
      exact forall_mem_cons.mpr ⟨hb, mem_kstar_letters.mp hbs⟩
    · intro hall
      cases hspl : w.splitOn sep with
      | nil => exact absurd hspl (splitOn_ne_nil sep w)
      | cons b bs =>
        rw [hspl] at hall
        obtain ⟨hb, hbs⟩ := forall_mem_cons.mp hall
        exact ⟨b, hb, bs, mem_kstar_letters.mpr hbs, rfl⟩
  · intro bs hbs b hb
    exact hL b (mem_kstar_letters.mp hbs b hb)

theorem notMem_of_inRanges {sep : ℕ} (hsep : ¬ InRanges rs sep) {b : List ℕ}
    (hb : ∀ c ∈ b, InRanges rs c) :
    sep ∉ b := fun hmem => hsep (hb sep hmem)

theorem recognizes_token : Recognizes token
    (wordsWith fun w => w = [] ∨ ∀ b ∈ w.splitOn 0x20, 1 ≤ b.length ∧ ∀ c ∈ b,
      InRanges tokenCharRanges c) := by
  have hword : Recognizes _ (wordsWith fun w => 1 ≤ w.length ∧ ∀ c ∈ w,
    InRanges tokenCharRanges c) :=
    recognizes_repeatMin_ranges (by decide) 1
  have hsp : Recognizes (char 0x20) {[0x20]} := recognizes_char (by decide)
  refine ((hword.concatenate (hsp.concatenate hword).repeat).optional).congr fun w => ?_
  rw [Language.mem_add, Language.mem_one, or_comm, mem_mul_kstar_blocks]
  · rfl
  · intro b hb
    exact notMem_of_inRanges (by decide) hb.2

/-! ## Names -/

/-- A character of one class and then characters of another. -/
def StartsAndGoesOn (start rest : List (ℕ × ℕ)) (w : List ℕ) : Prop :=
  ∃ c v, w = c :: v ∧ InRanges start c ∧ ∀ d ∈ v, InRanges rest d

theorem recognizes_startsAndGoesOn {start rest : List (ℕ × ℕ)} (hst : ∀ r ∈ start, r.2 ≤ maxCp)
    (hrest : ∀ r ∈ rest, r.2 ≤ maxCp) :
    Recognizes ((ranges start).concatenate (ranges rest).repeat)
    (wordsWith fun w => StartsAndGoesOn start rest w) := by
  refine ((recognizes_ranges hst).concatenate (recognizes_repeat_ranges hrest)).congr fun w => ?_
  rw [Language.mem_mul]
  constructor
  · rintro ⟨_, ⟨c, hc, rfl⟩, v, hv, rfl⟩
    exact ⟨c, v, rfl, hc, hv⟩
  · rintro ⟨c, v, rfl, hc, hv⟩
    exact ⟨[c], ⟨c, hc, rfl⟩, v, hv, rfl⟩

theorem nameCharRanges_le : ∀ r ∈ nameCharRanges, r.2 ≤ maxCp := by decide +kernel

def withoutColon (rs : List (ℕ × ℕ)) : List (ℕ × ℕ) := subtractRanges rs [(0x3A, 0x3A)]

theorem recognizes_name : Recognizes name
    (wordsWith fun w => StartsAndGoesOn nameStartCharRanges nameCharRanges w) :=
  recognizes_startsAndGoesOn (by decide) nameCharRanges_le

theorem recognizes_ncname : Recognizes ncname (wordsWith fun w =>
      StartsAndGoesOn (withoutColon nameStartCharRanges) (withoutColon nameCharRanges) w) :=
  recognizes_startsAndGoesOn (by decide +kernel) (by decide +kernel)

theorem recognizes_nmtoken : Recognizes nmtoken
    (wordsWith fun w => 1 ≤ w.length ∧ ∀ c ∈ w, InRanges nameCharRanges c) :=
  recognizes_repeatMin_ranges nameCharRanges_le 1

def alphaRanges : List (ℕ × ℕ) := [(0x41, 0x5A), (0x61, 0x7A)]

def alnumRanges : List (ℕ × ℕ) := [(0x30, 0x39), (0x41, 0x5A), (0x61, 0x7A)]

/-- Some number of characters of a class. -/
def OfLength (rs : List (ℕ × ℕ)) (min max : ℕ) (w : List ℕ) : Prop :=
  min ≤ w.length ∧ w.length ≤ max ∧ ∀ c ∈ w, InRanges rs c

instance (rs : List (ℕ × ℕ)) (min max : ℕ) (w : List ℕ) : Decidable (OfLength rs min max w) :=
  inferInstanceAs (Decidable (_ ∧ _ ∧ _))

theorem recognizes_xsdLanguage : Recognizes xsdLanguage
    (wordsWith fun w => ∃ b bs, w.splitOn 0x2D = b :: bs ∧ OfLength alphaRanges 1 8 b ∧ ∀ x ∈ bs,
      OfLength alnumRanges 1 8 x) := by
  have hprim : Recognizes _ (wordsWith fun w => OfLength alphaRanges 1 8 w) :=
    recognizes_repeatRange_ranges (by decide) 1 8
  have hsub : Recognizes _ (wordsWith fun w => OfLength alnumRanges 1 8 w) :=
    recognizes_repeatRange_ranges (by decide) 1 8
  have hdash : Recognizes (char 0x2D) {[0x2D]} := recognizes_char (by decide)
  refine (hprim.concatenate (hdash.concatenate hsub).repeat).congr fun w => ?_
  rw [singleton_mul_eq_blocks, ← blocks_kstar, mem_mul_blocks]
  · constructor
    · rintro ⟨b, hb, bs, hbs, hspl⟩
      exact ⟨b, bs, hspl, hb, mem_kstar_letters.mp hbs⟩
    · rintro ⟨b, bs, hspl, hb, hbs⟩
      exact ⟨b, hb, bs, mem_kstar_letters.mpr hbs, hspl⟩
  · intro b hb
    exact notMem_of_inRanges (by decide) hb.2.2
  · intro bs hbs b hb
    exact notMem_of_inRanges (by decide) (mem_kstar_letters.mp hbs b hb).2.2

end StringAutomaton

end Hermit
