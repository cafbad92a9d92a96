import Mathlib

/-! # Words over classes of letters

The languages of regular expressions as conditions on words: what repeats a class of letters is told
by the letters and the length, and a product with a letter that one factor lacks is split there.
-/

namespace Hermit.Words

open List

variable {α : Type*} {p q : α → Prop} {w : List α} {k : ℕ}

/-- The words with a property. -/
def wordsWith (P : List α → Prop) : Language α := {w | P w}

@[simp] theorem mem_wordsWith {P : List α → Prop} : w ∈ wordsWith P ↔ P w := Iff.rfl

/-- The words of one letter of a class. -/
def letters (p : α → Prop) : Language α := {w | ∃ c, p c ∧ w = [c]}

theorem mem_letters : w ∈ letters p ↔ ∃ c, p c ∧ w = [c] := Iff.rfl

theorem mem_pow_letters : w ∈ letters p ^ k ↔ w.length = k ∧ ∀ c ∈ w, p c := by
  induction k generalizing w with
  | zero =>
    rw [pow_zero, Language.mem_one, length_eq_zero_iff]
    constructor
    · rintro rfl
      exact ⟨rfl, nofun⟩
    · exact And.left
  | succ k ih =>
    rw [pow_succ', Language.mem_mul]
    constructor
    · rintro ⟨u, ⟨c, hc, rfl⟩, v, hv, rfl⟩
      obtain ⟨hlen, hall⟩ := ih.mp hv
      exact ⟨by simp [hlen], forall_mem_cons.mpr ⟨hc, hall⟩⟩
    · rintro ⟨hlen, hall⟩
      cases w with
      | nil => cases hlen
      | cons c w =>
        obtain ⟨hc, hall⟩ := forall_mem_cons.mp hall
        exact ⟨[c], ⟨c, hc, rfl⟩, w, ih.mpr ⟨Nat.succ.inj hlen, hall⟩, rfl⟩

theorem mem_kstar_letters : w ∈ KStar.kstar (letters p) ↔ ∀ c ∈ w, p c := by
  rw [Language.kstar_eq_iSup_pow, Language.mem_iSup]
  simp only [mem_pow_letters]
  constructor
  · rintro ⟨k, -, hall⟩
    exact hall
  · exact fun hall => ⟨w.length, rfl, hall⟩

/-- Between some numbers of factors. -/
def between (L : Language α) (min max : ℕ) : Language α := {w | ∃ k, min ≤ k ∧ k ≤ max ∧ w ∈ L ^ k}

theorem between_zero_zero (L : Language α) : between L 0 0 = 1 := by
  ext w
  constructor
  · rintro ⟨k, -, hk, hw⟩
    rwa [Nat.le_zero.mp hk, pow_zero] at hw
  · exact fun hw => ⟨0, le_refl 0, le_refl 0, by rwa [pow_zero]⟩

theorem between_zero_one (L : Language α) : between L 0 1 = L + 1 := by
  ext w
  rw [Language.mem_add]
  constructor
  · rintro ⟨k, -, hk, hw⟩
    rcases Nat.le_one_iff_eq_zero_or_eq_one.mp hk with rfl | rfl
    · exact .inr (by rwa [pow_zero] at hw)
    · exact .inl (by rwa [pow_one] at hw)
  · rintro (hw | hw)
    · exact ⟨1, Nat.zero_le 1, le_refl 1, by rwa [pow_one]⟩
    · exact ⟨0, le_refl 0, Nat.zero_le 1, by rwa [pow_zero]⟩

theorem nil_mem_between (L : Language α) (max : ℕ) : [] ∈ between L 0 max :=
  ⟨0, le_refl 0, Nat.zero_le max, by rw [pow_zero]; rfl⟩

theorem mem_between_letters {min max : ℕ} :
    w ∈ between (letters p) min max ↔ min ≤ w.length ∧ w.length ≤ max ∧ ∀ c ∈ w, p c := by
  constructor
  · rintro ⟨k, hmin, hmax, hw⟩
    obtain ⟨rfl, hall⟩ := mem_pow_letters.mp hw
    exact ⟨hmin, hmax, hall⟩
  · rintro ⟨hmin, hmax, hall⟩
    exact ⟨w.length, hmin, hmax, mem_pow_letters.mpr ⟨rfl, hall⟩⟩

/-- At least one letter. -/
theorem mem_letters_mul_kstar {min : ℕ} :
    w ∈ letters p ^ min * KStar.kstar (letters p) ↔ min ≤ w.length ∧ ∀ c ∈ w, p c := by
  rw [Language.mem_mul]
  constructor
  · rintro ⟨u, hu, v, hv, rfl⟩
    obtain ⟨rfl, hall⟩ := mem_pow_letters.mp hu
    refine ⟨by simp, fun c hc => ?_⟩
    rcases mem_append.mp hc with hc | hc
    · exact hall c hc
    · exact mem_kstar_letters.mp hv c hc
  · rintro ⟨hmin, hall⟩
    refine ⟨w.take min, mem_pow_letters.mpr ⟨length_take_of_le hmin, fun c hc =>
        hall c (mem_of_mem_take hc)⟩,
      w.drop min, mem_kstar_letters.mpr fun c hc => hall c (mem_of_mem_drop hc),
        take_append_drop min w⟩

variable {c : α}

theorem cons_mem_letters_mul {L : Language α} : c :: w ∈ letters p * L ↔ p c ∧ w ∈ L := by
  rw [Language.mem_mul]
  constructor
  · rintro ⟨u, ⟨d, hd, rfl⟩, v, hv, heq⟩
    obtain ⟨rfl, rfl⟩ := List.cons.inj heq
    exact ⟨hd, hv⟩
  · rintro ⟨hc, hw⟩
    exact ⟨[c], ⟨c, hc, rfl⟩, w, hw, rfl⟩

theorem nil_notMem_letters_mul {L : Language α} : [] ∉ letters p * L := by
  rw [Language.mem_mul]
  rintro ⟨u, ⟨c, -, rfl⟩, v, -, heq⟩
  cases heq

/-! ## Letters of the words of a language -/

/-- All letters of the words are in a class. -/
def Over (p : α → Prop) (L : Language α) : Prop := ∀ w ∈ L, ∀ c ∈ w, p c

section wordsOver

variable {L M : Language α}

theorem over_letters (h : ∀ c, q c → p c) : Over p (letters q) := by
  rintro _ ⟨c, hc, rfl⟩
  exact forall_mem_singleton.mpr (h c hc)

theorem over_one : Over p (1 : Language α) := by
  rintro _ rfl
  nofun

theorem Over.add (hL : Over p L) (hM : Over p M) : Over p (L + M) :=
  fun w hw => hw.elim (hL w) (hM w)

theorem Over.mul (hL : Over p L) (hM : Over p M) : Over p (L * M) := by
  intro w hw
  obtain ⟨u, hu, v, hv, rfl⟩ := Language.mem_mul.mp hw
  exact forall_mem_append.mpr ⟨hL u hu, hM v hv⟩

theorem Over.pow (hL : Over p L) (k : ℕ) : Over p (L ^ k) := by
  induction k with
  | zero =>
    rw [pow_zero]
    exact over_one
  | succ k ih =>
    rw [pow_succ]
    exact ih.mul hL

theorem Over.kstar (hL : Over p L) : Over p (KStar.kstar L) := by
  intro w hw
  rw [Language.kstar_eq_iSup_pow, Language.mem_iSup] at hw
  obtain ⟨k, hw⟩ := hw
  exact hL.pow k w hw

theorem Over.between (hL : Over p L) (min max : ℕ) : Over p (between L min max) := by
  rintro w ⟨k, -, -, hw⟩
  exact hL.pow k w hw

end wordsOver

/-! ## First letters -/

/-- The first letters of the words are in a class. -/
def FirstIn (p : α → Prop) (L : Language α) : Prop := ∀ c w, c :: w ∈ L → p c

section firstIn

variable {L M : Language α}

theorem Over.firstIn (hL : Over p L) : FirstIn p L := fun c w hw => hL (c :: w) hw c mem_cons_self

theorem FirstIn.mono (hL : FirstIn p L) (h : ∀ c, p c → q c) : FirstIn q L :=
  fun c w hw => h c (hL c w hw)

theorem FirstIn.add (hL : FirstIn p L) (hM : FirstIn p M) : FirstIn p (L + M) :=
  fun c w hw => hw.elim (hL c w) (hM c w)

theorem FirstIn.mul (hL : FirstIn p L) (hM : FirstIn p M) : FirstIn p (L * M) := by
  intro c w hw
  obtain ⟨u, hu, v, hv, heq⟩ := Language.mem_mul.mp hw
  cases u with
  | nil =>
    rw [nil_append] at heq
    exact hM c w (heq ▸ hv)
  | cons d u =>
    obtain ⟨rfl, -⟩ := List.cons.inj heq
    exact hL d u hu

theorem firstIn_letters_mul (h : ∀ c, q c → p c) : FirstIn p (letters q * L) :=
  fun c _ hw => h c (cons_mem_letters_mul.mp hw).1

theorem FirstIn.kstar (hL : FirstIn p L) : FirstIn p (KStar.kstar L) := by
  intro c w hw
  obtain ⟨ws, heq, hws⟩ := Language.mem_kstar_iff_exists_nonempty.mp hw
  cases ws with
  | nil => cases heq
  | cons u ws =>
    obtain ⟨hu, hne⟩ := hws u mem_cons_self
    cases u with
    | nil => exact absurd rfl hne
    | cons d u =>
      rw [flatten_cons, cons_append] at heq
      obtain ⟨rfl, -⟩ := List.cons.inj heq
      exact hL c u hu

/-- Letters that no word of the second factor starts with can only be of the first one. -/
theorem cons_mem_between_mul {c : α} (hM : FirstIn (fun d => ¬ p d) M) :
    c :: w ∈ between (letters p) 0 (k + 1) * M ↔ (p c ∧ w ∈ between (letters p) 0 k * M) ∨
    (¬ p c ∧ c :: w ∈ M) := by
  rw [Language.mem_mul]
  constructor
  · rintro ⟨u, hu, v, hv, heq⟩
    obtain ⟨-, hlen, hall⟩ := mem_between_letters.mp hu
    cases u with
    | nil =>
      rw [nil_append] at heq
      exact .inr ⟨hM c w (heq ▸ hv), heq ▸ hv⟩
    | cons d u =>
      obtain ⟨rfl, rfl⟩ := List.cons.inj heq
      obtain ⟨hd, hall⟩ := forall_mem_cons.mp hall
      refine .inl
        ⟨hd, Language.append_mem_mul (mem_between_letters.mpr ⟨Nat.zero_le _, ?_, hall⟩) hv⟩
      exact Nat.le_of_succ_le_succ hlen
  · rintro (⟨hc, hw⟩ | ⟨-, hw⟩)
    · obtain ⟨u, hu, v, hv, rfl⟩ := Language.mem_mul.mp hw
      obtain ⟨-, hlen, hall⟩ := mem_between_letters.mp hu
      refine ⟨c :: u, mem_between_letters.mpr ⟨Nat.zero_le _, Nat.succ_le_succ hlen, ?_⟩, v, hv,
        rfl⟩
      exact forall_mem_cons.mpr ⟨hc, hall⟩
    · exact ⟨[], mem_between_letters.mpr ⟨le_refl 0, Nat.zero_le _, nofun⟩, c :: w, hw, rfl⟩

variable {f : α → Bool} (hf : ∀ c ∈ w, f c = true ↔ p c) (hM : FirstIn (fun d => ¬ p d) M)
include hf hM

/-- The longest run of letters is of the first factor. -/
theorem mem_kstar_letters_mul : w ∈ KStar.kstar (letters p) * M ↔ w.dropWhile f ∈ M := by
  rw [Language.mem_mul]
  constructor
  · rintro ⟨u, hu, v, hv, rfl⟩
    have hall := mem_kstar_letters.mp hu
    rw [dropWhile_append_of_pos fun c hc => (hf c (mem_append_left _ hc)).mpr (hall c hc)]
    cases v with
    | nil => exact hv
    | cons c v =>
      have hc := (hf c (mem_append_right _ mem_cons_self)).not.mpr (hM c v hv)
      rwa [dropWhile_cons_of_neg hc]
  · intro hw
    refine ⟨w.takeWhile f, mem_kstar_letters.mpr fun c hc => ?_, w.dropWhile f, hw,
      takeWhile_append_dropWhile⟩
    exact (hf c ((takeWhile_sublist f).subset hc)).mp (mem_takeWhile_imp hc)

/-- A run of letters that is not empty is of the first factor. -/
theorem mem_pow_one_mul_kstar_mul :
    w ∈ letters p ^ 1 * KStar.kstar (letters p) * M ↔ w.takeWhile f ≠ [] ∧ w.dropWhile f ∈ M := by
  rw [pow_one, mul_assoc]
  cases w with
  | nil => exact iff_of_false nil_notMem_letters_mul (by simp)
  | cons c w =>
    obtain ⟨hc, hw⟩ := forall_mem_cons.mp hf
    rw [cons_mem_letters_mul, mem_kstar_letters_mul hw hM]
    by_cases h : f c = true
    · simp [h, hc.mp h]
    · simp [h, hc.not.mp h]

end firstIn

/-! ## Blocks -/

/-- The blocks one after the other, each after a separator. -/
def unblock (sep : α) (bs : List (List α)) : List α := bs.flatMap (sep :: ·)

/-- The words of blocks, each after a separator. -/
def blocks (sep : α) : Language (List α) →+* Language α where
  toFun := Set.image (unblock sep)
  map_zero' := Set.image_empty _
  map_one' := Set.image_singleton
  map_add' := Set.image_union _
  map_mul' _ _ := Set.image_image2_distrib fun _ _ => flatMap_append

variable {sep : α} {K : Language (List α)}

theorem mem_blocks : w ∈ blocks sep K ↔ ∃ bs ∈ K, unblock sep bs = w := Iff.rfl

theorem blocks_kstar (sep : α) (K : Language (List α)) :
    blocks sep (KStar.kstar K) = KStar.kstar (blocks sep K) := by
  ext w
  rw [Language.kstar_eq_iSup_pow, Language.kstar_eq_iSup_pow, mem_blocks, Language.mem_iSup]
  simp only [Language.mem_iSup, ← map_pow, mem_blocks]
  constructor
  · rintro ⟨bs, ⟨k, hbs⟩, rfl⟩
    exact ⟨k, bs, hbs, rfl⟩
  · rintro ⟨k, bs, hbs, rfl⟩
    exact ⟨bs, ⟨k, hbs⟩, rfl⟩

theorem blocks_between (sep : α) (K : Language (List α)) (min max : ℕ) :
    blocks sep (between K min max) = between (blocks sep K) min max := by
  ext w
  rw [mem_blocks]
  constructor
  · rintro ⟨bs, ⟨k, hmin, hmax, hbs⟩, rfl⟩
    refine ⟨k, hmin, hmax, ?_⟩
    rw [← map_pow]
    exact ⟨bs, hbs, rfl⟩
  · rintro ⟨k, hmin, hmax, hw⟩
    rw [← map_pow] at hw
    obtain ⟨bs, hbs, rfl⟩ := hw
    exact ⟨bs, ⟨k, hmin, hmax, hbs⟩, rfl⟩

/-- One block after the separator. -/
theorem singleton_mul_eq_blocks (sep : α) (L : Language α) :
    {[sep]} * L = blocks sep (letters (· ∈ L)) := by
  ext w
  rw [Language.mem_mul, mem_blocks]
  constructor
  · rintro ⟨_, rfl, b, hb, rfl⟩
    exact ⟨[b], ⟨b, hb, rfl⟩, by simp [unblock]⟩
  · rintro ⟨_, ⟨b, hb, rfl⟩, rfl⟩
    exact ⟨[sep], rfl, b, hb, by simp [unblock]⟩

theorem intercalate_cons (sep : α) (b : List α) (bs : List (List α)) :
    [sep].intercalate (b :: bs) = b ++ unblock sep bs := by
  induction bs generalizing b with
  | nil => simp [unblock]
  | cons b' bs ih =>
    rw [intercalate_cons_cons, ih]
    simp [unblock]

variable [DecidableEq α] {b : List α}

/-- Blocks without separators are found by splitting at the separators. -/
theorem splitOn_eq_cons {bs : List (List α)} (hb : sep ∉ b) (hbs : ∀ x ∈ bs, sep ∉ x) :
    w.splitOn sep = b :: bs ↔ w = b ++ unblock sep bs := by
  rw [← intercalate_cons]
  constructor
  · intro h
    rw [← h, intercalate_splitOn]
  · rintro rfl
    exact splitOn_intercalate sep (forall_mem_cons.mpr ⟨hb, hbs⟩) (cons_ne_nil b bs)

theorem notMem_of_mem_splitOn (h : b ∈ w.splitOn sep) : sep ∉ b := by
  induction w generalizing b with
  | nil =>
    rw [splitOn_nil, mem_singleton] at h
    rw [h]
    exact not_mem_nil
  | cons c w ih =>
    rw [splitOn_cons_eq_if_modifyHead] at h
    split at h
    · rcases mem_cons.mp h with rfl | h
      · exact not_mem_nil
      · exact ih h
    · rename_i hc
      cases hspl : w.splitOn sep with
      | nil => exact absurd hspl (splitOn_ne_nil sep w)
      | cons b' bs =>
        rw [hspl, modifyHead_cons] at h
        rcases mem_cons.mp h with rfl | h
        · have hb' : sep ∉ b' := ih (hspl ▸ mem_cons_self)
          rw [mem_cons, not_or]
          exact ⟨fun heq => hc (beq_iff_eq.mpr heq.symm), hb'⟩
        · exact ih (hspl ▸ mem_cons_of_mem _ h)

theorem eq_append_unblock (w : List α) (sep : α) : ∃ b bs,
    w.splitOn sep = b :: bs ∧ w = b ++ unblock sep bs := by
  obtain ⟨b, bs, hspl⟩ := exists_cons_of_ne_nil (splitOn_ne_nil sep w)
  refine ⟨b, bs, hspl, ?_⟩
  rw [← intercalate_cons, ← hspl, intercalate_splitOn]

theorem mem_of_mem_splitOn (h : b ∈ w.splitOn sep) (hc : c ∈ b) : c ∈ w := by
  obtain ⟨b', bs, hspl, hw⟩ := eq_append_unblock w sep
  rw [hspl] at h
  rw [hw, mem_append]
  rcases mem_cons.mp h with rfl | h
  · exact .inl hc
  · exact .inr (mem_flatMap.mpr ⟨b, h, mem_cons_of_mem _ hc⟩)

theorem eq_or_exists_mem_splitOn (hc : c ∈ w) : c = sep ∨ ∃ b ∈ w.splitOn sep, c ∈ b := by
  obtain ⟨b, bs, hspl, hw⟩ := eq_append_unblock w sep
  rw [hw, mem_append] at hc
  rw [hspl]
  rcases hc with hc | hc
  · exact .inr ⟨b, mem_cons_self, hc⟩
  · obtain ⟨b', hb', hc⟩ := mem_flatMap.mp hc
    rcases mem_cons.mp hc with rfl | hc
    · exact .inl rfl
    · exact .inr ⟨b', mem_cons_of_mem _ hb', hc⟩

/-- The first block is empty if there is nothing before a separator. -/
theorem exists_splitOn_head (w : List α) (sep : α) :
    ∃ b bs, w.splitOn sep = b :: bs ∧ (b = [] ↔ w = [] ∨ w.head? = some sep) := by
  cases w with
  | nil => exact ⟨[], [], splitOn_nil sep, by simp⟩
  | cons c w =>
    obtain ⟨b, bs, hspl⟩ := exists_cons_of_ne_nil (splitOn_ne_nil sep w)
    rw [splitOn_cons_eq_if_modifyHead, hspl]
    by_cases hc : c = sep
    · exact ⟨[], b :: bs, by simp [hc], by simp [hc]⟩
    · exact ⟨c :: b, bs, by simp [hc], by simp [hc]⟩

/-- A first block and then others: the blocks of the word between its separators. -/
theorem mem_mul_blocks {L : Language α} (hL : ∀ b ∈ L, sep ∉ b) (hK : Over (sep ∉ ·) K) :
    w ∈ L * blocks sep K ↔ ∃ b ∈ L, ∃ bs ∈ K, w.splitOn sep = b :: bs := by
  rw [Language.mem_mul]
  constructor
  · rintro ⟨b, hb, _, ⟨bs, hbs, rfl⟩, rfl⟩
    exact ⟨b, hb, bs, hbs, (splitOn_eq_cons (hL b hb) (hK bs hbs)).mpr rfl⟩
  · rintro ⟨b, hb, bs, hbs, hspl⟩
    exact ⟨b, hb, _, ⟨bs, hbs, rfl⟩, ((splitOn_eq_cons (hL b hb) (hK bs hbs)).mp hspl).symm⟩

omit [DecidableEq α] in
theorem append_cons_inj {u u' v v' : List α} (hu : sep ∉ u) (hu' : sep ∉ u') :
    u ++ sep :: v = u' ++ sep :: v' ↔ u = u' ∧ v = v' := by
  induction u generalizing u' with
  | nil =>
    cases u' with
    | nil => simp
    | cons c u' =>
      have hne : sep ≠ c := fun heq => hu' (heq ▸ mem_cons_self)
      simp [hne]
  | cons c u ih =>
    cases u' with
    | nil =>
      have hne : c ≠ sep := fun heq => hu (heq ▸ mem_cons_self)
      simp [hne]
    | cons c' u' =>
      have htail := ih (fun h => hu (mem_cons_of_mem _ h)) (fun h => hu' (mem_cons_of_mem _ h))
      rw [cons_append, cons_append, List.cons.injEq, List.cons.injEq, htail, and_assoc]

variable {u v : List α}

omit [DecidableEq α] in
/-- Where the words of the first factor have no separator, a word is split at the first one. -/
theorem append_cons_mem_mul {L M : Language α} (hL : ∀ b ∈ L, sep ∉ b) (hu : sep ∉ u) :
    u ++ sep :: v ∈ L * {[sep]} * M ↔ u ∈ L ∧ v ∈ M := by
  rw [mul_assoc, Language.mem_mul]
  constructor
  · rintro ⟨u', hu', x, hx, heq⟩
    obtain ⟨_, rfl, v', hv', rfl⟩ := Language.mem_mul.mp hx
    obtain ⟨rfl, rfl⟩ := (append_cons_inj (hL u' hu') hu).mp heq
    exact ⟨hu', hv'⟩
  · rintro ⟨hu, hv⟩
    exact ⟨u, hu, sep :: v, Language.mem_mul.mpr ⟨[sep], rfl, v, hv, rfl⟩, rfl⟩

omit [DecidableEq α] in
/-- A word is split at the separator before an optional part. -/
theorem append_cons_mem_mul_optional {L M : Language α} (hL : ∀ b ∈ L, sep ∉ b) (hu : sep ∉ u) :
    u ++ sep :: v ∈ L * ({[sep]} * M + 1) ↔ u ∈ L ∧ v ∈ M := by
  rw [mul_add, ← mul_assoc, mul_one, Language.mem_add, append_cons_mem_mul hL hu]
  refine or_iff_left fun hmem => hL _ hmem ?_
  exact mem_append_right _ mem_cons_self

omit [DecidableEq α] in
theorem mem_mul_optional_of_notMem {L M : Language α} (hw : sep ∉ w) :
    w ∈ L * ({[sep]} * M + 1) ↔ w ∈ L := by
  rw [mul_add, mul_one, Language.mem_add]
  refine or_iff_right fun hmem => hw ?_
  obtain ⟨u, -, x, hx, rfl⟩ := Language.mem_mul.mp hmem
  obtain ⟨_, rfl, v, -, rfl⟩ := Language.mem_mul.mp hx
  exact mem_append_right _ mem_cons_self

omit [DecidableEq α] in
/-- Where the words of the second factor have no separator, a word is split at the last one. -/
theorem append_cons_mem_mul_last {L M : Language α} (hM : ∀ b ∈ M, sep ∉ b) (hv : sep ∉ v) :
    u ++ sep :: v ∈ L * ({[sep]} * M) ↔ u ∈ L ∧ v ∈ M := by
  rw [Language.mem_mul]
  constructor
  · rintro ⟨u', hu', x, hx, heq⟩
    obtain ⟨_, rfl, v', hv', rfl⟩ := Language.mem_mul.mp hx
    -- The words read backwards are split at their first separators.
    have hreverse := congrArg List.reverse heq
    simp only [singleton_append, reverse_append, reverse_cons, append_assoc] at hreverse
    have hboth := (append_cons_inj (by simpa using hM v' hv') (by simpa using hv)).mp hreverse
    rw [reverse_inj, reverse_inj] at hboth
    exact ⟨hboth.2 ▸ hu', hboth.1 ▸ hv'⟩
  · rintro ⟨hu, hv⟩
    exact ⟨u, hu, sep :: v, Language.mem_mul.mpr ⟨[sep], rfl, v, hv, rfl⟩, rfl⟩

end Hermit.Words
