import Hermit.Datatypes.DataRanges

/-! # The order keys of floating-point numbers

The keys order all bits except those of NaN from minus infinity to infinity, with the negative zero
just below the other one.
-/

namespace Hermit.Datatypes

section bits

variable {w m : ℕ} {a b : BitVec w}

/-! ## Signs and magnitudes -/

theorem msb_iff : a.msb = true ↔ 2 ^ (w - 1) ≤ a.toNat := by
  rw [BitVec.msb_eq_decide, decide_eq_true_eq]

theorem two_mul_half (hw : 0 < w) : 2 * 2 ^ (w - 1) = 2 ^ w := by
  rw [← pow_succ', Nat.sub_add_cancel hw]

theorem magnitude_lt (a : BitVec w) : magnitude a < 2 ^ (w - 1) := Nat.mod_lt _ (Nat.two_pow_pos _)

theorem toNat_eq (hw : 0 < w) (a : BitVec w) : a.toNat =
    (if a.msb then 2 ^ (w - 1) else 0) + magnitude a := by
  have hlt : a.toNat < 2 ^ w := a.isLt
  have hhalf := two_mul_half hw
  rw [magnitude]
  split
  · rename_i hmsb
    have hle := msb_iff.mp hmsb
    rw [Nat.mod_eq_sub_mod hle, Nat.mod_eq_of_lt (by omega)]
    omega
  · rename_i hmsb
    have hlt' : a.toNat < 2 ^ (w - 1) := Nat.lt_of_not_le fun hle => hmsb (msb_iff.mpr hle)
    rw [Nat.mod_eq_of_lt hlt', Nat.zero_add]

/-- The sign and the magnitude are all there is. -/
theorem eq_of_magnitude (hw : 0 < w) (hmsb : a.msb = b.msb)
    (h : magnitude a = magnitude b) : a = b := by
  apply BitVec.eq_of_toNat_eq
  rw [toNat_eq hw, toNat_eq hw b, hmsb, h]

theorem toNat_orderKey (hw : 0 < w) (a : BitVec w) :
    (orderKey a).toNat = if a.msb then 2 ^ (w - 1) - 1 - magnitude a else 2 ^
    (w - 1) + magnitude a := by
  have hhalf := two_mul_half hw
  have hmagnitude := magnitude_lt a
  rw [orderKey]
  cases hmsb : a.msb with
  | true =>
    have htoNat := toNat_eq hw a
    rw [hmsb, if_pos rfl] at htoNat
    rw [if_pos rfl, if_pos rfl, BitVec.toNat_not, htoNat]
    omega
  | false =>
    have htoNat := toNat_eq hw a
    rw [hmsb, if_neg Bool.false_ne_true] at htoNat
    rw [if_neg Bool.false_ne_true, if_neg Bool.false_ne_true, BitVec.toNat_or, BitVec.toNat_intMin,
      Nat.mod_eq_of_lt (by omega), htoNat, Nat.zero_add, Nat.or_comm]
    have hor := Nat.two_pow_add_eq_or_of_lt hmagnitude 1
    rw [Nat.mul_one] at hor
    exact hor.symm

theorem msb_orderKey (hw : 0 < w) (a : BitVec w) : (orderKey a).msb = !a.msb := by
  rw [orderKey]
  cases hmsb : a.msb with
  | true => rw [if_pos rfl, BitVec.msb_not, hmsb]; simp [hw]
  | false => rw [if_neg Bool.false_ne_true, BitVec.msb_or, BitVec.msb_intMin]; simp [hw]

theorem msb_fromOrderKey (hw : 0 < w) (k : BitVec w) : (fromOrderKey k).msb = !k.msb := by
  rw [fromOrderKey]
  cases hmsb : k.msb with
  | true => rw [if_pos rfl, BitVec.msb_and, BitVec.msb_not, BitVec.msb_intMin]; simp [hw]
  | false => rw [if_neg Bool.false_ne_true, BitVec.msb_not, hmsb]; simp [hw]

/-- Setting the sign and clearing it again, or the other way around. -/
theorem or_intMin_and_not (h : a.msb = false) :
    (a ||| BitVec.intMin w) &&& ~~~BitVec.intMin w = a := by
  ext i hi
  have hlast : a.getLsbD (w - 1) = false := by rw [← BitVec.msb_eq_getLsbD_last, h]
  have hsign : (BitVec.intMin w)[i] = decide (i = w - 1) := by
    rw [← BitVec.getLsbD_eq_getElem, BitVec.getLsbD_intMin]
    exact decide_eq_decide.mpr (by omega)
  rw [BitVec.getElem_and, BitVec.getElem_or, BitVec.getElem_not, hsign]
  by_cases heq : i = w - 1
  · subst heq
    simp [← BitVec.getLsbD_eq_getElem, hlast]
  · simp [heq]

theorem and_not_or_intMin (h : a.msb = true) : (a &&& ~~~BitVec.intMin w) ||| BitVec.intMin w = a :=
  by
  ext i hi
  have hlast : a.getLsbD (w - 1) = true := by rw [← BitVec.msb_eq_getLsbD_last, h]
  have hsign : (BitVec.intMin w)[i] = decide (i = w - 1) := by
    rw [← BitVec.getLsbD_eq_getElem, BitVec.getLsbD_intMin]
    exact decide_eq_decide.mpr (by omega)
  rw [BitVec.getElem_or, BitVec.getElem_and, BitVec.getElem_not, hsign]
  by_cases heq : i = w - 1
  · subst heq
    simp [← BitVec.getLsbD_eq_getElem, hlast]
  · simp [heq]

theorem fromOrderKey_orderKey (hw : 0 < w) (a : BitVec w) : fromOrderKey (orderKey a) = a := by
  have hkey := msb_orderKey hw a
  cases hmsb : a.msb with
  | true =>
    rw [fromOrderKey, hkey, hmsb, orderKey, hmsb]
    exact BitVec.not_not
  | false =>
    rw [fromOrderKey, hkey, hmsb, orderKey, hmsb]
    exact or_intMin_and_not hmsb

theorem orderKey_fromOrderKey (hw : 0 < w) (k : BitVec w) : orderKey (fromOrderKey k) = k := by
  have hkey := msb_fromOrderKey hw k
  cases hmsb : k.msb with
  | true =>
    rw [orderKey, hkey, hmsb, fromOrderKey, hmsb]
    exact and_not_or_intMin hmsb
  | false =>
    rw [orderKey, hkey, hmsb, fromOrderKey, hmsb]
    exact BitVec.not_not

/-! ## Numbers -/

/-- The multiple of the smallest positive number that has a magnitude. -/
def steps (m n : ℕ) : ℕ := if n / 2 ^ m = 0 then n % 2 ^ m else (n % 2 ^ m + 2 ^ m) *
    2 ^ (n / 2 ^ m - 1)

theorem strictMono_steps (m : ℕ) : StrictMono (steps m) := by
  refine strictMono_nat_of_lt_succ fun n => ?_
  have hpos : 0 < 2 ^ m := Nat.two_pow_pos m
  have hdiv := Nat.div_add_mod n (2 ^ m)
  have hmod := Nat.mod_lt n hpos
  by_cases hlast : n % 2 ^ m + 1 < 2 ^ m
  · -- The next mantissa.
    have hn : n + 1 = n % 2 ^ m + 1 + 2 ^ m * (n / 2 ^ m) := by omega
    have hnext : (n + 1) / 2 ^ m = n / 2 ^ m := by
      rw [hn, Nat.add_mul_div_left _ _ hpos, Nat.div_eq_of_lt hlast, Nat.zero_add]
    have hmantissa : (n + 1) % 2 ^ m = n % 2 ^ m + 1 := by
      rw [hn, Nat.add_mul_mod_self_left, Nat.mod_eq_of_lt hlast]
    rw [steps, steps, hnext, hmantissa]
    split
    · exact Nat.lt_succ_self _
    · exact Nat.mul_lt_mul_of_pos_right (by omega) (Nat.two_pow_pos _)
  · -- The next exponent.
    have hn : n + 1 = 2 ^ m * (n / 2 ^ m + 1) := by rw [Nat.mul_add]; omega
    have hnext : (n + 1) / 2 ^ m = n / 2 ^ m + 1 := by rw [hn, Nat.mul_div_cancel_left _ hpos]
    have hmantissa : (n + 1) % 2 ^ m = 0 := by rw [hn, Nat.mul_mod_right]
    rw [steps, steps, hnext, hmantissa, if_neg (Nat.succ_ne_zero _), Nat.zero_add,
      Nat.add_sub_cancel]
    split
    · rename_i hzero
      rw [hzero, pow_zero, Nat.mul_one]
      exact hmod
    · rename_i hexponent
      calc (n % 2 ^ m + 2 ^ m) * 2 ^ (n / 2 ^ m - 1)
        _ < (2 * 2 ^ m) * 2 ^ (n / 2 ^ m - 1) :=
          Nat.mul_lt_mul_of_pos_right (by omega) (Nat.two_pow_pos _)
        _ = 2 ^ m * 2 ^ (n / 2 ^ m - 1 + 1) := by rw [pow_succ]; ring
        _ = 2 ^ m * 2 ^ (n / 2 ^ m) := by rw [Nat.sub_add_cancel (Nat.pos_of_ne_zero hexponent)]

/-- The smallest positive number. -/
def unit (w m : ℕ) : ℚ := 2 ^ (1 - (2 ^ (w - 2 - m) - 1 : ℤ) - m)

theorem unit_pos (w m : ℕ) : 0 < unit w m := zpow_pos (by norm_num) _

theorem toExact_eq (m : ℕ) (a : BitVec w) :
    toExact m a = if infinityMagnitude w m ≤ magnitude a then none
      else some ((if a.msb then -1 else 1) * (steps m (magnitude a) * unit w m)) := by
  rw [toExact]
  split
  · rfl
  · simp only [steps]
    split
    · rw [unit, ← mul_assoc]
    · rename_i hexponent
      have hspl : ((magnitude a / 2 ^ m : ℕ) : ℤ) - (2 ^ (w - 2 - m) - 1) - m =
          ((magnitude a / 2 ^ m - 1 : ℕ) : ℤ) + (1 - (2 ^ (w - 2 - m) - 1) - m) := by
        rw [Nat.cast_sub (Nat.pos_of_ne_zero hexponent)]
        push_cast
        ring
      rw [hspl, zpow_add₀ (by norm_num), zpow_natCast, unit]
      push_cast
      ring_nf

/-- The numbers with the infinities. -/
def extended (m : ℕ) (a : BitVec w) : WithBot (WithTop ℚ) :=
  match toExact m a with
  | some q => ((q : WithTop ℚ) : WithBot (WithTop ℚ))
  | none => if a.msb then ⊥ else ((⊤ : WithTop ℚ) : WithBot (WithTop ℚ))

/-- Of two bits that are not NaN, the first ones come before the second ones: as numbers, and the
negative zero before the other one. -/
def Below (m : ℕ) (a b : BitVec w) : Prop :=
  extended m a < extended m b ∨ (extended m a = extended m b ∧ a.msb = true ∧ b.msb = false)

theorem isNan_iff : isNan m a = true ↔ infinityMagnitude w m < magnitude a := decide_eq_true_iff

theorem orderKey_lt_iff (hw : 0 < w) (ha : isNan m a = false) (hb : isNan m b = false) :
    orderKey a < orderKey b ↔ Below m a b := by
  have ha : magnitude a ≤ infinityMagnitude w m :=
    Nat.le_of_not_lt fun h => by rw [isNan_iff.mpr h] at ha; cases ha
  have hb : magnitude b ≤ infinityMagnitude w m :=
    Nat.le_of_not_lt fun h => by rw [isNan_iff.mpr h] at hb; cases hb
  have hlta := magnitude_lt a
  have hltb := magnitude_lt b
  -- The sizes of the numbers are ordered as the magnitudes.
  obtain ⟨x, hx⟩ : ∃ x, x = (steps m (magnitude a) : ℚ) * unit w m := ⟨_, rfl⟩
  obtain ⟨y, hy⟩ : ∃ y, y = (steps m (magnitude b) : ℚ) * unit w m := ⟨_, rfl⟩
  have hunit := unit_pos w m
  have hsizes : x < y ↔ magnitude a < magnitude b := by
    rw [hx, hy, mul_lt_mul_iff_left₀ hunit, Nat.cast_lt, (strictMono_steps m).lt_iff_lt]
  have hsizes' : y < x ↔ magnitude b < magnitude a := by
    rw [hx, hy, mul_lt_mul_iff_left₀ hunit, Nat.cast_lt, (strictMono_steps m).lt_iff_lt]
  have hxpos : 0 ≤ x := hx ▸ mul_nonneg (Nat.cast_nonneg _) hunit.le
  have hypos : 0 ≤ y := hy ▸ mul_nonneg (Nat.cast_nonneg _) hunit.le
  rw [BitVec.lt_def, toNat_orderKey hw, toNat_orderKey hw, Below, extended, extended, toExact_eq,
    toExact_eq, ← hx, ← hy]
  have hlt : ∀ p q : ℚ, ((p : WithTop ℚ) : WithBot (WithTop ℚ)) <
    ((q : WithTop ℚ) : WithBot (WithTop ℚ)) ↔ p < q :=
    fun p q => WithBot.coe_lt_coe.trans WithTop.coe_lt_coe
  have htop : ∀ q : ℚ, ((q : WithTop ℚ) : WithBot (WithTop ℚ)) <
    ((⊤ : WithTop ℚ) : WithBot (WithTop ℚ)) :=
    fun q => WithBot.coe_lt_coe.mpr (WithTop.coe_lt_top q)
  cases hsa : a.msb with
  | false =>
    cases hsb : b.msb with
    | false =>
      simp only [Bool.false_eq_true, if_false, one_mul, false_and, and_false, or_false,
        Nat.add_lt_add_iff_left]
      split_ifs with hainf hbinf hbinf
      · exact iff_of_false (by omega) (lt_irrefl _)
      · exact iff_of_false (by omega) (htop y).not_gt
      · exact iff_of_true (by omega) (htop x)
      · exact hsizes.symm.trans (hlt x y).symm
    | true =>
      simp only [Bool.false_eq_true, if_false, if_true, one_mul, neg_mul, false_and,
        and_false, or_false]
      refine iff_of_false (by omega) (not_lt_of_ge ?_)
      split_ifs with hbinf hainf hainf
      · exact bot_le
      · exact bot_le
      · exact (htop (-y)).le
      · exact not_lt.mp ((hlt x (-y)).not.mpr (by linarith))
  | true =>
    cases hsb : b.msb with
    | false =>
      simp only [Bool.false_eq_true, if_false, if_true, one_mul, neg_mul, and_true,
        ← le_iff_lt_or_eq]
      refine iff_of_true (by omega) ?_
      split_ifs with hainf hbinf hbinf
      · exact bot_le
      · exact bot_le
      · exact (htop (-x)).le
      · exact not_lt.mp ((hlt y (-x)).not.mpr (by linarith))
    | true =>
      simp only [Bool.true_eq_false, if_true, neg_mul, one_mul, and_false, or_false]
      have hreverse : 2 ^ (w - 1) - 1 - magnitude a < 2 ^ (w - 1) - 1 - magnitude b ↔
        magnitude b < magnitude a := by omega
      rw [hreverse]
      split_ifs with hainf hbinf hbinf
      · exact iff_of_false (by omega) (lt_irrefl _)
      · exact iff_of_true (by omega) (WithBot.bot_lt_coe _)
      · exact iff_of_false (by omega) not_lt_bot
      · exact hsizes'.symm.trans (neg_lt_neg_iff.symm.trans (hlt (-x) (-y)).symm)

/-! ## The range of the keys -/

/-- The bits of an infinity. -/
def infinity (w m : ℕ) (negative : Bool) : BitVec w :=
  BitVec.ofNat w ((if negative then 2 ^ (w - 1) else 0) + infinityMagnitude w m)

theorem infinityMagnitude_lt (w m : ℕ) : infinityMagnitude w m < 2 ^ (w - 1) :=
  Nat.sub_lt (Nat.two_pow_pos _) (Nat.two_pow_pos _)

variable (hw : 0 < w)
include hw

theorem toNat_infinity (m : ℕ) (negative : Bool) :
    (infinity w m negative).toNat = (if negative then 2 ^ (w - 1) else 0) + infinityMagnitude w m :=
  by
  have hlt := infinityMagnitude_lt w m
  have hhalf := two_mul_half hw
  rw [infinity, BitVec.toNat_ofNat, Nat.mod_eq_of_lt]
  split <;> omega

theorem msb_infinity (m : ℕ) (negative : Bool) : (infinity w m negative).msb = negative := by
  have hlt := infinityMagnitude_lt w m
  rw [Bool.eq_iff_iff, msb_iff, toNat_infinity hw]
  cases negative
  · simpa using hlt
  · simp

theorem magnitude_infinity (m : ℕ) (negative : Bool) :
    magnitude (infinity w m negative) = infinityMagnitude w m := by
  have htoNat := toNat_eq hw (infinity w m negative)
  rw [toNat_infinity hw, msb_infinity hw] at htoNat
  omega

/-- The infinities are the bits with their magnitude. -/
theorem isInfinite_iff : isInfinite m a = true ↔ a = infinity w m a.msb := by
  rw [isInfinite, decide_eq_true_eq]
  constructor
  · intro h
    exact eq_of_magnitude hw (msb_infinity hw m _).symm (h.trans (magnitude_infinity hw m _).symm)
  · intro h
    rw [h]
    exact magnitude_infinity hw m _

theorem isNan_infinity (m : ℕ) (negative : Bool) : isNan m (infinity w m negative) = false := by
  rw [isNan, magnitude_infinity hw]
  simp

/-- The keys of all bits but those of NaN are between those of the infinities. -/
theorem isNan_eq_false_iff : isNan m a = false ↔
    (orderKey (infinity w m true)).toNat ≤ (orderKey a).toNat ∧
    (orderKey a).toNat ≤ (orderKey (infinity w m false)).toNat := by
  have hlt := infinityMagnitude_lt w m
  have hmagnitude := magnitude_lt a
  rw [toNat_orderKey hw, toNat_orderKey hw a, toNat_orderKey hw, msb_infinity hw, msb_infinity hw,
      magnitude_infinity hw,
    magnitude_infinity hw, if_pos rfl, if_neg Bool.false_ne_true, isNan, decide_eq_false_iff_not]
  split <;> omega

/-- The keys are ordered as the bits, fill the range between those of the infinities, and can be
taken back. -/
structure IsOrderKey (m : ℕ) (key inverse : BitVec w → BitVec w) : Prop where
  lt_iff : ∀ a b, isNan m a = false → isNan m b = false → (key a < key b ↔ Below m a b)
  range_iff : ∀ k, (key (infinity w m true) ≤ k ∧ k ≤ key (infinity w m false)) ↔ ∃ a,
    isNan m a = false ∧ key a = k
  left_inv : ∀ a, inverse (key a) = a
  right_inv : ∀ k, key (inverse k) = k

theorem isOrderKey_orderKey (m : ℕ) : IsOrderKey m (orderKey (w := w)) fromOrderKey where
  lt_iff a b ha hb := orderKey_lt_iff hw ha hb
  range_iff k := by
    constructor
    · intro h
      refine ⟨fromOrderKey k, ?_, orderKey_fromOrderKey hw k⟩
      rw [isNan_eq_false_iff hw, orderKey_fromOrderKey hw]
      exact h
    · rintro ⟨a, ha, rfl⟩
      exact (isNan_eq_false_iff hw).mp ha
  left_inv := fromOrderKey_orderKey hw
  right_inv := orderKey_fromOrderKey hw

theorem orderKey_injective : Function.Injective (orderKey (w := w)) :=
  (Function.LeftInverse.injective (g := fromOrderKey)) (fromOrderKey_orderKey hw)

end bits

end Hermit.Datatypes
