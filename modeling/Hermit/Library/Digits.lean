import Mathlib

/-! # Digits of a fraction

The digits after the point denote a number below one.  Without zeros at the end, their order as
lists is the order of the numbers.
-/

namespace Hermit.Digits

open List

variable {b : ℕ} {l l' : List (Fin b)}

/-- The number that digits after the point denote. -/
def value : List (Fin b) → ℚ
  | [] => 0
  | d :: l => ((d : ℕ) + value l) / b

@[simp] theorem value_nil : value ([] : List (Fin b)) = 0 := rfl

theorem value_cons (d : Fin b) (l : List (Fin b)) : value (d :: l) = ((d : ℕ) + value l) / b := rfl

theorem base_pos (d : Fin b) : (0 : ℚ) < b := Nat.cast_pos.mpr (Fin.pos d)

theorem value_nonneg (l : List (Fin b)) : 0 ≤ value l := by
  induction l with
  | nil => exact le_refl 0
  | cons d l ih =>
    rw [value_cons]
    positivity

theorem value_lt_one (l : List (Fin b)) : value l < 1 := by
  induction l with
  | nil => exact zero_lt_one
  | cons d l ih =>
    have hd : ((d : ℕ) : ℚ) + 1 ≤ b := by exact_mod_cast d.isLt
    rw [value_cons, div_lt_one (base_pos d)]
    linarith

variable [NeZero b]

/-- Zeros at the end do not count. -/
theorem value_append_zero (l : List (Fin b)) : value (l ++ [0]) = value l := by
  induction l with
  | nil => simp [value_cons]
  | cons d l ih => rw [cons_append, value_cons, ih, ← value_cons]

theorem value_rdropWhile (l : List (Fin b)) : value (l.rdropWhile (· = 0)) = value l := by
  induction l using List.reverseRecOn with
  | nil => rfl
  | append_singleton l d ih =>
    by_cases hd : d = 0
    · rw [hd, rdropWhile_concat_pos _ _ _ (by simp), ih, value_append_zero]
    · rw [rdropWhile_concat_neg _ _ _ (by simpa using hd)]

theorem getLast?_rdropWhile (l : List (Fin b)) : (l.rdropWhile (· = 0)).getLast? ≠ some 0 := by
  intro hlast
  have hne : l.rdropWhile (· = 0) ≠ [] := by
    intro hnil
    rw [hnil] at hlast
    cases hlast
  have hnot := rdropWhile_last_not (fun d : Fin b => decide (d = 0)) l hne
  rw [getLast?_eq_some_getLast hne, Option.some.injEq] at hlast
  rw [hlast] at hnot
  simp at hnot

theorem rdropWhile_eq_nil : l.rdropWhile (· = 0) = [] ↔ ∀ d ∈ l, d = 0 := by
  rw [rdropWhile_eq_nil_iff]
  simp

theorem value_pos (hne : l ≠ []) (htrim : l.getLast? ≠ some 0) : 0 < value l := by
  induction l with
  | nil => exact absurd rfl hne
  | cons d l ih =>
    rw [value_cons]
    refine div_pos ?_ (base_pos d)
    cases l with
    | nil =>
      have hd : d ≠ 0 := fun h => htrim (by rw [h]; rfl)
      have hpos : 0 < (d : ℕ) := Nat.pos_of_ne_zero fun h => hd (Fin.ext (by rw [h, Fin.val_zero]))
      have hcast : (0 : ℚ) < (d : ℕ) := Nat.cast_pos.mpr hpos
      rw [value_nil]
      linarith
    | cons e l =>
      rw [getLast?_cons_cons] at htrim
      have htail := ih (cons_ne_nil e l) htrim
      positivity

/-- Digits that come first denote a smaller number. -/
theorem value_lt_of_lt (htrim : l'.getLast? ≠ some 0) (hlt : l < l') : value l < value l' := by
  induction l' generalizing l with
  | nil => exact absurd hlt (not_lt_nil l)
  | cons d' l' ih =>
    cases l with
    | nil => exact value_pos (cons_ne_nil d' l') htrim
    | cons d l =>
      rw [value_cons, value_cons]
      refine div_lt_div_of_pos_right ?_ (base_pos d)
      rcases cons_lt_cons_iff.mp hlt with hd | ⟨rfl, hl⟩
      · have hcast : ((d : ℕ) : ℚ) + 1 ≤ (d' : ℕ) := by exact_mod_cast hd
        have hone := value_lt_one l
        have hnonneg := value_nonneg l'
        linarith
      · have hlast : l'.getLast? ≠ some 0 := by
          cases l' with
          | nil => exact fun h => nomatch h
          | cons c l' => rwa [getLast?_cons_cons] at htrim
        have htail := ih hlast hl
        linarith

end Hermit.Digits
