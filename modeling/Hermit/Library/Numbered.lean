import Mathlib

/-! # Numbered names

Names made of a stem and a number differ when their numbers do, and names over stems
that differ within the length of both differ whatever follows.
-/

namespace Hermit

theorem repr_injective : Function.Injective Nat.repr := by
  intro m n h
  have hdig := congrArg String.toList h
  rw [Nat.toList_repr, Nat.toList_repr] at hdig
  rw [← Nat.ofDigitChars_ten_toDigits (n := m), hdig, Nat.ofDigitChars_ten_toDigits]

theorem append_repr_inj (stem : String) {m n : ℕ} : stem ++ m.repr = stem ++ n.repr ↔ m = n := by
  rw [String.append_right_inj, repr_injective.eq_iff]

theorem append_ne_of_take_ne {stem other : String} (k : ℕ) (hk : k ≤ stem.toList.length)
    (h : stem.toList.take k ≠ other.toList.take k) (rest : String) : stem ++ rest ≠ other := by
  intro heq
  have htake := congrArg (fun s : String => s.toList.take k) heq
  simp only [String.toList_append, List.take_append_of_le_length hk] at htake
  exact h htake

theorem append_ne_append_of_take_ne {stem stem' : String} (k : ℕ) (hk : k ≤ stem.toList.length)
    (hk' : k ≤ stem'.toList.length) (h : stem.toList.take k ≠ stem'.toList.take k)
    (rest rest' : String) : stem ++ rest ≠ stem' ++ rest' := by
  apply append_ne_of_take_ne k hk
  simpa only [String.toList_append, List.take_append_of_le_length hk'] using h

end Hermit
