import Mathlib

/-! # Bounding the size of a set by lists -/

namespace Hermit.Library

variable {α : Type*} {S : Set α} {n : ℕ}

theorem encard_le_of_length {l : List α} (hl : l.Nodup) (hS : ∀ y ∈ l, y ∈ S) :
    (l.length : ℕ∞) ≤ S.encard := by
  classical
  have hsub : (l.toFinset : Set α) ⊆ S := by
    intro y hy
    exact hS y (by simpa using hy)
  calc (l.length : ℕ∞) = (l.toFinset : Set α).encard := by
        rw [Set.encard_coe_eq_coe_finsetCard, List.toFinset_card_of_nodup hl]
    _ ≤ S.encard := Set.encard_le_encard hsub

/-- A set of more than `n` elements holds an ascending list of `n + 1`. -/
theorem exists_ascending [LinearOrder α] (h : ¬ S.encard ≤ n) :
    ∃ l : List α, l.length = n + 1 ∧ (∀ y ∈ l, y ∈ S) ∧ l.Pairwise (· < ·) := by
  have hle : ((n + 1 : ℕ) : ℕ∞) ≤ S.encard := by
    rw [Nat.cast_add, Nat.cast_one]
    exact Order.add_one_le_of_lt (not_le.mp h)
  obtain ⟨t, hts, ht⟩ := Set.exists_subset_encard_eq hle
  have hfin : t.Finite := Set.finite_of_encard_eq_coe ht
  have hcard : hfin.toFinset.card = n + 1 := by
    have := hfin.encard_eq_coe_toFinset_card
    rw [ht] at this
    exact_mod_cast this.symm
  have hsort : (hfin.toFinset.sort (· ≤ ·)).Pairwise (· < ·) := by
    exact (Finset.sortedLT_sort _).pairwise
  use hfin.toFinset.sort (· ≤ ·)
  constructor
  · rw [Finset.length_sort, hcard]
  · constructor
    · intro y hy
      exact hts (by simpa using hy)
    · exact hsort

/-- A list is compared from three elements on: it ascends weakly, and either strictly or not at all.
-/
def Compared [LinearOrder α] (l : List α) : Prop :=
  2 < l.length → l.IsChain (· ≤ ·) ∧ (l.IsChain (· < ·) ∨ l.IsChain Eq)

/-- Among `n + 1` candidates for a set of at most `n` elements one fails or one is repeated. -/
theorem repeats_of_encard_le {G K : α → Prop} (hS : ∀ y, y ∈ S ↔ G y ∧ ¬ K y) (h : S.encard ≤ n)
    {l : List α} (hl : l.length = n + 1) (hG : ∀ y ∈ l, G y) : (∃ y ∈ l, K y) ∨ ¬ l.Nodup := by
  by_contra hne
  simp only [not_or, not_exists, not_and, not_not] at hne
  have hle : ((n + 1 : ℕ) : ℕ∞) ≤ n :=
    hl ▸ (encard_le_of_length hne.2 fun y hy => (hS y).mpr ⟨hG y hy, hne.1 y hy⟩).trans h
  have := Nat.cast_le.mp hle
  omega

/-- At most `n` elements: any `n + 1` in ascending order repeat one. -/
theorem encard_le_iff_compared [LinearOrder α] {G K : α → Prop} (hS : ∀ y, y ∈ S ↔ G y ∧ ¬ K y) :
    S.encard ≤ n ↔ ∀ l : List α, l.length = n + 1 → (∀ y ∈ l, G y) → Compared l →
      (∃ y ∈ l, K y) ∨ ¬ l.Nodup := by
  constructor
  · intro h l hl hG _
    exact repeats_of_encard_le hS h hl hG
  · intro h
    by_contra hne
    obtain ⟨l, hl, hmem, hasc⟩ := exists_ascending hne
    have hcompared : Compared l := fun _ =>
      ⟨(hasc.imp le_of_lt).isChain, .inl hasc.isChain⟩
    rcases h l hl (fun y hy => ((hS y).mp (hmem y hy)).1) hcompared with ⟨y, hy, hK⟩ | hdup
    · exact ((hS y).mp (hmem y hy)).2 hK
    · exact hdup (hasc.imp ne_of_lt)

/-- The same without comparisons. -/
theorem encard_le_iff_forall {G K : α → Prop} (hS : ∀ y, y ∈ S ↔ G y ∧ ¬ K y) :
    S.encard ≤ n ↔ ∀ l : List α, l.length = n + 1 → (∀ y ∈ l, G y) →
    (∃ y ∈ l, K y) ∨ ¬ l.Nodup := by
  classical
  let _ : LinearOrder α := linearOrderOfSTO WellOrderingRel
  constructor
  · intro h l hl hG
    exact repeats_of_encard_le hS h hl hG
  · intro h
    rw [encard_le_iff_compared hS]
    intro l hl hG _
    exact h l hl hG

end Hermit.Library
