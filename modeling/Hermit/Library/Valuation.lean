import Mathlib

/-! # Quantifying over a block of variables

A property of valuations is closed over a block of variables when it holds however
the block is revalued.  A disjunction whose sides do not share a block can be closed
side by side, and a block can be quantified one variable at a time.
-/

namespace Hermit.Library

variable {V U : Type*} {N M : Set V} {P Q : (V → U) → Prop} {σ τ : V → U}

/-- The property holds under every revaluation of the block `N`. -/
def ForallOver (N : Set V) (P : (V → U) → Prop) (σ : V → U) : Prop :=
  ∀ τ, Set.EqOn τ σ Nᶜ → P τ

theorem forallOver_of_dependsOn (hP : DependsOn P Nᶜ) : ForallOver N P σ ↔ P σ := by
  constructor
  · intro h
    exact h σ (Set.eqOn_refl σ _)
  · intro h τ hτ
    rwa [hP hτ]

/-- A valuation may also change what the property does not read. -/
theorem ForallOver.apply (h : ForallOver N P σ) (hP : DependsOn P M)
    (hτ : ∀ v ∈ M \ N, τ v = σ v) : P τ := by
  classical
  have hsame : P (N.piecewise τ σ) = P τ := by
    apply hP
    intro v hv
    by_cases hvN : v ∈ N
    · exact Set.piecewise_eq_of_mem N τ σ hvN
    · rw [Set.piecewise_eq_of_notMem N τ σ hvN, hτ v ⟨hv, hvN⟩]
  rw [← hsame]
  apply h
  intro v hv
  exact Set.piecewise_eq_of_notMem N τ σ hv

/-- A disjunction of two properties that do not read each other's block. -/
theorem forallOver_union_or (hP : DependsOn P Mᶜ) (hQ : DependsOn Q Nᶜ) :
    ForallOver (N ∪ M) (fun τ => P τ ∨ Q τ) σ ↔ ForallOver N P σ ∨ ForallOver M Q σ := by
  classical
  constructor
  · intro h
    by_contra hne
    simp only [ForallOver, not_or, not_forall] at hne
    obtain ⟨⟨τ, hτ, hPτ⟩, ρ, hρ, hQρ⟩ := hne
    -- The valuation that follows both refutations refutes both sides.
    have hboth : Set.EqOn (fun v => if v ∈ N ∧ v ∉ M then τ v else ρ v) σ (N ∪ M)ᶜ := by
      intro v hv
      simp only [Set.mem_compl_iff, Set.mem_union, not_or] at hv
      simpa [hv.1] using hρ hv.2
    rcases h _ hboth with hl | hr
    · apply hPτ
      rwa [hP (y := τ)] at hl
      intro v hv
      by_cases hvN : v ∈ N
      · simp_all
      · simp only [hvN, false_and, if_false]
        rw [hρ hv, hτ hvN]
    · apply hQρ
      rwa [hQ (y := ρ)] at hr
      intro v hv
      simp_all
  · rintro (h | h) τ hτ
    · left
      apply h.apply hP
      intro v hv
      exact hτ (by simp_all)
    · right
      apply h.apply hQ
      intro v hv
      exact hτ (by simp_all)

/-- A block is quantified one variable at a time. -/
theorem forallOver_insert [DecidableEq V] (y : V) :
    ForallOver (insert y N) P σ ↔ ∀ u, ForallOver N P (Function.update σ y u) := by
  constructor
  · intro h u τ hτ
    apply h
    intro v hv
    simp only [Set.mem_compl_iff, Set.mem_insert_iff, not_or] at hv
    rw [hτ hv.2, Function.update_of_ne hv.1]
  · intro h τ hτ
    apply h (τ y)
    intro v hv
    by_cases hvy : v = y
    · rw [hvy, Function.update_self]
    · rw [Function.update_of_ne hvy]
      exact hτ (by simp [hvy]; exact hv)

/-- A block listed without repetition is quantified by the list of its values. -/
theorem forallOver_list {ys : List V} (hys : ys.Nodup) {Φ : List U → Prop}
    (hP : ∀ τ, Set.EqOn τ σ {v | v ∈ ys}ᶜ → (P τ ↔ Φ (ys.map τ))) :
    ForallOver {v | v ∈ ys} P σ ↔ ∀ ts : List U, ts.length = ys.length → Φ ts := by
  classical
  constructor
  · intro h ts hts
    let τ : V → U := fun v =>
      if hv : v ∈ ys then ts.get ⟨ys.idxOf v,
        by rw [hts]; exact List.idxOf_lt_length_of_mem hv⟩ else σ v
    have hτ : Set.EqOn τ σ {v | v ∈ ys}ᶜ := fun v hv => dif_neg hv
    have hmap : ys.map τ = ts := by
      apply List.ext_getElem
      · rw [List.length_map, hts]
      · intro i hi hi'
        have hiy : i < ys.length := by simpa using hi
        simp only [List.getElem_map, τ, List.getElem_mem, dif_pos, List.get_eq_getElem]
        congr 1
        exact hys.idxOf_getElem i hiy
    rw [← hmap]
    exact (hP τ hτ).mp (h τ hτ)
  · intro h τ hτ
    rw [hP τ hτ]
    apply h
    rw [List.length_map]

end Hermit.Library
