import Mathlib

/-! # Loops that may fail

A loop repeats a partial step while a condition holds.  It is run with fuel; from a chain of steps
to a state where the condition fails, every large enough fuel gives that state.
-/

namespace Hermit

open Option

variable {State : Type*}

def loopWhile (running : State → Bool) (step : State → Option State) (fuel : ℕ) (s : State) :
    Option State :=
  if running s then
    match fuel with
    | 0 => none
    | fuel + 1 => (step s).bind (loopWhile running step fuel)
  else some s

/-- A chain of rounds of the loop. -/
def Steps (running : State → Bool) (step : State → Option State) : State → State → Prop :=
  Relation.ReflTransGen fun s s' => running s = true ∧ step s = some s'

variable {running : State → Bool} {step : State → Option State} {s s' s'' : State}

theorem Steps.refl : Steps running step s s := Relation.ReflTransGen.refl

theorem Steps.trans (h : Steps running step s s') (h' : Steps running step s' s'') :
    Steps running step s s'' :=
  Relation.ReflTransGen.trans h h'

theorem Steps.single (hrun : running s = true) (hstep : step s = some s') :
    Steps running step s s' :=
  Relation.ReflTransGen.single ⟨hrun, hstep⟩

/-- Enough fuel leads along the chain to its end. -/
theorem Steps.loopWhile_eq (h : Steps running step s s') (hend : running s' = false) :
    ∃ enough, ∀ fuel, enough ≤ fuel → loopWhile running step fuel s = some s' := by
  induction h using Relation.ReflTransGen.head_induction_on with
  | refl =>
    refine ⟨0, fun fuel _ => ?_⟩
    rw [loopWhile.eq_def, hend]
    rfl
  | head hfst _ ih =>
    obtain ⟨enough, henough⟩ := ih
    refine ⟨enough + 1, fun fuel hfuel => ?_⟩
    obtain ⟨fuel, rfl⟩ : ∃ n, fuel = n + 1 := ⟨fuel - 1, by omega⟩
    rw [loopWhile, if_pos hfst.1, hfst.2, bind_some]
    exact henough fuel (by omega)

theorem loopWhile_stable {fuel fuel' : ℕ} (h : loopWhile running step fuel s = some s')
    (hle : fuel ≤ fuel') :
    loopWhile running step fuel' s = some s' := by
  induction fuel generalizing s fuel' with
  | zero =>
    rw [loopWhile.eq_def] at h ⊢
    split at h
    · cases h
    · rename_i hstop
      rw [if_neg hstop]
      exact h
  | succ fuel ih =>
    obtain ⟨fuel', rfl⟩ : ∃ n, fuel' = n + 1 := ⟨fuel' - 1, by omega⟩
    rw [loopWhile] at h ⊢
    split at h
    · rename_i hrun
      obtain ⟨s₁, hstep, hrest⟩ := bind_eq_some_iff.mp h
      rw [if_pos hrun, hstep, bind_some]
      exact ih hrest (by omega)
    · rename_i hstop
      rw [if_neg hstop]
      exact h

/-- What every round keeps holds of the result. -/
theorem loopWhile_invariant (inv : State → Prop)
    (hround : ∀ s s', inv s → step s = some s' → inv s') {fuel : ℕ}
    (hs : inv s) (h : loopWhile running step fuel s = some s') : inv s' := by
  induction fuel generalizing s with
  | zero =>
    rw [loopWhile.eq_def] at h
    split at h
    · cases h
    · exact some.inj h ▸ hs
  | succ fuel ih =>
    rw [loopWhile] at h
    split at h
    · obtain ⟨s₁, hstep, hrest⟩ := bind_eq_some_iff.mp h
      exact ih (hround s s₁ hs hstep) hrest
    · exact some.inj h ▸ hs

variable (running step) in
/-- A loop whose rounds keep an invariant and decrease a measure ends; the measure is enough fuel.
-/
theorem exists_loopWhile_eq (inv : State → Prop) (measure : State → ℕ)
    (hround : ∀ s, inv s → running s = true → ∃ s',
      step s = some s' ∧ inv s' ∧ measure s' < measure s) {s : State} (hs : inv s) :
    ∃ s', inv s' ∧ running s' = false ∧ ∀ fuel, measure s ≤ fuel →
    loopWhile running step fuel s = some s' := by
  induction h : measure s using Nat.strongRecOn generalizing s with
  | ind n ih =>
    cases hrun : running s with
    | false =>
      refine ⟨s, hs, hrun, fun fuel _ => ?_⟩
      rw [loopWhile.eq_def, hrun]
      rfl
    | true =>
      obtain ⟨s₁, hstep, hs₁, hlt⟩ := hround s hs hrun
      obtain ⟨s', hs', hend, hfuel⟩ := ih (measure s₁) (h ▸ hlt) hs₁ rfl
      refine ⟨s', hs', hend, fun fuel hle => ?_⟩
      obtain ⟨fuel, rfl⟩ : ∃ n, fuel = n + 1 := ⟨fuel - 1, by omega⟩
      rw [loopWhile, if_pos hrun, hstep, bind_some]
      exact hfuel fuel (by omega)

end Hermit
