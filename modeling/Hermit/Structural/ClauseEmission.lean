import Hermit.Library.Numbered
import Hermit.Library.Valuation
import Hermit.Model.ClauseSemantics
import Hermit.Structural.OwlClausification

/-! # What the clausifier adds to a clause

A stretch of the clausifier's work adds atoms over a block of fresh variables.  Its
meaning is the implication between the new atoms, quantified over the block; the
meanings of consecutive stretches are joined by a disjunction.
-/

namespace Hermit

open List hiding not_lt

open Library

/-! ## Fresh variables -/

theorem indexedVariable_name (letter : String) (index : ℕ) :
    (indexedVariable letter index).name = letter ++ if index = 0 then "" else index.repr := by
  unfold indexedVariable
  split
  · simp
  · rfl

theorem indexedVariable_injective (letter : String) :
    Function.Injective (indexedVariable letter) := by
  intro i j h
  have hname := congrArg Variable.name h
  rw [indexedVariable_name, indexedVariable_name, String.append_right_inj] at hname
  by_cases hi : i = 0
  · by_cases hj : j = 0
    · rw [hi, hj]
    · rw [if_pos hi, if_neg hj] at hname
      exact absurd hname.symm Nat.repr_ne_empty
  · by_cases hj : j = 0
    · rw [if_neg hi, if_pos hj] at hname
      exact absurd hname Nat.repr_ne_empty
    · rw [if_neg hi, if_neg hj] at hname
      exact repr_injective hname

theorem indexedVariable_head (letter : Char) (index : ℕ) :
    (indexedVariable (String.singleton letter) index).name.toList.head? = some letter := by
  rw [indexedVariable_name]
  simp

theorem indexedVariable_ne {l m : Char} (h : l ≠ m) (i j : ℕ) :
    indexedVariable (String.singleton l) i ≠ indexedVariable (String.singleton m) j := by
  intro he
  have := congrArg (fun v => v.name.toList.head?) he
  simp only [indexedVariable_head] at this
  exact h (Option.some.inj this)

namespace AxiomClausifier

variable {c c' c'' : AxiomClausifier}

/-- The variables still to be given out. -/
def future (c : AxiomClausifier) : Set Variable :=
  {v | (∃ i, c.yIndex ≤ i ∧ v = indexedVariable "Y" i) ∨
    ∃ i, c.zIndex ≤ i ∧ v = indexedVariable "Z" i}

/-- The variables given out between two states. -/
def block (c c' : AxiomClausifier) : Set Variable :=
  {v | (∃ i, c.yIndex ≤ i ∧ i < c'.yIndex ∧ v = indexedVariable "Y" i) ∨
    ∃ i, c.zIndex ≤ i ∧ i < c'.zIndex ∧ v = indexedVariable "Z" i}

theorem block_subset_future : block c c' ⊆ c.future := by
  rintro v (⟨i, hi, -, rfl⟩ | ⟨i, hi, -, rfl⟩)
  · exact .inl ⟨i, hi, rfl⟩
  · exact .inr ⟨i, hi, rfl⟩

theorem notMem_future_X : (⟨"X"⟩ : Variable) ∉ c.future := by
  rintro (⟨i, -, h⟩ | ⟨i, -, h⟩)
  · exact indexedVariable_ne (l := 'X') (m := 'Y') (by decide) 0 i h
  · exact indexedVariable_ne (l := 'X') (m := 'Z') (by decide) 0 i h

theorem block_union (hy : c.yIndex ≤ c'.yIndex) (hy' : c'.yIndex ≤ c''.yIndex)
    (hz : c.zIndex ≤ c'.zIndex) (hz' : c'.zIndex ≤ c''.zIndex) :
    block c c'' = block c c' ∪ block c' c'' := by
  ext v
  constructor
  · rintro (⟨i, hi, hlt, rfl⟩ | ⟨i, hi, hlt, rfl⟩)
    · by_cases h : i < c'.yIndex
      · exact .inl (.inl ⟨i, hi, h, rfl⟩)
      · exact .inr (.inl ⟨i, not_lt.mp h, hlt, rfl⟩)
    · by_cases h : i < c'.zIndex
      · exact .inl (.inr ⟨i, hi, h, rfl⟩)
      · exact .inr (.inr ⟨i, not_lt.mp h, hlt, rfl⟩)
  · rintro ((⟨i, hi, hlt, rfl⟩ | ⟨i, hi, hlt, rfl⟩) | (⟨i, hi, hlt, rfl⟩ | ⟨i, hi, hlt, rfl⟩))
    · exact .inl ⟨i, hi, by omega, rfl⟩
    · exact .inr ⟨i, hi, by omega, rfl⟩
    · exact .inl ⟨i, by omega, hlt, rfl⟩
    · exact .inr ⟨i, by omega, hlt, rfl⟩

theorem block_disjoint_future {v : Variable} (hv : v ∈ block c c') : v ∉ c'.future := by
  rintro (⟨j, hj, h⟩ | ⟨j, hj, h⟩) <;> rcases hv with ⟨i, -, hi, rfl⟩ | ⟨i, -, hi, rfl⟩
  · have := indexedVariable_injective _ h
    omega
  · exact indexedVariable_ne (l := 'Z') (m := 'Y') (by decide) _ _ h
  · exact indexedVariable_ne (l := 'Y') (m := 'Z') (by decide) _ _ h
  · have := indexedVariable_injective _ h
    omega

theorem future_anti (hy : c.yIndex ≤ c'.yIndex) (hz : c.zIndex ≤ c'.zIndex) :
    c'.future ⊆ c.future := by
  rintro v (⟨i, hi, rfl⟩ | ⟨i, hi, rfl⟩)
  · exact .inl ⟨i, by omega, rfl⟩
  · exact .inr ⟨i, by omega, rfl⟩

theorem block_eq_empty (hy : c'.yIndex = c.yIndex) (hz : c'.zIndex = c.zIndex) :
    block c c' = ∅ := by
  ext v
  simp only [block, Set.mem_ofPred_eq, Set.mem_empty_iff_false, iff_false, not_or, not_exists]
  constructor <;> intro i <;> omega

end AxiomClausifier

/-! ## Emissions -/

def IsObject {Dom Val : Type*} (t : Dom ⊕ Val) : Prop := ∃ x, t = .inl x

variable {Dom Val : Type*} {I : ClauseInterp Dom Val} {V : Set Variable}
variable {c c' c'' : AxiomClausifier} {body head body' head' : List Atom}
variable {T T' : (Variable → Dom ⊕ Val) → Prop}

/-- Between two states the clausifier adds a body and a head over the old variables `V` and
the block given out, and `T` says what they mean where `X` is an element. -/
structure Emits (I : ClauseInterp Dom Val) (V : Set Variable) (c c' : AxiomClausifier)
    (body head : List Atom) (T : (Variable → Dom ⊕ Val) → Prop) : Prop where
  body_eq : c'.bodyAtoms = c.bodyAtoms ++ body
  head_eq : c'.headAtoms = c.headAtoms ++ head
  yIndex_le : c.yIndex ≤ c'.yIndex
  zIndex_le : c.zIndex ≤ c'.zIndex
  body_variables : ∀ b ∈ body, ∀ v ∈ b.variables, v ∈ V ∪ c.block c'
  head_variables : ∀ h ∈ head, ∀ v ∈ h.variables, v ∈ V ∪ c.block c'
  body_object : ∀ σ, ∀ b ∈ body, ⟨"X"⟩ ∈ b.variables → I.atom σ b → IsObject (σ ⟨"X"⟩)
  head_bound : ∀ h ∈ head, ∀ v ∈ h.variables, v = ⟨"X"⟩ ∨ ∃ b ∈ c'.bodyAtoms, v ∈ b.variables
  meaning : ∀ σ, IsObject (σ ⟨"X"⟩) → (ForallOver (c.block c') (I.implies body head) σ ↔ T σ)

namespace Emits

theorem congr (h : Emits I V c c' body head T) (hT : ∀ σ, IsObject (σ ⟨"X"⟩) → (T σ ↔ T' σ)) :
    Emits I V c c' body head T' :=
  { h with meaning := fun σ hσ => (h.meaning σ hσ).trans (hT σ hσ) }

/-- No atoms, though perhaps variables that are left out. -/
theorem idle (hbody : c'.bodyAtoms = c.bodyAtoms) (hhead : c'.headAtoms = c.headAtoms)
    (hy : c.yIndex ≤ c'.yIndex) (hz : c.zIndex ≤ c'.zIndex) :
    Emits I V c c' [] [] fun _ => False where
  body_eq := by rw [hbody, append_nil]
  head_eq := by rw [hhead, append_nil]
  yIndex_le := hy
  zIndex_le := hz
  body_variables := by simp
  head_variables := by simp
  body_object := by simp
  head_bound := by simp
  meaning σ _ := by
    rw [iff_false]
    intro h
    simpa [ClauseInterp.implies] using h σ (Set.eqOn_refl σ _)

/-- Atoms over old variables alone. -/
theorem push (hbody' : c'.bodyAtoms = c.bodyAtoms ++ body)
    (hhead' : c'.headAtoms = c.headAtoms ++ head)
    (hy : c'.yIndex = c.yIndex) (hz : c'.zIndex = c.zIndex)
    (hbody : ∀ b ∈ body, ∀ v ∈ b.variables, v ∈ V) (hhead : ∀ h ∈ head, ∀ v ∈ h.variables, v ∈ V)
    (hobj : ∀ σ, ∀ b ∈ body, ⟨"X"⟩ ∈ b.variables → I.atom σ b → IsObject (σ ⟨"X"⟩))
    (hV : ∀ v ∈ V, v = ⟨"X"⟩ ∨ ∃ b ∈ c.bodyAtoms, v ∈ b.variables) :
    Emits I V c c' body head (I.implies body head) where
  body_eq := hbody'
  head_eq := hhead'
  yIndex_le := hy.ge
  zIndex_le := hz.ge
  body_variables b hb v hv := .inl (hbody b hb v hv)
  head_variables h hh v hv := .inl (hhead h hh v hv)
  body_object := hobj
  head_bound h hh v hv := by
    rcases hV v (hhead h hh v hv) with hX | ⟨b, hb, hvb⟩
    · exact .inl hX
    · rw [hbody']
      exact .inr ⟨b, mem_append_left _ hb, hvb⟩
  meaning σ _ := by
    rw [AxiomClausifier.block_eq_empty hy hz]
    apply forallOver_of_dependsOn
    rw [Set.compl_empty]
    exact dependsOn_univ _

theorem pushHead {a : Atom} (hvars : ∀ v ∈ a.variables, v ∈ V)
    (hV : ∀ v ∈ V, v = ⟨"X"⟩ ∨ ∃ b ∈ c.bodyAtoms, v ∈ b.variables) :
    Emits I V c (c.pushHead a) [] [a] fun σ => I.atom σ a := by
  have hpush : Emits I V c (c.pushHead a) [] [a] (I.implies [] [a]) := by
    apply push
    · simp [AxiomClausifier.pushHead]
    · rfl
    · rfl
    · rfl
    · simp
    · simpa using hvars
    · simp
    · exact hV
  apply hpush.congr
  intro σ _
  simp [ClauseInterp.implies]

theorem pushBody {a : Atom} (hvars : ∀ v ∈ a.variables, v ∈ V)
    (hobj : ∀ σ, ⟨"X"⟩ ∈ a.variables → I.atom σ a → IsObject (σ ⟨"X"⟩))
    (hV : ∀ v ∈ V, v = ⟨"X"⟩ ∨ ∃ b ∈ c.bodyAtoms, v ∈ b.variables) :
    Emits I V c (c.pushBody a) [a] [] fun σ => ¬ I.atom σ a := by
  have hpush : Emits I V c (c.pushBody a) [a] [] (I.implies [a] []) := by
    apply push
    · rfl
    · simp [AxiomClausifier.pushBody]
    · rfl
    · rfl
    · simpa using hvars
    · simp
    · simpa using hobj
    · exact hV
  apply hpush.congr
  intro σ _
  simp [ClauseInterp.implies]

theorem trans (h : Emits I V c c' body head T) (h' : Emits I V c' c'' body' head' T')
    (hV : ∀ v ∈ V, v ∉ c.future) :
    Emits I V c c'' (body ++ body') (head ++ head') fun σ => T σ ∨ T' σ := by
  have hblock := AxiomClausifier.block_union h.yIndex_le h'.yIndex_le h.zIndex_le h'.zIndex_le
  have hfst : V ∪ c.block c' ⊆ (c'.block c'')ᶜ := by
    rintro v (hv | hv) hv'
    · exact hV v hv (AxiomClausifier.future_anti h.yIndex_le h.zIndex_le
        (AxiomClausifier.block_subset_future hv'))
    · exact AxiomClausifier.block_disjoint_future hv (AxiomClausifier.block_subset_future hv')
  have hsnd : V ∪ c'.block c'' ⊆ (c.block c')ᶜ := by
    rintro v (hv | hv) hv'
    · exact hV v hv (AxiomClausifier.block_subset_future hv')
    · exact AxiomClausifier.block_disjoint_future hv' (AxiomClausifier.block_subset_future hv)
  constructor
  · rw [h'.body_eq, h.body_eq, append_assoc]
  · rw [h'.head_eq, h.head_eq, append_assoc]
  · exact h.yIndex_le.trans h'.yIndex_le
  · exact h.zIndex_le.trans h'.zIndex_le
  · intro b hb v hv
    rw [hblock, ← Set.union_assoc]
    rcases mem_append.mp hb with hb | hb
    · exact .inl (h.body_variables b hb v hv)
    · exact (h'.body_variables b hb v hv).elim (fun hv => .inl (.inl hv)) .inr
  · intro a ha v hv
    rw [hblock, ← Set.union_assoc]
    rcases mem_append.mp ha with ha | ha
    · exact .inl (h.head_variables a ha v hv)
    · exact (h'.head_variables a ha v hv).elim (fun hv => .inl (.inl hv)) .inr
  · intro σ b hb
    rcases mem_append.mp hb with hb | hb
    · exact h.body_object σ b hb
    · exact h'.body_object σ b hb
  · intro a ha v hv
    rcases mem_append.mp ha with ha | ha
    · rcases h.head_bound a ha v hv with hX | ⟨b, hb, hvb⟩
      · exact .inl hX
      · rw [h'.body_eq]
        exact .inr ⟨b, mem_append_left _ hb, hvb⟩
    · exact h'.head_bound a ha v hv
  · intro σ hσ
    have hP : DependsOn (I.implies body head) (c'.block c'')ᶜ :=
      (I.dependsOn_implies h.body_variables h.head_variables).mono hfst
    have hQ : DependsOn (I.implies body' head') (c.block c')ᶜ :=
      (I.dependsOn_implies h'.body_variables h'.head_variables).mono hsnd
    have happ : I.implies (body ++ body') (head ++ head') =
        fun τ => I.implies body head τ ∨ I.implies body' head' τ := by
      funext τ
      exact propext (I.implies_append body body' head head' τ)
    rw [happ, hblock, forallOver_union_or hP hQ, h.meaning σ hσ, h'.meaning σ hσ]

/-- A stretch under a fresh successor variable, guarded by atoms for it. -/
theorem bind {guard : List Atom} {c₁ : AxiomClausifier}
    (hhead₁ : c₁.headAtoms = c.headAtoms) (hbody₁ : c₁.bodyAtoms = c.bodyAtoms ++ guard)
    (hy₁ : c₁.yIndex = c.yIndex + 1) (hz₁ : c₁.zIndex = c.zIndex)
    (hguard : ∀ b ∈ guard, ∀ v ∈ b.variables, v ∈ V ∪ {indexedVariable "Y" c.yIndex})
    (hobj : ∀ σ, ∀ b ∈ guard, ⟨"X"⟩ ∈ b.variables → I.atom σ b → IsObject (σ ⟨"X"⟩))
    (hV : ∀ v ∈ V, v ∉ c.future)
    (h : Emits I (V ∪ {indexedVariable "Y" c.yIndex}) c₁ c' body head T) :
    Emits I V c c' (guard ++ body) head fun σ =>
      ∀ t, (∀ b ∈ guard, I.atom (Function.update σ (indexedVariable "Y" c.yIndex) t) b) →
        T (Function.update σ (indexedVariable "Y" c.yIndex) t) := by
  have hle : c.yIndex < c'.yIndex := by
    have := h.yIndex_le
    omega
  have hmem : indexedVariable "Y" c.yIndex ∈ c.block c' := .inl ⟨_, le_rfl, hle, rfl⟩
  have hblock : c.block c' = insert (indexedVariable "Y" c.yIndex) (c₁.block c') := by
    ext v
    simp only [AxiomClausifier.block, hy₁, hz₁]
    constructor
    · rintro (⟨i, hi, hlt, rfl⟩ | hz)
      · by_cases hic : i = c.yIndex
        · exact .inl (by rw [hic])
        · exact .inr (.inl ⟨i, by omega, hlt, rfl⟩)
      · exact .inr (.inr hz)
    · rintro (rfl | ⟨i, hi, hlt, rfl⟩ | hz)
      · exact hmem
      · exact .inl ⟨i, by omega, hlt, rfl⟩
      · exact .inr hz
  have hold : ∀ v ∈ V ∪ {indexedVariable "Y" c.yIndex}, v ∈ V ∪ c.block c' := by
    rintro v (hv | rfl)
    · exact .inl hv
    · exact .inr hmem
  constructor
  · rw [h.body_eq, hbody₁, append_assoc]
  · rw [h.head_eq, hhead₁]
  · exact hle.le
  · exact hz₁ ▸ h.zIndex_le
  · intro b hb v hv
    rcases mem_append.mp hb with hb | hb
    · exact hold v (hguard b hb v hv)
    · rcases h.body_variables b hb v hv with hv | hv
      · exact hold v hv
      · exact .inr (by rw [hblock]; exact .inr hv)
  · intro a ha v hv
    rcases h.head_variables a ha v hv with hv | hv
    · exact hold v hv
    · exact .inr (by rw [hblock]; exact .inr hv)
  · intro σ b hb
    rcases mem_append.mp hb with hb | hb
    · exact hobj σ b hb
    · exact h.body_object σ b hb
  · exact h.head_bound
  · intro σ hσ
    have hX : (⟨"X"⟩ : Variable) ≠ indexedVariable "Y" c.yIndex :=
      indexedVariable_ne (l := 'X') (m := 'Y') (by decide) 0 _
    rw [hblock, forallOver_insert]
    apply forall_congr'
    intro t
    rw [← h.meaning _ (by rwa [Function.update_of_ne hX])]
    -- The guard reads no later variable, so it leaves the quantifier.
    have hread : ∀ τ, Set.EqOn τ (Function.update σ (indexedVariable "Y" c.yIndex) t)
          (c₁.block c')ᶜ →
        ∀ b ∈ guard, (I.atom τ b ↔ I.atom (Function.update σ (indexedVariable "Y" c.yIndex) t) b) :=
          by
      intro τ hτ b hb
      apply I.atom_congr
      intro v hv
      apply hτ
      intro hv'
      rcases hguard b hb v hv with hvV | rfl
      · have hmem' : v ∈ c.block c' := by
          rw [hblock]
          exact Set.mem_insert_of_mem _ hv'
        exact hV v hvV (AxiomClausifier.block_subset_future hmem')
      · rcases hv' with ⟨i, hi, -, heq⟩ | ⟨i, -, -, heq⟩
        · have := indexedVariable_injective _ heq
          omega
        · exact indexedVariable_ne (l := 'Y') (m := 'Z') (by decide) _ _ heq
    constructor
    · intro hall hg τ hτ
      exact (I.implies_append_body guard body head τ).mp (hall τ hτ)
        fun b hb => (hread τ hτ b hb).mpr (hg b hb)
    · intro hall τ hτ
      rw [I.implies_append_body]
      intro hg
      exact hall (fun b hb => (hread τ hτ b hb).mp (hg b hb)) τ hτ

end Emits

end Hermit
