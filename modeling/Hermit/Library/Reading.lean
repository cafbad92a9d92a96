import Hermit.Library.Automata

/-! # Reading words along relations

A word over a family of relations relates two points when its letters lead from one to
the other.  The points from which every word that an automaton accepts leads into a
set are the largest family of sets, one for each state, that the transitions carry
into each other.
-/

namespace Hermit.Automata

variable {α β σ D : Type*}

/-- The pairs related along the letters of a word. -/
def Along (R : α → D → D → Prop) : List α → D → D → Prop
  | [], x, y => x = y
  | a :: w, x, y => ∃ z, R a x z ∧ Along R w z y

section along

variable {R R' : α → D → D → Prop}

theorem along_singleton (a : α) (x y : D) : Along R [a] x y ↔ R a x y := by
  simp [Along]

theorem along_append (v w : List α) (x y : D) :
    Along R (v ++ w) x y ↔ ∃ z, Along R v x z ∧ Along R w z y := by
  induction v generalizing x with
  | nil => simp [Along]
  | cons a v ih =>
    simp only [List.cons_append, Along, ih]
    constructor
    · rintro ⟨u, hu, z, hz, hy⟩
      exact ⟨z, ⟨u, hu, hz⟩, hy⟩
    · rintro ⟨z, ⟨u, hu, hz⟩, hy⟩
      exact ⟨u, hu, z, hz, hy⟩

/-- Replacing letters by larger relations keeps a path. -/
theorem Along.of_forall₂ {S : β → D → D → Prop} {B : α → β → Prop}
    (hB : ∀ a b, B a b → ∀ x y, R a x y → S b x y) {v : List α} {w : List β}
    (hvw : List.Forall₂ B v w) {x y : D} (h : Along R v x y) : Along S w x y := by
  induction hvw generalizing x with
  | nil => exact h
  | cons hab _ ih =>
    obtain ⟨z, hz, hy⟩ := h
    exact ⟨z, hB _ _ hab _ _ hz, ih hy⟩

/-- Reading a word backwards, with every letter inverted. -/
theorem along_reverse_map (f : α → α) (hf : ∀ a x y, R (f a) x y ↔ R a y x) (w : List α) (x y : D) :
    Along R (w.map f).reverse x y ↔ Along R w y x := by
  induction w generalizing y with
  | nil => exact eq_comm
  | cons a w ih =>
    rw [List.map_cons, List.reverse_cons, along_append]
    refine exists_congr fun z => ?_
    rw [ih, along_singleton, hf]
    exact and_comm

/-- A word whose letters stand for languages expands to a word of their product. -/
theorem exists_mem_prod_of_along (L : β → Language α) {v : List β} {x y : D}
    (h : Along (fun b x y => ∃ w ∈ L b, Along R w x y) v x y) :
    ∃ w ∈ (v.map L).prod, Along R w x y := by
  induction v generalizing x with
  | nil => exact ⟨[], rfl, h⟩
  | cons b v ih =>
    obtain ⟨z, ⟨w, hw, hz⟩, hy⟩ := h
    obtain ⟨w', hw', hy'⟩ := ih hy
    refine ⟨w ++ w', ?_, (along_append w w' x y).mpr ⟨z, hz, hy'⟩⟩
    rw [List.map_cons, List.prod_cons]
    exact Language.append_mem_mul hw hw'

end along

section guarded

variable (M : εNFA α σ) (t : σ) (R : α → D → D → Prop) (F : Set D)

/-- The points from which every word that leads from a state to `t` leads into `F`. -/
def guarded (s : σ) : Set D := {x | ∀ w ∈ wordsTo M t s, ∀ y, Along R w x y → y ∈ F}

/-- Sets of points for the states that the transitions carry into each other. -/
structure Propagates (S : σ → Set D) : Prop where
  silent : ∀ s s', s' ∈ M.step s none → S s ⊆ S s'
  letter : ∀ s a s', s' ∈ M.step s (some a) → ∀ x ∈ S s, ∀ y, R a x y → y ∈ S s'

theorem guarded_subset : guarded M t R F t ⊆ F := by
  intro x hx
  exact hx [] ⟨[], rfl, .nil t⟩ x rfl

theorem propagates_guarded : Propagates M R (guarded M t R F) := by
  refine ⟨fun s s' hstep x hx w hw y hy => ?_, fun s a s' hstep x hx y hy w hw z hz => ?_⟩
  · exact hx w (backward_wordsTo t s none s' hstep w hw) y hy
  · exact hx (a :: w) (backward_wordsTo t s (some a) s' hstep w hw) z ⟨y, hy, hz⟩

variable {M t R F} in
/-- What the transitions carry along reaches `t` with every word. -/
theorem Propagates.subset_guarded {S : σ → Set D} (h : Propagates M R S) (hF : S t ⊆ F) (s : σ) :
    S s ⊆ guarded M t R F s := by
  rintro x hx w ⟨path, rfl, hpath⟩ y hy
  induction hpath generalizing x with
  | nil s =>
    obtain rfl : x = y := hy
    exact hF hx
  | cons s' s u l path hstep _ ih =>
    cases l with
    | none => exact ih hF (h.silent _ _ hstep hx) hy
    | some a =>
      obtain ⟨z, hz, hy⟩ := hy
      exact ih hF (h.letter _ a _ hstep x hx z hz) hy

end guarded

end Hermit.Automata
