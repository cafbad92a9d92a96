import Mathlib

/-! # Sets in disjoint pieces

A set is held as a list of pieces that do not meet.  Cutting every piece by another set cuts the
whole, and the pieces still do not meet.
-/

namespace Hermit.Pieces

open List

variable {ι κ α : Type*} {den : ι → Set α} {den' : κ → Set α} {l : List ι} {s t : Set α}

/-- The pieces are disjoint and make up a set. -/
structure Tiles (den : ι → Set α) (l : List ι) (s : Set α) : Prop where
  disjoint : l.Pairwise fun i j => Disjoint (den i) (den j)
  mem_iff : ∀ x, x ∈ s ↔ ∃ i ∈ l, x ∈ den i

theorem tiles_singleton (i : ι) : Tiles den [i] (den i) :=
  ⟨pairwise_singleton _ i, fun x => by simp⟩

theorem Tiles.congr (h : Tiles den l s) (hs : ∀ x, x ∈ t ↔ x ∈ s) : Tiles den l t :=
  ⟨h.disjoint, fun x => (hs x).trans (h.mem_iff x)⟩

/-- An optional piece. -/
theorem tiles_toList {i : Option ι} (h : ∀ x, x ∈ s ↔ ∃ j ∈ i, x ∈ den j) :
    Tiles den i.toList s := by
  refine ⟨?_, fun x => by simpa using h x⟩
  cases i with
  | none => exact List.Pairwise.nil
  | some j => exact pairwise_singleton _ j

theorem Tiles.flatMap (h : Tiles den l s) {f : ι → List κ}
    (hf : ∀ i ∈ l, Tiles den' (f i) (den i ∩ t)) :
    Tiles den' (l.flatMap f) (s ∩ t) := by
  have hsub : ∀ i ∈ l, ∀ j ∈ f i, den' j ⊆ den i :=
    fun i hi j hj x hx => (((hf i hi).mem_iff x).mpr ⟨j, hj, hx⟩).1
  constructor
  · rw [pairwise_flatMap]
    refine ⟨fun i hi => (hf i hi).disjoint, h.disjoint.imp_of_mem ?_⟩
    intro i i' hi hi' hdisj j hj j' hj'
    exact hdisj.mono (hsub i hi j hj) (hsub i' hi' j' hj')
  · intro x
    constructor
    · rintro ⟨hs, ht⟩
      obtain ⟨i, hi, hx⟩ := (h.mem_iff x).mp hs
      obtain ⟨j, hj, hx⟩ := ((hf i hi).mem_iff x).mp ⟨hx, ht⟩
      exact ⟨j, mem_flatMap.mpr ⟨i, hi, hj⟩, hx⟩
    · rintro ⟨j, hj, hx⟩
      obtain ⟨i, hi, hj⟩ := mem_flatMap.mp hj
      obtain ⟨hxi, ht⟩ := ((hf i hi).mem_iff x).mpr ⟨j, hj, hx⟩
      exact ⟨(h.mem_iff x).mpr ⟨i, hi, hxi⟩, ht⟩

theorem Tiles.filterMap (h : Tiles den l s) {f : ι → Option κ}
    (hf : ∀ i ∈ l, ∀ x, x ∈ den i ∩ t ↔ ∃ j ∈ f i, x ∈ den' j) :
    Tiles den' (l.filterMap f) (s ∩ t) := by
  rw [filterMap_eq_flatMap_toList]
  exact h.flatMap fun i hi => tiles_toList (hf i hi)

/-- Pieces of another type that are told by a part of their elements. -/
theorem Tiles.map (h : Tiles den l s) {β : Type*} {den' : κ → Set β} {g : ι → κ} {p : β → Prop}
    {part : β → α} (hg : ∀ i y, y ∈ den' (g i) ↔ p y ∧ part y ∈ den i) :
    Tiles den' (l.map g) {y | p y ∧ part y ∈ s} := by
  constructor
  · rw [pairwise_map]
    refine h.disjoint.imp fun {i j} hdisj => Set.disjoint_left.mpr fun y hi hj => ?_
    exact Set.disjoint_left.mp hdisj ((hg i y).mp hi).2 ((hg j y).mp hj).2
  · intro y
    rw [Set.mem_ofPred_eq, h.mem_iff]
    constructor
    · rintro ⟨hp, i, hi, hy⟩
      exact ⟨g i, mem_map_of_mem hi, (hg i y).mpr ⟨hp, hy⟩⟩
    · rintro ⟨j, hj, hy⟩
      obtain ⟨i, hi, rfl⟩ := mem_map.mp hj
      obtain ⟨hp, hy⟩ := (hg i y).mp hy
      exact ⟨hp, i, hi, hy⟩

/-! ## Excluded elements -/

section excluded

variable [DecidableEq α]

/-- Keep the elements that satisfy a condition, each of them once. -/
def collect (inside : α → Bool) (values : List α) : List α :=
  values.foldl (fun kept v => if inside v && !kept.contains v then kept ++ [v] else kept) []

theorem collect_spec (inside : α → Bool) (values : List α) :
    (collect inside values).Nodup ∧ ∀ x, x ∈ collect inside values ↔
    x ∈ values ∧ inside x = true := by
  -- What was kept before the scan stays, and the new elements are those of the list.
  have hfold : ∀ (values kept : List α), kept.Nodup →
      (values.foldl (fun kept v => if inside v && !kept.contains v then kept ++ [v] else kept)
        kept).Nodup ∧
        ∀ x, x ∈ values.foldl (fun kept v => if inside v && !kept.contains v then kept ++
          [v] else kept) kept ↔
          x ∈ kept ∨ (x ∈ values ∧ inside x = true) := by
    intro values
    induction values with
    | nil => exact fun kept hkept => ⟨hkept, fun x => by simp⟩
    | cons v values ih =>
      intro kept hkept
      rw [foldl_cons]
      by_cases hv : (inside v && !kept.contains v) = true
      · rw [if_pos hv]
        rw [Bool.and_eq_true, Bool.not_eq_true', contains_eq_mem, decide_eq_false_iff_not] at hv
        obtain ⟨hnd, hmem⟩ := ih (kept ++ [v]) (nodup_append.mpr ⟨hkept, nodup_singleton v, by
          rintro a ha b hb rfl
          exact hv.2 (mem_singleton.mp hb ▸ ha)⟩)
        refine ⟨hnd, fun x => ?_⟩
        rw [hmem, mem_append, mem_singleton, mem_cons]
        grind
      · rw [if_neg hv]
        obtain ⟨hnd, hmem⟩ := ih kept hkept
        refine ⟨hnd, fun x => ?_⟩
        rw [hmem, mem_cons]
        grind
  obtain ⟨hnd, hmem⟩ := hfold values [] nodup_nil
  exact ⟨hnd, fun x => (hmem x).trans (or_iff_right not_mem_nil)⟩

end excluded

end Hermit.Pieces
