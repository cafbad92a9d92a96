import Mathlib

/-! # Trails with marks

Entries are appended to a trail, and going back takes all entries after a mark away.  The marks are
the lengths of the trail at the times they were set; what is before a mark was there at that time.
-/

namespace Hermit

open List

/-- A trail whose entries before the mark of a level have a property of that level. -/
structure Trail {α : Type*} (Before : ℕ → α → Prop) (marks : List ℕ) (entries : List α) : Prop where
  marks_le : ∀ mark ∈ marks, mark ≤ entries.length
  monotone : marks.Pairwise (· ≤ ·)
  before : ∀ (level mark : ℕ), marks[level]? = some mark → ∀ e ∈ entries.take mark, Before level e

namespace Trail

variable {α : Type*} {Before Before' : ℕ → α → Prop} {marks : List ℕ} {entries : List α}
    {level mark : ℕ}

theorem nil : Trail Before [] entries :=
  ⟨nofun, List.Pairwise.nil, nofun⟩

section

variable (h : Trail Before marks entries)
include h

theorem le_length (hmark : marks[level]? = some mark) : mark ≤ entries.length :=
  h.marks_le mark (mem_of_getElem? hmark)

theorem mark_le {i mark' : ℕ} (hmark' : marks[i]? = some mark') (hmark : marks[level]? = some mark)
    (hle : i ≤ level) : mark' ≤ mark := by
  obtain ⟨hlt, rfl⟩ := List.getElem?_eq_some_iff.mp hmark'
  obtain ⟨hlt', rfl⟩ := List.getElem?_eq_some_iff.mp hmark
  exact h.monotone.rel_get_of_le (a := ⟨i, hlt⟩) (b := ⟨level, hlt'⟩) hle

theorem imp
    (himp : ∀ (level mark : ℕ), marks[level]? = some mark → ∀ e ∈ entries.take mark,
      Before level e → Before' level e) :
    Trail Before' marks entries :=
  ⟨h.marks_le, h.monotone, fun level mark hmark e he =>
      himp level mark hmark e he (h.before level mark hmark e he)⟩

theorem append (new : List α) : Trail Before marks (entries ++ new) where
  marks_le mark hmark := by
    rw [length_append]
    exact (h.marks_le mark hmark).trans (Nat.le_add_right _ _)
  monotone := h.monotone
  before level mark hmark := by
    rw [take_append_of_le_length (h.le_length hmark)]
    exact h.before level mark hmark

end

/-- Set a mark at the end. -/
theorem push (h : Trail Before marks entries) (hall : ∀ e ∈ entries, Before marks.length e) :
    Trail Before (marks ++ [entries.length]) entries where
  marks_le := forall_mem_append.mpr ⟨h.marks_le, forall_mem_singleton.mpr le_rfl⟩
  monotone := by
    rw [pairwise_append]
    refine ⟨h.monotone, pairwise_singleton _ _, ?_⟩
    intro mark hmark last hlast
    rw [mem_singleton.mp hlast]
    exact h.marks_le mark hmark
  before level mark hmark := by
    rw [getElem?_append] at hmark
    split at hmark
    · exact h.before level mark hmark
    · rename_i hlev
      have hzero : level - marks.length = 0 := by
        have hlt := (List.getElem?_eq_some_iff.mp hmark).1
        rw [length_singleton] at hlt
        omega
      have heq : level = marks.length := by omega
      rw [heq]
      exact fun e he => hall e (mem_of_mem_take he)

/-- Go back to a mark, which stays. -/
theorem backtrack (h : Trail Before marks entries) (hmark : marks[level]? = some mark) :
    Trail Before (marks.take (level + 1)) (entries.take mark) := by
  have hle : ∀ (i mark' : ℕ), (marks.take (level + 1))[i]? = some mark' →
      marks[i]? = some mark' ∧ mark' ≤ mark := by
    intro i mark' hmark'
    rw [getElem?_take] at hmark'
    split at hmark'
    · rename_i hlt
      exact ⟨hmark', h.mark_le hmark' hmark (Nat.le_of_lt_succ hlt)⟩
    · cases hmark'
  refine ⟨?_, h.monotone.sublist (take_sublist _ _), ?_⟩
  · intro mark' hmem
    obtain ⟨i, hi⟩ := mem_iff_getElem?.mp hmem
    rw [length_take, min_eq_left (h.le_length hmark)]
    exact (hle i mark' hi).2
  · intro i mark' hmark'
    obtain ⟨hmark', hle'⟩ := hle i mark' hmark'
    rw [take_take, min_eq_left hle']
    exact h.before i mark' hmark'

end Trail

end Hermit
