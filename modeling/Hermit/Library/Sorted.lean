import Mathlib

/-! # Sorted, duplicate-free lists

`sortDedup` is sorting followed by the removal of consecutive duplicates.  Over
a linear order this is the iteration order of an ordered set; its members are
those of the given list whatever the relation is.
-/

namespace Hermit

open List

variable {α : Type*}

section destutter

variable [DecidableEq α]

theorem mem_destutter'_ne (a x : α) (l : List α) : x ∈ l.destutter' (· ≠ ·) a ↔ x = a ∨ x ∈ l := by
  induction l generalizing a with
  | nil => simp
  | cons b l ih =>
    by_cases hab : a = b
    · subst hab
      simp [destutter'_cons_neg, ih]
    · simp [destutter'_cons_pos, hab, ih]

theorem mem_destutter_ne (x : α) (l : List α) : x ∈ l.destutter (· ≠ ·) ↔ x ∈ l := by
  cases l with
  | nil => simp
  | cons a l => simp [destutter_cons', mem_destutter'_ne]

end destutter

/-- Sort by `r`, then drop consecutive duplicates. -/
def sortDedup (r : α → α → Prop) [DecidableRel r] [DecidableEq α] (l : List α) : List α :=
  (l.insertionSort r).destutter (· ≠ ·)

@[simp] theorem mem_sortDedup (r : α → α → Prop) [DecidableRel r] [DecidableEq α]
    (l : List α) (x : α) : x ∈ sortDedup r l ↔ x ∈ l := by
  rw [sortDedup, mem_destutter_ne, mem_insertionSort]

/-- A sorted list without consecutive duplicates has no duplicates. -/
theorem nodup_of_pairwise_of_isChain {r : α → α → Prop} (hanti : ∀ a b, r a b → r b a → a = b)
    {l : List α} (hsort : l.Pairwise r) (hchain : l.IsChain (· ≠ ·)) : l.Nodup := by
  induction l with
  | nil => exact nodup_nil
  | cons a l ih =>
    obtain ⟨ha, hl⟩ := pairwise_cons.mp hsort
    refine nodup_cons.mpr ⟨fun hmem => ?_, ih hl hchain.tail⟩
    cases l with
    | nil => simp at hmem
    | cons b l =>
      have hab : a ≠ b := (isChain_cons_cons.mp hchain).1
      rcases mem_cons.mp hmem with rfl | hmem
      · exact hab rfl
      · exact hab (hanti a b (ha b (by simp)) ((pairwise_cons.mp hl).1 a hmem))

section

variable (r : α → α → Prop) (htotal : ∀ a b, r a b ∨ r b a)
  (htrans : ∀ a b c, r a b → r b c → r a c)
include r htotal htrans

theorem nodup_sortDedup [DecidableRel r] [DecidableEq α] (hanti : ∀ a b, r a b → r b a → a = b)
    (l : List α) : (sortDedup r l).Nodup := by
  have : Std.Total r := ⟨htotal⟩
  have : IsTrans α r := ⟨htrans⟩
  apply nodup_of_pairwise_of_isChain hanti
  · exact (pairwise_insertionSort r l).sublist (destutter_sublist _ _)
  · exact isChain_destutter _ _

theorem pairwise_sortDedup [DecidableRel r] [DecidableEq α] (l : List α) :
    (sortDedup r l).Pairwise r := by
  have : Std.Total r := ⟨htotal⟩
  have : IsTrans α r := ⟨htrans⟩
  exact (pairwise_insertionSort r l).sublist (destutter_sublist _ _)

end

/-- Sorted lists without duplicates are known by their members. -/
theorem eq_of_pairwise_of_mem_iff {r : α → α → Prop} (hanti : ∀ a b, r a b → r b a → a = b)
    {l l' : List α}
    (hsort : l.Pairwise r) (hsort' : l'.Pairwise r) (hnd : l.Nodup) (hnd' : l'.Nodup)
    (h : ∀ x, x ∈ l ↔ x ∈ l') : l = l' :=
  ((perm_ext_iff_of_nodup hnd hnd').mpr h).eq_of_pairwise (fun a b _ _ => hanti a b)
    hsort hsort'

/-- The entries of an ordered map, in the order of their keys. -/
def orderedEntries {κ ν : Type*} (r : κ → κ → Prop) [DecidableRel r]
    (m : AList fun _ : κ => ν) : List (Sigma fun _ : κ => ν) :=
  m.entries.insertionSort fun a b => r a.1 b.1

@[simp] theorem mem_orderedEntries {κ ν : Type*} (r : κ → κ → Prop) [DecidableRel r]
    (m : AList fun _ : κ => ν) (e : Sigma fun _ : κ => ν) :
    e ∈ orderedEntries r m ↔ e ∈ m.entries := by
  rw [orderedEntries, mem_insertionSort]

end Hermit
