import Mathlib

/-! # Choosing related elements

A depth-first search takes elements of a list one after the other, in the order of the list, so that
each is related to all that were taken before, and takes the last one back when it cannot go on.  It
comes to the wanted number just if some sublist of that length is related pairwise.
-/

namespace Hermit.Library

open List

variable {α : Type*} (R : α → α → Bool) (count : ℕ)

/-- Go on with the rest of a list; the elements that are taken are returned as they then are. -/
def selectFrom : List α → List α → Bool × List α
  | [], selected => (false, selected)
  | a :: rest, selected =>
    if selected.all (R a) then
      let selected := selected ++ [a]
      let (found, selected) := if selected.length =
        count then (true, selected) else selectFrom rest selected
      if found then (true, selected) else selectFrom rest selected.dropLast
    else selectFrom rest selected

/-- Members of a list that can be taken together with those that are taken. -/
structure Completes (rest selected chosen : List α) : Prop where
  sublist : chosen.Sublist rest
  length : selected.length + chosen.length = count
  related : ∀ a ∈ chosen, ∀ b ∈ selected, R a b = true
  pairwise : chosen.Pairwise fun a b => R b a = true

variable {R count} {a : α} {rest selected chosen : List α}

theorem Completes.skip (h : Completes R count rest selected chosen) :
    Completes R count (a :: rest) selected chosen :=
  ⟨h.sublist.cons a, h.length, h.related, h.pairwise⟩

theorem Completes.take (h : Completes R count rest (selected ++ [a]) chosen)
    (ha : ∀ b ∈ selected, R a b = true) :
    Completes R count (a :: rest) selected (a :: chosen) where
  sublist := h.sublist.cons_cons a
  length := by
    have hlen := h.length
    rw [length_append, length_singleton] at hlen
    rw [length_cons]
    omega
  related := by
    refine forall_mem_cons.mpr ⟨?_, ?_⟩
    · exact ha
    · exact fun c hc b hb => h.related c hc b (mem_append_left _ hb)
  pairwise := by
    apply pairwise_cons.mpr
    exact ⟨fun c hc => h.related c hc a (mem_append_right _ (mem_singleton_self a)), h.pairwise⟩

/-- The first element of the list is taken or not. -/
theorem Completes.cases (h : Completes R count (a :: rest) selected chosen) :
    Completes R count rest selected chosen ∨ ∃ chosen', (∀ b ∈ selected, R a b = true) ∧
      Completes R count rest (selected ++ [a]) chosen' := by
  obtain ⟨hsubl, hlen, hrel, hpw⟩ := h
  cases hsubl with
  | cons _ hsubl => exact .inl ⟨hsubl, hlen, hrel, hpw⟩
  | @cons_cons chosen' _ _ hsubl =>
    obtain ⟨ha, hrel'⟩ := forall_mem_cons.mp hrel
    obtain ⟨hfst, hpw'⟩ := pairwise_cons.mp hpw
    refine .inr ⟨chosen', ha, hsubl, ?_, fun c hc b hb => ?_, hpw'⟩
    · rw [length_cons] at hlen
      rw [length_append, length_singleton]
      omega
    · rcases mem_append.mp hb with hb | hb
      · exact hrel' c hc b hb
      · rw [mem_singleton.mp hb]
        exact hfst c hc

/-- The search comes to the wanted number just if that is possible; otherwise it has taken
everything back. -/
theorem selectFrom_spec (hlt : selected.length < count) :
    ((selectFrom R count rest selected).1 = true ↔ ∃ chosen,
      Completes R count rest selected chosen) ∧ ((selectFrom R count rest selected).1 = false →
        (selectFrom R count rest selected).2 = selected) := by
  induction rest generalizing selected with
  | nil =>
    refine ⟨⟨nofun, ?_⟩, fun _ => rfl⟩
    rintro ⟨chosen, hsubl, hlen, -, -⟩
    rw [eq_nil_of_sublist_nil hsubl, length_nil] at hlen
    omega
  | cons a rest ih =>
    obtain ⟨hskip, hskipped⟩ := ih hlt
    rw [selectFrom]
    split
    · rename_i hall
      have ha : ∀ b ∈ selected, R a b = true := all_eq_true.mp hall
      have hlen : (selected ++ [a]).length = selected.length + 1 := length_append
      dsimp only
      split
      · -- The wanted number is reached with this element.
        rename_i hcount
        refine ⟨⟨fun _ => ?_, fun _ => rfl⟩, nofun⟩
        have hdone : Completes R count rest (selected ++ [a]) [] :=
          ⟨nil_sublist _, hcount, fun _ h => absurd h not_mem_nil, .nil⟩
        exact ⟨[a], hdone.take ha⟩
      · rename_i hcount
        have hlt' : (selected ++ [a]).length < count := by omega
        obtain ⟨htake, htaken⟩ := ih hlt'
        cases hfnd : (selectFrom R count rest (selected ++ [a])).1 with
        | true =>
          rw [hfnd] at htake
          obtain ⟨chosen, hch⟩ := htake.mp rfl
          rw [if_pos rfl]
          exact ⟨⟨fun _ => ⟨_, hch.take ha⟩, fun _ => rfl⟩, nofun⟩
        | false =>
          rw [if_neg Bool.false_ne_true, htaken hfnd, dropLast_concat]
          refine ⟨hskip.trans ⟨?_, ?_⟩, hskipped⟩
          · rintro ⟨chosen, hch⟩
            exact ⟨chosen, hch.skip⟩
          · rintro ⟨chosen, hch⟩
            rcases hch.cases with hrest | ⟨chosen', -, hrest⟩
            · exact ⟨chosen, hrest⟩
            · rw [htake.mpr ⟨chosen', hrest⟩] at hfnd
              cases hfnd
    · rename_i hall
      refine ⟨hskip.trans ⟨?_, ?_⟩, hskipped⟩
      · rintro ⟨chosen, hch⟩
        exact ⟨chosen, hch.skip⟩
      · rintro ⟨chosen, hch⟩
        rcases hch.cases with hrest | ⟨-, ha, -⟩
        · exact ⟨chosen, hrest⟩
        · exact absurd (all_eq_true.mpr ha) hall

end Hermit.Library
