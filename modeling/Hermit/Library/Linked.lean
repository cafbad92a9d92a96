import Mathlib

/-! # Lists threaded through links

The links are functions on positions.  A list is threaded through them when following the
link from its head visits exactly its elements; in a doubly threaded list every element also
links back to the one before.
-/

namespace Hermit.Library

open List

variable {α : Type*} {next next' prev prev' : α → Option α}

/-- Following the link from the head visits the list and ends. -/
def Linked (next : α → Option α) : Option α → List α → Prop
  | head, [] => head = none
  | head, i :: l => head = some i ∧ Linked next (next i) l

section

variable {head : Option α} {l : List α} (h : Linked next head l)
include h

theorem Linked.congr (heq : ∀ i ∈ l, next' i = next i) : Linked next' head l := by
  induction l generalizing head with
  | nil => exact h
  | cons i l ih =>
    obtain ⟨hhead, hrest⟩ := h
    refine ⟨hhead, ?_⟩
    rw [heq i mem_cons_self]
    exact ih hrest fun j hj => heq j (mem_cons_of_mem i hj)

theorem Linked.head_eq : head = l.head? := by
  cases l with
  | nil => exact h
  | cons i l => exact h.1

end

variable {i : α}

theorem Linked.mem_of_head {head : Option α} {l : List α} (h : Linked next head l)
    (hi : head = some i) : i ∈ l :=
  mem_of_head? (h.head_eq.symm.trans hi)

theorem Linked.eq {head : Option α} {l l' : List α} (h : Linked next head l)
    (h' : Linked next head l') :
    l = l' := by
  induction l generalizing head l' with
  | nil =>
    cases l' with
    | nil => rfl
    | cons j l' =>
      have hnone : head = none := h
      rw [hnone] at h'
      cases h'.1
  | cons i l ih =>
    obtain ⟨rfl, hrest⟩ := h
    cases l' with
    | nil => cases h'
    | cons j l' =>
      obtain ⟨hij, hrest'⟩ := h'
      obtain rfl := Option.some.inj hij
      rw [ih hrest hrest']

/-- The part of a threaded list from one of its elements on is threaded. -/
theorem Linked.drop {head : Option α} {l r : List α} (h : Linked next head (l ++ i :: r)) :
    Linked next (some i) (i :: r) := by
  induction l generalizing head with
  | nil => exact ⟨rfl, h.2⟩
  | cons j l ih => exact ih h.2

theorem Linked.nodup {head : Option α} {l : List α} (h : Linked next head l) : l.Nodup := by
  induction l generalizing head with
  | nil => exact nodup_nil
  | cons i l ih =>
    refine nodup_cons.mpr ⟨fun hi => ?_, ih h.2⟩
    -- An element that came back would be followed by the same list again.
    obtain ⟨s, t, rfl⟩ := append_of_mem hi
    have hlong : Linked next (some i) (i :: (s ++ i :: t)) := ⟨rfl, h.2⟩
    have hlen := congrArg List.length (hlong.eq (Linked.drop h.2))
    simp only [length_cons, length_append] at hlen
    omega

/-- What a threaded list is like without one of its elements: the one before links past it. -/
theorem Linked.remove {head head' : Option α} {l r : List α}
    (h : Linked next head (l ++ i :: r)) (hhead : head' = if l = [] then next i else head)
    (hlast : ∀ j, l.getLast? = some j → next' j = next i)
    (hnext : ∀ j ∈ l ++ r, l.getLast? ≠ some j → next' j = next j) :
    Linked next' head' (l ++ r) := by
  have hnd := h.nodup
  induction l generalizing head head' with
  | nil =>
    rw [if_pos rfl] at hhead
    rw [hhead]
    exact h.2.congr fun j hj => hnext j hj (by simp)
  | cons k l ih =>
    obtain ⟨rfl, hrest⟩ := h
    rw [if_neg (cons_ne_nil k l)] at hhead
    obtain ⟨hk, hnd⟩ := nodup_cons.mp hnd
    refine ⟨hhead, ih hrest ?_ ?_ ?_ hnd⟩
    · cases l with
      | nil => exact hlast k rfl
      | cons j l =>
        rw [if_neg (cons_ne_nil j l)]
        apply hnext k mem_cons_self
        rw [getLast?_cons_cons]
        intro heq
        exact hk (mem_append_left _ (mem_of_getLast? heq))
    · intro j hj
      apply hlast j
      cases l with
      | nil => cases hj
      | cons m l =>
        rw [getLast?_cons_cons]
        exact hj
    · intro j hj hne
      apply hnext j (mem_cons_of_mem k hj)
      cases l with
      | nil =>
        intro heq
        obtain rfl : k = j := by simpa using heq
        exact hk (mem_cons_of_mem i hj)
      | cons m l =>
        rw [getLast?_cons_cons]
        exact hne

theorem Linked.concat {head : Option α} {l : List α} (h : Linked next head l)
    (hi : next' i = none) (hlast : ∀ j, l.getLast? = some j → next' j = some i)
    (hnext : ∀ j ∈ l, l.getLast? ≠ some j → next' j = next j) :
    Linked next' (head.or (some i)) (l ++ [i]) := by
  have hnd := h.nodup
  induction l generalizing head with
  | nil =>
    rw [show head = none from h]
    exact ⟨rfl, hi⟩
  | cons k l ih =>
    obtain ⟨rfl, hrest⟩ := h
    obtain ⟨hk, hnd⟩ := nodup_cons.mp hnd
    cases l with
    | nil => exact ⟨rfl, hlast k rfl, hi⟩
    | cons m l =>
      simp only [getLast?_cons_cons] at hlast hnext
      have hkm : next' k = next k := hnext k mem_cons_self fun heq => hk (mem_of_getLast? heq)
      have hrest' := ih hrest hlast (fun j hj => hnext j (mem_cons_of_mem k hj)) hnd
      rw [hrest.1] at hrest'
      refine ⟨rfl, ?_⟩
      rw [hkm, hrest.1]
      exact hrest'

/-! ## Lists threaded both ways -/

/-- A list threaded forwards through one link and backwards through another. -/
structure DoublyLinked (prev next : α → Option α) (head : Option α) (l : List α) : Prop where
  forward : Linked next head l
  backward : Linked prev l.getLast? l.reverse

theorem DoublyLinked.congr {head : Option α} {l : List α} (h : DoublyLinked prev next head l)
    (hprev : ∀ i ∈ l, prev' i = prev i) (hnext : ∀ i ∈ l, next' i = next i) :
    DoublyLinked prev' next' head l :=
  ⟨h.forward.congr hnext, h.backward.congr fun i hi => hprev i (mem_reverse.mp hi)⟩

theorem doublyLinked_nil : DoublyLinked prev next none [] := ⟨rfl, rfl⟩

theorem DoublyLinked.head_eq {head : Option α} {l : List α} (h : DoublyLinked prev next head l) :
    head = l.head? := h.forward.head_eq

/-- A new element in front. -/
theorem DoublyLinked.push {head : Option α} {l : List α} {i : α} (h : DoublyLinked prev next head l)
    (hprev_new : prev' i = none) (hnext_new : next' i = head)
    (hprev_head : ∀ j, head = some j → prev' j = some i)
    (hprev : ∀ j ∈ l, head ≠ some j → prev' j = prev j) (hnext : ∀ j ∈ l, next' j = next j) :
    DoublyLinked prev' next' (some i) (i :: l) := by
  have hlast : l.reverse.getLast? = head := by
    rw [getLast?_reverse, h.head_eq]
  constructor
  · refine ⟨rfl, ?_⟩
    rw [hnext_new]
    exact h.forward.congr hnext
  · rw [reverse_cons, getLast?_cons]
    have hconcat : Linked prev' (l.getLast?.or (some i)) (l.reverse ++ [i]) := by
      refine h.backward.concat hprev_new (fun j hj => ?_) fun j hj hne => ?_
      · exact hprev_head j (hlast.symm.trans hj)
      · exact hprev j (mem_reverse.mp hj) fun heq => hne (hlast.trans heq)
    cases hl : l.getLast? with
    | none | some k =>
      rw [hl] at hconcat
      exact hconcat

theorem DoublyLinked.neighbours {head : Option α} {l r : List α}
    (h : DoublyLinked prev next head (l ++ i :: r)) : prev i = l.getLast? ∧ next i = r.head? := by
  have hback := h.backward
  rw [reverse_append, reverse_cons, append_assoc, singleton_append] at hback
  refine ⟨?_, h.forward.drop.2.head_eq⟩
  rw [hback.drop.2.head_eq, head?_reverse]

/-- What is left when the neighbours of an element link to each other. -/
theorem DoublyLinked.remove {head head' : Option α} {l r : List α}
    (h : DoublyLinked prev next head (l ++ i :: r))
    (hhead : head' = if prev i = none then next i else head)
    (hnext_prev : ∀ j, prev i = some j → next' j = next i)
    (hnext : ∀ j ∈ l ++ r, prev i ≠ some j → next' j = next j)
    (hprev_next : ∀ j, next i = some j → prev' j = prev i)
    (hprev : ∀ j ∈ l ++ r, next i ≠ some j → prev' j = prev j) :
    DoublyLinked prev' next' head' (l ++ r) := by
  obtain ⟨hpi, hni⟩ := h.neighbours
  constructor
  · refine h.forward.remove ?_ (fun j hj => hnext_prev j (hpi.trans hj))
      fun j hj hne => hnext j hj fun heq => hne (hpi.symm.trans heq)
    rw [hhead, hpi]
    simp only [getLast?_eq_none_iff]
  · have hback := h.backward
    rw [reverse_append, reverse_cons, append_assoc, singleton_append] at hback
    rw [reverse_append]
    have hlast : r.reverse.getLast? = next i := by
      rw [getLast?_reverse, hni]
    refine hback.remove ?_ (fun j hj => hprev_next j (hlast.symm.trans hj)) fun j hj hne => ?_
    · cases r with
      | nil => simp [hpi]
      | cons k r => simp
    · refine hprev j ?_ fun heq => hne (hlast.trans heq)
      rw [mem_append, mem_reverse, mem_reverse] at hj
      exact mem_append.mpr hj.symm

end Hermit.Library
