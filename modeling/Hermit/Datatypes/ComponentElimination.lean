import Hermit.Datatypes.Component
import Hermit.Library.Coloring

/-! # Eliminating nodes

The degrees are those among the nodes that are left, and a node that is left and does not wait
has not enough values.  Each node that goes takes its neighbours back into the queue, but then
there is one node less, so the elimination ends.
-/

namespace Hermit.Datatypes

open Library List Function

variable {n : ℕ}

namespace Elimination

/-! ## One node goes -/

theorem loseNeighbour_of_alive {s : Elimination n} {j : Fin n} (h : s.alive j = true) :
    s.loseNeighbour j =
    { s with
      degree := Function.update s.degree j (s.degree j - 1)
      queue := if j ∈ s.queue then s.queue else j :: s.queue } := if_pos h

theorem loseNeighbour_of_not_alive {s : Elimination n} {j : Fin n} (h : ¬ s.alive j = true) :
    s.loseNeighbour j = s := if_neg h

/-- The neighbours that are left have one neighbour less, and wait. -/
theorem foldl_loseNeighbour {nbs : List (Fin n)} (hnd : nbs.Nodup) (s : Elimination n)
    (hqueue : s.queue.Nodup) :
    (nbs.foldl loseNeighbour s).alive = s.alive ∧ (∀ j, (nbs.foldl loseNeighbour s).degree j =
        if j ∈ nbs ∧ s.alive j = true then s.degree j - 1 else s.degree j) ∧
      (nbs.foldl loseNeighbour s).queue.Nodup ∧
      (∀ j ∈ s.queue, j ∈ (nbs.foldl loseNeighbour s).queue) ∧
      ∀ j ∈ nbs, s.alive j = true → j ∈ (nbs.foldl loseNeighbour s).queue := by
  induction nbs generalizing s with
  | nil => exact ⟨rfl, by simp, hqueue, fun _ => id, nofun⟩
  | cons nb nbs ih =>
    obtain ⟨hnb, hnd⟩ := nodup_cons.mp hnd
    rw [foldl_cons]
    by_cases hlive : s.alive nb = true
    · rw [loseNeighbour_of_alive hlive]
      have hqueue' : (if nb ∈ s.queue then s.queue else nb :: s.queue).Nodup := by
        split_ifs with hmem
        · exact hqueue
        · exact nodup_cons.mpr ⟨hmem, hqueue⟩
      have hnbmem : nb ∈ if nb ∈ s.queue then s.queue else nb :: s.queue := by
        split_ifs with hmem
        · exact hmem
        · exact mem_cons_self
      have hsub : ∀ j ∈ s.queue, j ∈ if nb ∈ s.queue then s.queue else nb :: s.queue := by
        intro j hj
        split_ifs
        · exact hj
        · exact mem_cons_of_mem nb hj
      obtain ⟨halive, hdegree, hnd', hkept, hadd⟩ := ih hnd { s with
        degree := Function.update s.degree nb (s.degree nb - 1)
        queue := if nb ∈ s.queue then s.queue else nb :: s.queue } hqueue'
      refine ⟨halive, fun j => ?_, hnd', fun j hj => hkept j (hsub j hj), ?_⟩
      · rw [hdegree]
        dsimp only
        by_cases heq : j = nb
        · subst heq
          rw [update_self, if_neg fun h => hnb h.1, if_pos ⟨mem_cons_self, hlive⟩]
        · rw [update_of_ne heq]
          simp only [mem_cons, heq, false_or]
      · refine forall_mem_cons.mpr ⟨fun _ => hkept nb hnbmem, fun j hj hj' => hadd j hj hj'⟩
    · rw [loseNeighbour_of_not_alive hlive]
      obtain ⟨halive, hdegree, hnd', hkept, hadd⟩ := ih hnd s hqueue
      refine ⟨halive, fun j => ?_, hnd', hkept, ?_⟩
      · rw [hdegree]
        by_cases heq : j = nb
        · subst heq
          rw [if_neg fun h => hnb h.1, if_neg fun h => hlive h.2]
        · simp only [mem_cons, heq, false_or]
      · exact forall_mem_cons.mpr ⟨fun h => absurd h hlive, hadd⟩

/-- A list has one live node less when a node of it goes. -/
theorem length_filter_update {alive : Fin n → Bool} {i : Fin n} (hi : alive i = true)
    {l : List (Fin n)}
    (hl : l.Nodup) : (l.filter fun j => Function.update alive i false j).length =
      if i ∈ l then (l.filter fun j => alive j).length - 1
      else (l.filter fun j => alive j).length := by
  have hfilt : (l.filter fun j => Function.update alive i false j) =
      (l.filter fun j => alive j).erase i := by
    rw [(hl.filter _).erase_eq_filter, filter_filter]
    apply filter_congr
    intro j _
    by_cases heq : j = i
    · subst heq
      simp
    · rw [update_of_ne heq]
      simp [heq]
  rw [hfilt, length_erase]
  by_cases hmem : i ∈ l
  · simp [mem_filter, hmem, hi]
  · simp [mem_filter, hmem]

/-! ## Until no node waits -/

section eliminate

variable {adjacency : Fin n → List (Fin n)} {enough : Fin n → ℕ → Bool} {s : Elimination n}

/-- The neighbours are listed once, both ways and not at themselves. -/
structure Simple (adjacency : Fin n → List (Fin n)) : Prop where
  symm : ∀ i j, j ∈ adjacency i → i ∈ adjacency j
  irrefl : ∀ i, i ∉ adjacency i
  nodup : ∀ i, (adjacency i).Nodup

/-- The neighbours that are left. -/
def liveDegree (adjacency : Fin n → List (Fin n)) (alive : Fin n → Bool) (i : Fin n) : ℕ :=
  ((adjacency i).filter fun j => alive j).length

structure Consistent (adjacency : Fin n → List (Fin n)) (enough : Fin n → ℕ → Bool)
    (s : Elimination n) :
    Prop where
  degree : ∀ j, s.alive j = true → s.degree j = liveDegree adjacency s.alive j
  waiting : ∀ j, s.alive j = true → j ∈ s.queue ∨ enough j (s.degree j) = false
  nodup : s.queue.Nodup

variable {i : Fin n} {queue : List (Fin n)}

theorem Consistent.skip (h : s.Consistent adjacency enough)
    (hqueue : s.queue = i :: queue) (hi : ¬ (s.alive i && enough i (s.degree i)) = true) :
    ({ s with queue } : Elimination n).Consistent adjacency enough where
  degree := h.degree
  waiting := by
    intro j hj
    rcases h.waiting j hj with hmem | hnot
    · rw [hqueue] at hmem
      rcases mem_cons.mp hmem with rfl | hmem
      · rw [hj, Bool.true_and, Bool.not_eq_true] at hi
        exact .inr hi
      · exact .inl hmem
    · exact .inr hnot
  nodup := by
    have hnd := h.nodup
    rw [hqueue] at hnd
    exact (nodup_cons.mp hnd).2

theorem Consistent.remove (hadj : Simple adjacency) (h : s.Consistent adjacency enough)
    (hqueue : s.queue = i :: queue) (hi : s.alive i = true) :
    (remove adjacency i { s with queue }).Consistent adjacency enough ∧
      (remove adjacency i { s with queue }).alive = Function.update s.alive i false := by
  have hnd := h.nodup
  rw [hqueue] at hnd
  obtain ⟨halive, hdegree, hnd', hkept, hadd⟩ := foldl_loseNeighbour (hadj.nodup i)
    { alive := Function.update s.alive i false, degree := s.degree, queue := queue }
      (nodup_cons.mp hnd).2
  have hne : ∀ {j}, Function.update s.alive i false j = true → j ≠ i ∧ s.alive j = true := by
    intro j hj
    by_cases heq : j = i
    · subst heq
      rw [update_self] at hj
      cases hj
    · rw [update_of_ne heq] at hj
      exact ⟨heq, hj⟩
  refine ⟨⟨fun j hj => ?_, fun j hj => ?_, hnd'⟩, halive⟩
  · rw [Elimination.remove, halive] at hj
    rw [Elimination.remove, halive, hdegree, liveDegree, length_filter_update hi (hadj.nodup j)]
    dsimp only at hj ⊢
    rw [h.degree j (hne hj).2, liveDegree]
    by_cases hmem : j ∈ adjacency i
    · rw [if_pos ⟨hmem, hj⟩, if_pos (hadj.symm i j hmem)]
    · rw [if_neg fun h => hmem h.1, if_neg fun h => hmem (hadj.symm j i h)]
  · rw [Elimination.remove, halive] at hj
    dsimp only at hj
    by_cases hmem : j ∈ adjacency i
    · exact .inl (hadd j hmem hj)
    · rcases h.waiting j (hne hj).2 with hwaits | hnot
      · rw [hqueue] at hwaits
        exact .inl (hkept j ((mem_cons.mp hwaits).resolve_left (hne hj).1))
      · right
        rw [Elimination.remove, hdegree, if_neg fun h => hmem h.1]
        exact hnot

/-- When no node waits, none has enough values. -/
theorem Consistent.settled (h : s.Consistent adjacency enough) (hnil : s.queue = []) (i : Fin n)
    (hi : s.alive i = true) : enough i (liveDegree adjacency s.alive i) = false := by
  rw [← h.degree i hi]
  refine (h.waiting i hi).resolve_left ?_
  rw [hnil]
  exact not_mem_nil

/-- What is left to do: nodes that may still go, and nodes to look at. -/
def work (s : Elimination n) : ℕ :=
  (Finset.univ.filter fun i => s.alive i = true).card * (n + 1) + s.queue.length

theorem card_alive_update_lt {alive : Fin n → Bool} (hi : alive i = true) :
    (Finset.univ.filter fun j => Function.update alive i false j = true).card <
      (Finset.univ.filter fun j => alive j = true).card := by
  apply Finset.card_lt_card
  rw [Finset.ssubset_iff_of_subset]
  · exact ⟨i, by simpa using hi, by simp⟩
  · intro j hj
    rw [Finset.mem_filter] at hj ⊢
    refine ⟨hj.1, ?_⟩
    by_cases heq : j = i
    · rwa [heq]
    · rw [update_of_ne heq] at hj
      exact hj.2

/-- The elimination ends, and keeps what every single removal keeps. -/
theorem Consistent.eliminate (hadj : Simple adjacency) {P : (Fin n → Bool) → Prop}
    (hP : ∀ alive i, alive i = true → enough i (liveDegree adjacency alive i) = true → P alive →
      P (Function.update alive i false))
    (h : s.Consistent adjacency enough) (hs : P s.alive) {fuel : ℕ} (hfuel : s.work ≤ fuel) :
    ∃ s', eliminate adjacency enough fuel s = some s' ∧ s'.Consistent adjacency enough ∧
      (∀ i, s'.alive i = true → enough i (liveDegree adjacency s'.alive i) = false) ∧
      P s'.alive := by
  induction fuel generalizing s with
  | zero =>
    have hnil : s.queue = [] := by
      unfold work at hfuel
      exact length_eq_zero_iff.mp (by omega)
    exact ⟨s, by rw [Elimination.eliminate, if_pos hnil], h, h.settled hnil, hs⟩
  | succ fuel ih =>
    rw [Elimination.eliminate]
    cases hqueue : s.queue with
    | nil => exact ⟨s, rfl, h, h.settled hqueue, hs⟩
    | cons i queue =>
      have hlen : s.queue.length = queue.length + 1 := by
        rw [hqueue, length_cons]
      dsimp only
      by_cases hstep : (s.alive i && enough i (s.degree i)) = true
      · rw [if_pos hstep]
        rw [Bool.and_eq_true] at hstep
        obtain ⟨hrem, halive⟩ := h.remove hadj hqueue hstep.1
        refine ih hrem ?_ ?_
        · rw [halive]
          refine hP s.alive i hstep.1 ?_ hs
          rw [← h.degree i hstep.1]
          exact hstep.2
        · have hcard := card_alive_update_lt hstep.1
          have hle := hrem.nodup.length_le_card
          rw [Fintype.card_fin] at hle
          unfold work at hfuel ⊢
          rw [halive]
          have hmul := Nat.mul_le_mul_right (n + 1) (Nat.succ_le_of_lt hcard)
          rw [Nat.succ_mul] at hmul
          omega
      · rw [if_neg hstep]
        have hskip := h.skip hqueue hstep
        refine ih hskip hs ?_
        unfold work at hfuel ⊢
        dsimp only
        omega

theorem work_le_fuel {s : Elimination n} (h : s.queue.Nodup) : s.work ≤ fuel n := by
  have hcard : (Finset.univ.filter fun i => s.alive i = true).card ≤ n :=
    (Finset.card_filter_le _ _).trans (by rw [Finset.card_univ, Fintype.card_fin])
  have hlen := h.length_le_card
  rw [Fintype.card_fin] at hlen
  unfold work fuel
  have hmul := Nat.mul_le_mul_right (n + 1) hcard
  rw [Nat.succ_mul]
  omega

end eliminate

end Elimination

end Hermit.Datatypes
