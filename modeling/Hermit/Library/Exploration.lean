import Hermit.Library.Pointwise

/-! # Numbering what can be reached

Keys are numbered in the order in which they are found.  Each key in turn has its edges
followed, and their targets are found then.  Within a finite closed set of keys the
exploration ends, with a row of numbered edges for every key.
-/

namespace Hermit.Exploration

open List

variable {κ ℓ : Type*}

/-- The keys found, and the rows of the first of them; the others wait in the order of their
numbers. -/
structure Numbering (κ ℓ : Type*) where
  keys : List κ
  rows : List (List (ℓ × ℕ))

variable [DecidableEq κ]

def number (keys : List κ) (k : κ) : List κ := if k ∈ keys then keys else keys ++ [k]

def numberAll (keys : List κ) (edges : List (ℓ × κ)) : List κ :=
  edges.foldl (fun keys e => number keys e.2) keys

def row (keys : List κ) (edges : List (ℓ × κ)) : List (ℓ × ℕ) :=
  edges.map fun e => (e.1, keys.idxOf e.2)

def explore (expand : κ → List (ℓ × κ)) : ℕ → Numbering κ ℓ → Numbering κ ℓ
  | 0, n => n
  | fuel + 1, n =>
    match n.keys[n.rows.length]? with
    | none => n
    | some k =>
      let keys := numberAll n.keys (expand k)
      explore expand fuel ⟨keys, n.rows ++ [row keys (expand k)]⟩

/-! ## Numbering -/

theorem prefix_number (keys : List κ) (k : κ) : keys <+: number keys k := by
  unfold number
  split_ifs
  · exact prefix_refl keys
  · exact prefix_append keys [k]

theorem mem_number (keys : List κ) (k x : κ) : x ∈ number keys k ↔ x ∈ keys ∨ x = k := by
  unfold number
  split_ifs with hmem
  · constructor
    · exact .inl
    · rintro (hx | rfl)
      · exact hx
      · exact hmem
  · simp

theorem nodup_number {keys : List κ} (h : keys.Nodup) (k : κ) : (number keys k).Nodup := by
  unfold number
  split_ifs with hmem
  · exact h
  · exact nodup_append.mpr ⟨h, nodup_singleton k, by
      intro x hx y hy heq
      rw [mem_singleton.mp hy] at heq
      exact hmem (heq ▸ hx)⟩

theorem prefix_numberAll (keys : List κ) (edges : List (ℓ × κ)) :
    keys <+: numberAll keys edges := by
  induction edges generalizing keys with
  | nil => exact prefix_refl keys
  | cons e edges ih => exact (prefix_number keys e.2).trans (ih _)

theorem mem_numberAll (keys : List κ) (edges : List (ℓ × κ)) (x : κ) :
    x ∈ numberAll keys edges ↔ x ∈ keys ∨ ∃ e ∈ edges, x = e.2 := by
  induction edges generalizing keys with
  | nil => simp [numberAll]
  | cons e edges ih =>
    have hstep : numberAll keys (e :: edges) = numberAll (number keys e.2) edges := rfl
    rw [hstep, ih, mem_number]
    simp [or_assoc]

theorem nodup_numberAll {keys : List κ} (h : keys.Nodup) (edges : List (ℓ × κ)) :
    (numberAll keys edges).Nodup := by
  induction edges generalizing keys with
  | nil => exact h
  | cons e edges ih => exact ih (nodup_number h e.2)

variable {keys keys' : List κ}

/-- Keys keep their numbers. -/
theorem idxOf_of_initial (h : keys <+: keys') {k : κ} (hk : k ∈ keys) :
    keys'.idxOf k = keys.idxOf k := by
  obtain ⟨rest, rfl⟩ := h
  exact idxOf_append_of_mem hk

theorem row_of_prefix (h : keys <+: keys') {edges : List (ℓ × κ)}
    (hedges : ∀ e ∈ edges, e.2 ∈ keys) : row keys' edges = row keys edges := by
  apply map_congr_left
  intro e he
  rw [idxOf_of_initial h (hedges e he)]

/-- The rows found so far are those of the first keys. -/
structure Numbering.Valid (expand : κ → List (ℓ × κ)) (n : Numbering κ ℓ) : Prop where
  nodup : n.keys.Nodup
  length_le : n.rows.length ≤ n.keys.length
  row : ∀ (i : ℕ) k, i < n.rows.length → n.keys[i]? = some k →
    n.rows[i]? = some (row n.keys (expand k)) ∧ ∀ e ∈ expand k, e.2 ∈ n.keys

theorem Numbering.Valid.step {expand : κ → List (ℓ × κ)} {n : Numbering κ ℓ} (h : n.Valid expand)
    {k : κ} (hk : n.keys[n.rows.length]? = some k) :
    Numbering.Valid expand ⟨numberAll n.keys (expand k),
      n.rows ++ [Exploration.row (numberAll n.keys (expand k)) (expand k)]⟩ := by
  have hpre := prefix_numberAll n.keys (expand k)
  obtain ⟨hlt, -⟩ := List.getElem?_eq_some_iff.mp hk
  refine ⟨nodup_numberAll h.nodup _, ?_, fun i k' hi hk' => ?_⟩
  · have hle := hpre.length_le
    simp only [length_append, length_singleton]
    omega
  · simp only [length_append, length_singleton] at hi
    have hold : n.keys[i]? = some k' := by
      have hlt' : i < n.keys.length := by omega
      have hkey := Library.getElem?_isPrefixOf hpre (getElem?_eq_getElem hlt')
      rw [getElem?_eq_getElem hlt', ← hk', ← hkey]
    rcases Nat.lt_or_ge i n.rows.length with hi' | hi'
    · obtain ⟨hrow, hmem⟩ := h.row i k' hi' hold
      have hmem' : ∀ e ∈ expand k', e.2 ∈ numberAll n.keys (expand k) :=
        fun e he => hpre.subset (hmem e he)
      refine ⟨?_, hmem'⟩
      rw [getElem?_append_left hi', hrow, row_of_prefix hpre hmem]
    · obtain rfl : i = n.rows.length := by omega
      obtain rfl := Option.some.inj (hk.symm.trans hold)
      exact ⟨getElem?_concat_length, fun e he => (mem_numberAll _ _ _).mpr (.inr ⟨e, he, rfl⟩)⟩

/-- Every key has its row, and every target its number. -/
structure Numbering.Explored (expand : κ → List (ℓ × κ)) (start : κ)
    (n : Numbering κ ℓ) : Prop where
  nodup : n.keys.Nodup
  start : n.keys[0]? = some start
  length : n.rows.length = n.keys.length
  row : ∀ (i : ℕ) k, n.keys[i]? = some k → n.rows[i]? = some (row n.keys (expand k))
  closed : ∀ k ∈ n.keys, ∀ e ∈ expand k, e.2 ∈ n.keys

variable {expand : κ → List (ℓ × κ)}

theorem explored_explore {start : κ} {univ : Finset κ}
    (huniv : ∀ k ∈ univ, ∀ e ∈ expand k, e.2 ∈ univ) (fuel : ℕ) {n : Numbering κ ℓ}
    (h : n.Valid expand) (hst : n.keys[0]? = some start) (hkeys : ∀ k ∈ n.keys, k ∈ univ)
    (hfuel : univ.card ≤ fuel + n.rows.length) : (explore expand fuel n).Explored expand start := by
  have hcard : ∀ keys : List κ, keys.Nodup → (∀ k ∈ keys, k ∈ univ) → keys.length ≤ univ.card := by
    intro keys hnd hmem
    rw [← toFinset_card_of_nodup hnd]
    exact Finset.card_le_card fun k hk => hmem k (mem_toFinset.mp hk)
  have hdone : ∀ n : Numbering κ ℓ, n.Valid expand → n.keys[0]? = some start →
      n.rows.length = n.keys.length → n.Explored expand start := by
    intro n h hst hlen
    refine ⟨h.nodup, hst, hlen, fun i k hk => ?_, fun k hk => ?_⟩
    · obtain ⟨hlt, -⟩ := List.getElem?_eq_some_iff.mp hk
      exact (h.row i k (by omega) hk).1
    · obtain ⟨i, hi, rfl⟩ := getElem_of_mem hk
      exact (h.row i _ (by omega) (getElem?_eq_getElem hi)).2
  induction fuel generalizing n with
  | zero =>
    have hle := hcard n.keys h.nodup hkeys
    have hle' := h.length_le
    exact hdone n h hst (by omega)
  | succ fuel ih =>
    rw [explore]
    split
    · next hnone =>
      rw [List.getElem?_eq_none_iff] at hnone
      exact hdone n h hst (le_antisymm h.length_le hnone)
    · next k hk =>
      have hmem : k ∈ univ := hkeys k (mem_of_getElem? hk)
      apply ih (h.step hk)
      · exact Library.getElem?_isPrefixOf (prefix_numberAll n.keys (expand k)) hst
      · intro k' hk'
        rcases (mem_numberAll _ _ _).mp hk' with hk' | ⟨e, he, rfl⟩
        · exact hkeys k' hk'
        · exact huniv k hmem e he
      · simp only [length_append, length_singleton]
        omega

/-- The exploration from a start key. -/
theorem explored_explore_start {start : κ} (univ : Finset κ)
    (huniv : ∀ k ∈ univ, ∀ e ∈ expand k, e.2 ∈ univ) (hst : start ∈ univ) {fuel : ℕ}
    (hfuel : univ.card ≤ fuel) : (explore expand fuel ⟨[start], []⟩).Explored expand start := by
  apply explored_explore huniv fuel
  · exact ⟨nodup_singleton start, Nat.zero_le _, fun i k hi => absurd hi (Nat.not_lt_zero i)⟩
  · rfl
  · intro k hk
    rwa [mem_singleton.mp hk]
  · exact hfuel

end Hermit.Exploration
