import Mathlib

/-! # Depth-first search for a cycle

The three-colour search over a successor function, with the colours threaded
through the calls.  Enough fuel for one nested call per vertex always gives an
answer, and the answer `true` yields a rank that strictly decreases along every
edge out of a finished vertex.
-/

namespace Hermit.DepthFirst

open Function

variable {α : Type*} [DecidableEq α]

inductive Mark where
  | unvisited | onPath | done
deriving DecidableEq, Repr

/-- Run `step` on the vertices from left to right until one of them fails. -/
def visitAll (step : α → (α → Mark) → Option (Bool × (α → Mark))) :
    List α → (α → Mark) → Option (Bool × (α → Mark))
  | [], state => some (true, state)
  | a :: as, state =>
    match step a state with
    | none => none
    | some (false, state') => some (false, state')
    | some (true, state') => visitAll step as state'

/-- Visit one vertex; `none` means that the fuel ran out. -/
def visit (succ : α → List α) : ℕ → α → (α → Mark) → Option (Bool × (α → Mark))
  | 0, _, _ => none
  | fuel + 1, a, state =>
    match state a with
    | .onPath => some (false, state)
    | .done => some (true, state)
    | .unvisited =>
      match visitAll (visit succ fuel) (succ a) (Function.update state a .onPath) with
      | none => none
      | some (false, state') => some (false, state')
      | some (true, state') => some (true, Function.update state' a .done)

variable {succ : α → List α}

/-! ## Finished vertices are ranked -/

/-- The successors of a finished vertex are finished and have a smaller rank. -/
def Ranked (succ : α → List α) (state : α → Mark) (rank : α → ℕ) : Prop :=
  ∀ a, state a = .done → ∀ b ∈ succ a, state b = .done ∧ rank b < rank a

/-- What a successful visit may change: a finished vertex stays finished, and a
vertex on the path stays on the path. -/
structure Extends (state state' : α → Mark) : Prop where
  done : ∀ a, state a = .done → state' a = .done
  onPath : ∀ a, state a = .onPath → state' a = .onPath

omit [DecidableEq α] in
theorem Extends.refl (state : α → Mark) : Extends state state :=
  ⟨fun _ h => h, fun _ h => h⟩

omit [DecidableEq α] in
theorem Extends.trans {s t u : α → Mark} (hst : Extends s t) (htu : Extends t u) : Extends s u :=
  ⟨fun a h => htu.done a (hst.done a h), fun a h => htu.onPath a (hst.onPath a h)⟩

/-- The contract of one step: it extends the state, finishes its vertex and keeps a ranking. -/
def Finishes (succ : α → List α) (step : α → (α → Mark) → Option (Bool × (α → Mark))) : Prop :=
  ∀ a state state', step a state = some (true, state') → (∃ rank, Ranked succ state rank) →
    Extends state state' ∧ state' a = .done ∧ ∃ rank, Ranked succ state' rank

variable {step : α → (α → Mark) → Option (Bool × (α → Mark))}

omit [DecidableEq α] in
theorem visitAll_finishes (hstep : Finishes succ step) (as : List α) (state state' : α → Mark)
    (h : visitAll step as state = some (true, state')) (hr : ∃ rank, Ranked succ state rank) :
    Extends state state' ∧ (∀ a ∈ as, state' a = .done) ∧ ∃ rank, Ranked succ state' rank := by
  induction as generalizing state with
  | nil =>
    simp only [visitAll, Option.some.injEq, Prod.mk.injEq, true_and] at h
    subst h
    exact ⟨Extends.refl _, by simp, hr⟩
  | cons a as ih =>
    rw [visitAll] at h
    split at h
    · cases h
    · cases h
    · rename_i mid hmid
      obtain ⟨hext, hdone, hmidr⟩ := hstep a state mid hmid hr
      obtain ⟨hext', hall, hr'⟩ := ih mid h hmidr
      refine ⟨hext.trans hext', ?_, hr'⟩
      intro b hb
      rcases List.mem_cons.mp hb with rfl | hb
      · exact hext'.done b hdone
      · exact hall b hb

/-- Finishing a vertex whose successors are all finished keeps the states ranked. -/
theorem Ranked.finish {state : α → Mark} {rank : α → ℕ} (hr : Ranked succ state rank) {a : α}
    (ha : state a ≠ .done) (hsucc : ∀ b ∈ succ a, state b = .done) :
    ∃ rank', Ranked succ (Function.update state a .done) rank' := by
  refine ⟨Function.update rank a ((succ a).toFinset.sup rank + 1), ?_⟩
  intro c hc b hb
  by_cases hca : c = a
  · subst hca
    have hbd := hsucc b hb
    have hbc : b ≠ c := fun h => ha (h ▸ hbd)
    refine ⟨by simp [update_of_ne hbc, hbd], ?_⟩
    rw [update_of_ne hbc, update_self]
    exact Nat.lt_succ_of_le (Finset.le_sup (List.mem_toFinset.mpr hb))
  · rw [update_of_ne hca] at hc
    obtain ⟨hbd, hlt⟩ := hr c hc b hb
    have hba : b ≠ a := fun h => ha (h ▸ hbd)
    exact ⟨by simp [update_of_ne hba, hbd],
      by rwa [update_of_ne hca, update_of_ne hba]⟩

theorem visit_finishes (fuel : ℕ) : Finishes succ (visit succ fuel) := by
  induction fuel with
  | zero => intro a state state' h; simp [visit] at h
  | succ fuel ih =>
    intro a state state' h hr
    rw [visit] at h
    split at h
    · cases h
    · rename_i hdone
      simp only [Option.some.injEq, Prod.mk.injEq, true_and] at h
      subst h
      exact ⟨Extends.refl _, hdone, hr⟩
    · rename_i hun
      split at h
      · cases h
      · cases h
      · rename_i mid hmid
        simp only [Option.some.injEq, Prod.mk.injEq, true_and] at h
        subst h
        -- marking `a` as on the path finishes nothing, so the ranking still stands
        have hpath : ∃ rank, Ranked succ (Function.update state a .onPath) rank := by
          obtain ⟨rank, hrank⟩ := hr
          refine ⟨rank, fun c hc b hb => ?_⟩
          have hca : c ≠ a := by
            rintro rfl
            simp at hc
          rw [update_of_ne hca] at hc
          obtain ⟨hbd, hlt⟩ := hrank c hc b hb
          have hba : b ≠ a := by
            rintro rfl
            rw [hun] at hbd
            cases hbd
          exact ⟨by rwa [update_of_ne hba], hlt⟩
        obtain ⟨hext, hall, rank, hrank⟩ := visitAll_finishes ih (succ a) _ mid hmid hpath
        have hmida : mid a = .onPath := hext.onPath a (by simp)
        refine ⟨⟨?_, ?_⟩, by simp, hrank.finish (by simp [hmida]) hall⟩
        · intro c hc
          have hca : c ≠ a := by
            rintro rfl
            rw [hun] at hc
            cases hc
          rw [update_of_ne hca]
          exact hext.done c (by rwa [update_of_ne hca])
        · intro c hc
          have hca : c ≠ a := by
            rintro rfl
            rw [hun] at hc
            cases hc
          rw [update_of_ne hca]
          exact hext.onPath c (by rwa [update_of_ne hca])

/-- A search over `roots` that answers `true` from the blank state ranks every root
above its successors, and those above theirs. -/
theorem exists_rank_of_visitAll (fuel : ℕ) (roots : List α) {state' : α → Mark}
    (h : visitAll (visit succ fuel) roots (fun _ => .unvisited) = some (true, state')) :
    ∃ rank : α → ℕ, ∀ a ∈ roots, ∀ b ∈ succ a, rank b < rank a := by
  have hblank : ∃ rank, Ranked succ (fun _ : α => Mark.unvisited) rank :=
    ⟨fun _ => 0, fun a ha => by simp at ha⟩
  obtain ⟨_, hall, rank, hrank⟩ := visitAll_finishes (visit_finishes fuel) roots _ _ h hblank
  exact ⟨rank, fun a ha b hb => (hrank a (hall a ha) b hb).2⟩

/-- The vertices of `univ` that are not yet visited. -/
def unvisitedIn (univ : Finset α) (state : α → Mark) : Finset α :=
  univ.filter fun a => state a = .unvisited

/-- A step answers on every vertex of `univ`, and visits no vertex a second time. -/
def Answers (univ : Finset α) (bound : ℕ)
    (step : α → (α → Mark) → Option (Bool × (α → Mark))) : Prop :=
  ∀ a ∈ univ, ∀ state, (unvisitedIn univ state).card < bound →
    ∃ r, step a state = some r ∧ unvisitedIn univ r.2 ⊆ unvisitedIn univ state

omit [DecidableEq α] in
theorem visitAll_answers {univ : Finset α} {bound : ℕ} (hstep : Answers univ bound step)
    (as : List α) (has : ∀ a ∈ as, a ∈ univ) (state : α → Mark)
    (hlt : (unvisitedIn univ state).card < bound) :
    ∃ r, visitAll step as state = some r ∧ unvisitedIn univ r.2 ⊆ unvisitedIn univ state := by
  induction as generalizing state with
  | nil => exact ⟨_, rfl, subset_rfl⟩
  | cons a as ih =>
    obtain ⟨⟨b, mid⟩, hmid, hsub⟩ := hstep a (has a (by simp)) state hlt
    cases b with
    | false => exact ⟨(false, mid), by simp [visitAll, hmid], hsub⟩
    | true =>
      have hcard : (unvisitedIn univ mid).card ≤ (unvisitedIn univ state).card :=
        Finset.card_le_card hsub
      obtain ⟨r, hr, hsub'⟩ := ih (fun x hx => has x (by simp [hx])) mid (by omega)
      exact ⟨r, by simp [visitAll, hmid, hr], hsub'.trans hsub⟩

theorem visit_answers {univ : Finset α} (hcl : ∀ a ∈ univ, ∀ b ∈ succ a, b ∈ univ) (fuel : ℕ) :
    Answers univ fuel (visit succ fuel) := by
  induction fuel with
  | zero => intro a _ state h; omega
  | succ fuel ih =>
    intro a ha state hlt
    rw [visit]
    cases hs : state a with
    | onPath | done => exact ⟨_, rfl, subset_rfl⟩
    | unvisited =>
      -- the vertex leaves the unvisited ones, which pays for the nested calls
      have hss : unvisitedIn univ (Function.update state a .onPath) ⊂ unvisitedIn univ state := by
        refine Finset.ssubset_iff_subset_ne.mpr ⟨?_, ?_⟩
        · intro b hb
          by_cases hba : b = a
          · subst hba
            simp [unvisitedIn] at hb
          · simpa [unvisitedIn, update_of_ne hba] using hb
        · intro heq
          have hmem : a ∈ unvisitedIn univ state := by simp [unvisitedIn, ha, hs]
          rw [← heq] at hmem
          simp [unvisitedIn] at hmem
      have hcard := Finset.card_lt_card hss
      obtain ⟨⟨b, mid⟩, hmid, hsub⟩ := visitAll_answers ih (succ a) (hcl a ha)
        (Function.update state a .onPath) (by omega)
      cases b with
      | false => exact ⟨(false, mid), by simp [hmid], hsub.trans hss.subset⟩
      | true =>
        refine ⟨(true, Function.update mid a .done), by simp [hmid], ?_⟩
        intro c hc
        refine hss.subset (hsub ?_)
        by_cases hca : c = a
        · subst hca
          simp [unvisitedIn] at hc
        · simpa [unvisitedIn, update_of_ne hca] using hc

/-- One more unit of fuel than there are roots answers, when the roots are closed under successors.
-/
theorem exists_visitAll_eq_some (roots : List α) (hcl : ∀ a ∈ roots, ∀ b ∈ succ a, b ∈ roots)
    (state : α → Mark) : ∃ r, visitAll (visit succ (roots.length + 1)) roots state = some r := by
  have hcl' : ∀ a ∈ roots.toFinset, ∀ b ∈ succ a, b ∈ roots.toFinset := by
    intro a ha b hb
    exact List.mem_toFinset.mpr (hcl a (List.mem_toFinset.mp ha) b hb)
  have hcard : (unvisitedIn roots.toFinset state).card < roots.length + 1 :=
    Nat.lt_succ_of_le ((Finset.card_filter_le _ _).trans roots.toFinset_card_le)
  obtain ⟨r, hr, -⟩ := visitAll_answers (visit_answers hcl' (roots.length + 1)) roots
    (fun a ha => List.mem_toFinset.mpr ha) state hcard
  exact ⟨r, hr⟩

end Hermit.DepthFirst
