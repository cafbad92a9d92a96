import Mathlib

/-! # Fallible runs and work lists that drain

A fallible computation ends with a value that meets a postcondition or with a failure
of a permitted kind.  A run with fuel settles when all large amounts of fuel give one
result, and a work list drains when each entry taken from it is replaced by lighter
ones.
-/

namespace Hermit.Library

universe u v

variable {ε : Type u} {α β σ : Type v} {stop : ε → Prop}

/-- The computation ends with a value of `post` or a failure of `stop`. -/
def Ends (stop : ε → Prop) (post : α → Prop) : Except ε α → Prop
  | .ok a => post a
  | .error e => stop e

variable {x : Except ε α}

theorem Ends.imp {post post' : α → Prop} (h : Ends stop post x)
    (himp : ∀ a, post a → post' a) : Ends stop post' x := by
  cases x with
  | ok a => exact himp a h
  | error e => exact h

variable {post : α → Prop} {stop' : ε → Prop}

theorem Ends.weaken (h : Ends stop post x) (himp : ∀ e, stop e → stop' e) : Ends stop' post x := by
  cases x with
  | ok a => exact h
  | error e => exact himp e h

variable {f : α → Except ε β} {post' : β → Prop}

theorem Ends.bind (hx : Ends stop post x) (hf : ∀ a, post a → Ends stop post' (f a)) :
    Ends stop post' (x >>= f) := by
  cases x with
  | ok a => exact hf a hx
  | error e => exact hx

theorem ok_of_bind {b : β} (h : (x >>= f) = .ok b) : ∃ a, x = .ok a ∧ f a = .ok b := by
  cases x with
  | ok a => exact ⟨a, rfl, h⟩
  | error e => cases h

/-- What every step keeps, a whole run keeps. -/
theorem inv_of_foldlM {f : σ → α → Except ε σ} {inv : σ → Prop}
    (hf : ∀ s a s', inv s → f s a = .ok s' → inv s') {as : List α} {s s' : σ} (hs : inv s)
    (h : as.foldlM f s = .ok s') : inv s' := by
  induction as generalizing s with
  | nil =>
    cases h
    exact hs
  | cons a as ih =>
    rw [List.foldlM_cons] at h
    obtain ⟨t, ht, h⟩ := ok_of_bind h
    exact ih (hf s a t hs ht) h

/-- All large amounts of fuel give one result, and it ends well. -/
def Settles (stop : ε → Prop) (post : α → Prop) (run : ℕ → Except ε α) : Prop :=
  ∃ n r, (∀ fuel, n ≤ fuel → run fuel = r) ∧ Ends stop post r

theorem Ends.settles (h : Ends stop post x) : Settles stop post fun _ => x :=
  ⟨0, x, fun _ _ => rfl, h⟩

theorem Settles.imp {post post' : α → Prop} {run : ℕ → Except ε α} (h : Settles stop post run)
    (himp : ∀ a, post a → post' a) : Settles stop post' run := by
  obtain ⟨n, r, hrun, hr⟩ := h
  exact ⟨n, r, hrun, hr.imp himp⟩

theorem Settles.weaken {run : ℕ → Except ε α}
    (h : Settles stop post run) (himp : ∀ e, stop e → stop' e) : Settles stop' post run := by
  obtain ⟨n, r, hrun, hr⟩ := h
  exact ⟨n, r, hrun, hr.weaken himp⟩

theorem Settles.bind {run : ℕ → Except ε α} {f : ℕ → α → Except ε β} (hrun : Settles stop post run)
    (hf : ∀ a, post a → Settles stop post' fun fuel => f fuel a) :
    Settles stop post' fun fuel => run fuel >>= f fuel := by
  obtain ⟨n, r, hn, hr⟩ := hrun
  cases r with
  | error e =>
    refine ⟨n, .error e, fun fuel hfuel => ?_, hr⟩
    simp only [hn fuel hfuel]
    rfl
  | ok a =>
    obtain ⟨m, r', hm, hr'⟩ := hf a hr
    refine ⟨max n m, r', fun fuel hfuel => ?_, hr'⟩
    simp only [hn fuel (by omega)]
    exact hm fuel (by omega)

/-! ## Draining a work list -/

section drain

variable (run : ℕ → σ → Except ε σ) (step : σ → Except ε σ) (work : σ → List β)

/-- A loop settles when each step replaces the first entry of its work list by lighter ones. -/
theorem settles_of_drains (weight : β → ℕ) (inv : σ → Prop)
    (hnil : ∀ fuel s, work s = [] → run (fuel + 1) s = .ok s)
    (hcons : ∀ fuel s a rest, work s = a :: rest → run (fuel + 1) s = step s >>= run fuel)
    (hstep : ∀ s a rest, inv s → work s = a :: rest → Ends stop
      (fun s' => inv s' ∧ ∃ pushed, (work s').Perm (pushed ++ rest) ∧
        ∀ b ∈ pushed, weight b < weight a) (step s)) {s : σ} (hs : inv s) :
    Settles stop (fun s' => inv s' ∧ work s' = []) fun fuel => run fuel s := by
  have hwf : WellFounded (Relation.CutExpand (α := ℕ) (· < ·)) := wellFounded_lt.cutExpand
  generalize hm : (Multiset.ofList (work s)).map weight = m
  -- the weights of the waiting entries decrease in the multiset order
  induction m using hwf.induction generalizing s with
  | _ m ih =>
    cases hwork : work s with
    | nil =>
      refine ⟨1, .ok s, fun fuel hfuel => ?_, hs, hwork⟩
      obtain ⟨k, rfl⟩ := Nat.exists_eq_add_of_le' hfuel
      exact hnil k s hwork
    | cons a rest =>
      have hends := hstep s a rest hs hwork
      cases hs' : step s with
      | error e =>
        rw [hs'] at hends
        refine ⟨1, .error e, fun fuel hfuel => ?_, hends⟩
        obtain ⟨k, rfl⟩ := Nat.exists_eq_add_of_le' hfuel
        change run (k + 1) s = .error e
        rw [hcons k s a rest hwork, hs']
        rfl
      | ok s' =>
        rw [hs'] at hends
        obtain ⟨hinv, pushed, hperm, hlt⟩ := hends
        have hcut : Relation.CutExpand (· < ·) ((Multiset.ofList (work s')).map weight) m := by
          refine ⟨(Multiset.ofList pushed).map weight, weight a, ?_, ?_⟩
          · intro w hw
            obtain ⟨b, hb, rfl⟩ := Multiset.mem_map.mp hw
            exact hlt b hb
          · rw [← hm, hwork, Multiset.coe_eq_coe.mpr hperm, ← Multiset.coe_add, ← Multiset.cons_coe,
              Multiset.map_add, Multiset.map_cons, ← Multiset.singleton_add]
            ac_rfl
        obtain ⟨n, r, hn, hr⟩ := ih _ hcut hinv rfl
        refine ⟨n + 1, r, fun fuel hfuel => ?_, hr⟩
        obtain ⟨k, rfl⟩ := Nat.exists_eq_add_of_le' (show 1 ≤ fuel by omega)
        change run (k + 1) s = r
        rw [hcons k s a rest hwork, hs']
        exact hn k (by omega)

/-- A loop that cannot get past some of its entries has no result while one is waiting. -/
theorem run_ne_ok_of_mem (bad : β → Prop) (hzero : ∀ s s', run 0 s ≠ .ok s')
    (hcons : ∀ fuel s a rest, work s = a :: rest → run (fuel + 1) s = step s >>= run fuel)
    (hstep : ∀ s a rest s', work s = a :: rest → step s = .ok s' →
      ¬ bad a ∧ ∃ pushed, work s' = pushed ++ rest)
    (fuel : ℕ) {s s' : σ} {b : β} (hb : bad b) (hmem : b ∈ work s) : run fuel s ≠ .ok s' := by
  induction fuel generalizing s with
  | zero => exact hzero s s'
  | succ fuel ih =>
    cases hwork : work s with
    | nil => simp [hwork] at hmem
    | cons a rest =>
      rw [hcons fuel s a rest hwork]
      cases hs : step s with
      | error e =>
        intro h
        cases h
      | ok t =>
        obtain ⟨ha, pushed, hpush⟩ := hstep s a rest t hwork hs
        rw [hwork] at hmem
        rcases List.mem_cons.mp hmem with rfl | hrest
        · exact absurd hb ha
        · exact ih (by simp [hpush, hrest])

end drain

end Hermit.Library
