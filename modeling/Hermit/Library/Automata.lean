import Mathlib

/-! # Paths of nondeterministic automata

Rules for the paths of an automaton with ε transitions: how they map and
reverse, and how a language at every state bounds the words that lead to
acceptance.
-/

namespace Hermit.Automata

open List

variable {α β σ τ : Type*} {M : εNFA α σ} {N : εNFA β τ}

theorem reduceOption_reverse (x : List (Option α)) :
    x.reverse.reduceOption = x.reduceOption.reverse := by
  simp [List.reduceOption, filterMap_reverse]

theorem isPath_trans {s t u : σ} {x y : List (Option α)} (hx : M.IsPath s t x)
    (hy : M.IsPath t u y) : M.IsPath s u (x ++ y) :=
  M.isPath_append.mpr ⟨t, hx, hy⟩

variable {s t : σ} {x : List (Option α)}

/-- A map of the states and letters that keeps the steps keeps the paths. -/
theorem isPath_map (f : σ → τ) (g : α → β)
    (hstep : ∀ s l t, t ∈ M.step s l → f t ∈ N.step (f s) (l.map g))
    (h : M.IsPath s t x) : N.IsPath (f s) (f t) (x.map (Option.map g)) := by
  induction h with
  | nil s => exact .nil _
  | cons t s u l x hl _ ih => exact .cons (f t) (f s) (f u) (l.map g) _ (hstep s l t hl) ih

/-- A map of the letters that reverses the steps reverses the paths. -/
theorem isPath_reverse {N : εNFA β σ} (g : α → β)
    (hstep : ∀ s l t, t ∈ M.step s l → s ∈ N.step t (l.map g)) (h : M.IsPath s t x) :
    N.IsPath t s (x.map (Option.map g)).reverse := by
  induction h with
  | nil s => exact .nil _
  | cons t s u l x hl _ ih =>
    rw [map_cons, reverse_cons]
    exact isPath_trans ih (.singleton _ (hstep s l t hl))

theorem isPath_mono {M' : εNFA α σ} (hstep : ∀ s l t, t ∈ M.step s l → t ∈ M'.step s l)
    (h : M.IsPath s t x) : M'.IsPath s t x := by
  induction h with
  | nil s => exact .nil _
  | cons t s u l x hl _ ih => exact .cons t s u l x (hstep s l t hl) ih

/-- A language at every state that each step extends backwards. -/
def Backward (M : εNFA α σ) (rest : σ → Language α) : Prop :=
  ∀ s l t, t ∈ M.step s l → ∀ w ∈ rest t, l.toList ++ w ∈ rest s

variable {w : List α}

theorem Backward.append_mem {rest : σ → Language α} (hrest : Backward M rest)
    (h : M.IsPath s t x) (hw : w ∈ rest t) : x.reduceOption ++ w ∈ rest s := by
  induction h with
  | nil s => exact hw
  | cons t s u l x hl _ ih =>
    have h := hrest s l t hl _ (ih hw)
    cases l with
    | none | some b => simpa using h

/-- The words accepted from each state extend backwards. -/
def wordsTo (M : εNFA α σ) (t s : σ) : Language α :=
  {w | ∃ x, x.reduceOption = w ∧ M.IsPath s t x}

theorem mem_wordsTo {t s : σ} :
    w ∈ wordsTo M t s ↔ ∃ x, x.reduceOption = w ∧ M.IsPath s t x := Iff.rfl

theorem backward_wordsTo (t : σ) : Backward M (wordsTo M t) := by
  rintro s l u hl w ⟨x, rfl, hx⟩
  refine ⟨l :: x, ?_, .cons u s t l x hl hx⟩
  cases l with
  | none => simp
  | some b => simp

/-- A language at every state that each step extends forwards. -/
def Forward (M : εNFA α σ) (before : σ → Language α) : Prop :=
  ∀ s l t, t ∈ M.step s l → ∀ w ∈ before s, w ++ l.toList ∈ before t

variable {before : σ → Language α}

theorem Forward.append_mem (hbef : Forward M before) (h : M.IsPath s t x) (hw : w ∈ before s) :
    w ++ x.reduceOption ∈ before t := by
  induction h generalizing w with
  | nil s => simpa using hw
  | cons t s u l x hl _ ih =>
    have h := ih (hbef s l t hl w hw)
    cases l with
    | none | some b => simpa using h

/-- The words that lead to each state extend forwards. -/
theorem wordsTo_step {s t u : σ} {l : Option α} (hl : u ∈ M.step t l)
    (hw : w ∈ wordsTo M t s) : w ++ l.toList ∈ wordsTo M u s := by
  obtain ⟨x, rfl, hx⟩ := hw
  refine ⟨x ++ [l], ?_, isPath_trans hx (.singleton _ hl)⟩
  cases l with
  | none | some b => simp [reduceOption_append]

theorem nil_mem_wordsTo (s : σ) : [] ∈ wordsTo M s s := ⟨[], rfl, .nil s⟩

theorem append_mem_wordsTo {s t u : σ} {v w : List α} (hv : v ∈ wordsTo M t s)
    (hw : w ∈ wordsTo M u t) : v ++ w ∈ wordsTo M u s := by
  obtain ⟨x, rfl, hx⟩ := hv
  obtain ⟨y, rfl, hy⟩ := hw
  exact ⟨x ++ y, reduceOption_append x y, isPath_trans hx hy⟩

theorem Forward.mem_of_wordsTo (hbef : Forward M before)
    (hs : [] ∈ before s) (hw : w ∈ wordsTo M t s) : w ∈ before t := by
  obtain ⟨x, rfl, hx⟩ := hw
  simpa using hbef.append_mem hx hs

theorem wordsTo_map {N : εNFA α τ} (f : σ → τ)
    (hstep : ∀ s l t, t ∈ M.step s l → f t ∈ N.step (f s) l)
    (hw : w ∈ wordsTo M t s) : w ∈ wordsTo N (f t) (f s) := by
  obtain ⟨x, rfl, hx⟩ := hw
  have hstep' : ∀ s l t, t ∈ M.step s l → f t ∈ N.step (f s) (l.map id) := by
    intro s l t ht
    rw [Option.map_id]
    exact hstep s l t ht
  have hpath := isPath_map f id hstep' hx
  rw [Option.map_id, map_id] at hpath
  exact ⟨x, rfl, hpath⟩

/-! ## Words letter by letter -/

theorem nil_mem_wordsTo_iff :
    [] ∈ wordsTo M t s ↔ Relation.ReflTransGen (fun p q => q ∈ M.step p none) s t := by
  constructor
  · rintro ⟨x, hx, hpath⟩
    induction hpath with
    | nil s => exact .refl
    | cons u s t l x hl _ ih =>
      cases l with
      | none => exact .head hl (ih (by simpa using hx))
      | some b => simp at hx
  · intro h
    induction h with
    | refl => exact nil_mem_wordsTo s
    | tail _ hstep ih => exact wordsTo_step hstep ih

/-- A word that is not empty takes its first letter after some ε steps. -/
theorem cons_mem_wordsTo_iff {b : α} :
    b :: w ∈ wordsTo M t s ↔ ∃ p q, [] ∈ wordsTo M p s ∧ q ∈ M.step p (some b) ∧
    w ∈ wordsTo M t q := by
  constructor
  · rintro ⟨x, hx, hpath⟩
    induction hpath with
    | nil s => simp at hx
    | cons u s t l x hl hrest ih =>
      cases l with
      | none =>
        obtain ⟨p, q, hp, hq, hw⟩ := ih (by simpa using hx)
        exact ⟨p, q, append_mem_wordsTo (wordsTo_step hl (nil_mem_wordsTo s)) hp, hq, hw⟩
      | some c =>
        rw [reduceOption_cons_of_some, List.cons.injEq] at hx
        obtain ⟨rfl, hx⟩ := hx
        exact ⟨s, u, nil_mem_wordsTo s, hl, x, hx, hrest⟩
  · rintro ⟨p, q, hp, hq, hw⟩
    exact append_mem_wordsTo (append_mem_wordsTo hp (wordsTo_step hq (nil_mem_wordsTo p))) hw

/-- Some word leads from one state to another as soon as steps do, whatever their labels. -/
theorem exists_mem_wordsTo_iff :
    (∃ w, w ∈ wordsTo M t s) ↔ Relation.ReflTransGen (fun p q => ∃ l, q ∈ M.step p l) s t := by
  constructor
  · rintro ⟨w, x, -, hpath⟩
    induction hpath with
    | nil s => exact .refl
    | cons u s t l x hl _ ih => exact .head ⟨l, hl⟩ ih
  · intro h
    induction h with
    | refl => exact ⟨[], nil_mem_wordsTo s⟩
    | tail _ hstep ih =>
      obtain ⟨w, hw⟩ := ih
      obtain ⟨l, hl⟩ := hstep
      exact ⟨_, wordsTo_step hl hw⟩

/-- The words accepted from a state. -/
def acceptedFrom (M : εNFA α σ) (s : σ) : Language α := {w | ∃ t ∈ M.accept, w ∈ wordsTo M t s}

theorem mem_accepts_iff : w ∈ M.accepts ↔ ∃ s ∈ M.start, w ∈ acceptedFrom M s := by
  rw [M.mem_accepts_iff_exists_path]
  constructor
  · rintro ⟨s, t, x, hs, ht, hx, hpath⟩
    exact ⟨s, hs, t, ht, x, hx, hpath⟩
  · rintro ⟨s, hs, t, ht, x, hx, hpath⟩
    exact ⟨s, t, x, hs, ht, hx, hpath⟩

section noε

variable (hnone : ∀ s, M.step s none = ∅)

include hnone

theorem nil_mem_acceptedFrom (s : σ) : [] ∈ acceptedFrom M s ↔ s ∈ M.accept := by
  constructor
  · rintro ⟨t, ht, x, hx, hpath⟩
    cases hpath with
    | nil => exact ht
    | cons u _ _ l x hl _ =>
      cases l with
      | none =>
        rw [hnone s] at hl
        cases hl
      | some b => simp at hx
  · intro hs
    exact ⟨s, hs, nil_mem_wordsTo s⟩

theorem cons_mem_acceptedFrom (s : σ) (b : α) (w : List α) :
    b :: w ∈ acceptedFrom M s ↔ ∃ t ∈ M.step s (some b), w ∈ acceptedFrom M t := by
  constructor
  · rintro ⟨t, ht, x, hx, hpath⟩
    cases hpath with
    | nil => simp at hx
    | cons u _ _ l x hl hpath =>
      cases l with
      | none =>
        rw [hnone s] at hl
        cases hl
      | some c =>
        rw [reduceOption_cons_of_some, List.cons.injEq] at hx
        obtain ⟨rfl, hx⟩ := hx
        exact ⟨u, hl, t, ht, x, hx, hpath⟩
  · rintro ⟨t, ht, u, hu, hw⟩
    exact ⟨u, hu, append_mem_wordsTo (wordsTo_step ht (nil_mem_wordsTo s)) hw⟩

/-- Where every letter leads to one state at most, so does every word. -/
theorem wordsTo_unique (hfunctional : ∀ s b, ∀ t ∈ M.step s (some b),
      ∀ t' ∈ M.step s (some b), t = t')
    {s t t' : σ} {w : List α} (h : w ∈ wordsTo M t s) (h' : w ∈ wordsTo M t' s) : t = t' := by
  have hε {s t : σ} (h : [] ∈ wordsTo M t s) : s = t := by
    rw [nil_mem_wordsTo_iff] at h
    induction h with
    | refl => rfl
    | tail _ hstep _ =>
      rw [hnone] at hstep
      cases hstep
  induction w generalizing s with
  | nil => exact (hε h).symm.trans (hε h')
  | cons b w ih =>
    obtain ⟨p, q, hp, hq, hw⟩ := cons_mem_wordsTo_iff.mp h
    obtain ⟨p', q', hp', hq', hw'⟩ := cons_mem_wordsTo_iff.mp h'
    obtain rfl := hε hp
    obtain rfl := hε hp'
    obtain rfl := hfunctional _ b q hq q' hq'
    exact ih hw hw'

end noε

end Hermit.Automata
