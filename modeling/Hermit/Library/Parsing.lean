import Mathlib

/-! # Parsing by slices

A parser that takes slices of a text ends with a value, refuses the text, or panics on a slice
outside of it.
-/

namespace Hermit.Parsing

variable {α β : Type}

inductive Failure where
  | malformed
  | panic
deriving DecidableEq

/-- The text from the position `i` to the position `j`. -/
def slice (s : List α) (i j : ℕ) : Except Failure (List α) :=
  if i ≤ j ∧ j ≤ s.length then .ok ((s.take j).drop i) else .error .panic

def sliceFrom (s : List α) (i : ℕ) : Except Failure (List α) := slice s i s.length

def ensure (p : Prop) [Decidable p] : Except Failure Unit := if p then .ok () else .error .malformed

/-- The parser does not panic, and it ends with a value that has the property if there is one. -/
structure Reads (x : Except Failure α) (post : α → Prop) : Prop where
  no_panic : x ≠ .error .panic
  ok_iff : ∀ a, x = .ok a ↔ post a

section rules

variable {x : Except Failure α} {f : α → Except Failure β} {post : α → Prop} {target : β → Prop}
    {p : Prop} [Decidable p]

theorem Reads.congr {post' : α → Prop} (h : Reads x post) (heq : ∀ a, post a ↔ post' a) :
    Reads x post' :=
  ⟨h.no_panic, fun a => (h.ok_iff a).trans (heq a)⟩

theorem reads_pure (a : α) : Reads (pure a : Except Failure α) (· = a) :=
  ⟨nofun, fun _ => ⟨fun h => (Except.ok.inj h).symm, fun h => congrArg Except.ok h.symm⟩⟩

theorem reads_malformed (h : ∀ a, ¬post a) : Reads (.error .malformed : Except Failure α) post :=
  ⟨nofun, fun a => ⟨nofun, fun ha => absurd ha (h a)⟩⟩

theorem Reads.bind {post' : α → β → Prop} (hx : Reads x post)
    (hf : ∀ a, post a → Reads (f a) (post' a)) :
    Reads (x >>= f) fun b => ∃ a, post a ∧ post' a b := by
  cases x with
  | error e =>
    have hno : ∀ a, ¬post a := fun a ha => nomatch (hx.ok_iff a).mpr ha
    refine ⟨hx.no_panic ∘ fun h => ?_, fun b => ⟨nofun, fun ⟨a, ha, _⟩ => absurd ha (hno a)⟩⟩
    cases h
    rfl
  | ok a =>
    have hunique : ∀ a', post a' → a = a' := fun a' ha' => Except.ok.inj ((hx.ok_iff a').mpr ha')
    have ha := (hx.ok_iff a).mp rfl
    refine (hf a ha).congr fun b => ⟨fun hb => ⟨a, ha, hb⟩, ?_⟩
    rintro ⟨a', ha', hb⟩
    rwa [hunique a' ha']

variable {y : Except Failure β}

theorem Reads.ensure (hy : p → Reads y target) (hp : ∀ b, target b → p) :
    Reads (ensure p >>= fun _ => y) target := by
  by_cases h : p
  · rw [Parsing.ensure, if_pos h]
    exact hy h
  · rw [Parsing.ensure, if_neg h]
    exact reads_malformed fun b hb => h (hp b hb)

theorem Reads.guard {post : β → Prop} (hy : p → Reads y post) :
    Reads (Parsing.ensure p >>= fun _ => y) fun b => p ∧ post b := by
  apply Reads.ensure
  · intro hp
    exact (hy hp).congr fun b => ⟨fun hb => ⟨hp, hb⟩, And.right⟩
  · exact fun _ => And.left

variable {i : ℕ} {s : List α}

theorem slice_bind {j : ℕ} (f : List α → Except Failure β) (hij : i ≤ j) (hj : j ≤ s.length) :
    (slice s i j >>= f) = f ((s.take j).drop i) := by
  rw [slice, if_pos ⟨hij, hj⟩]
  rfl

theorem sliceFrom_bind (f : List α → Except Failure β) (hi : i ≤ s.length) :
    (sliceFrom s i >>= f) = f (s.drop i) := by
  rw [sliceFrom, slice_bind f hi (Nat.le_refl _), List.take_length]

theorem Reads.slice {j : ℕ} {f : List α → Except Failure β} {post : β → Prop}
    (hij : i ≤ j) (hj : j ≤ s.length)
    (hf : Reads (f ((s.take j).drop i)) post) : Reads (Parsing.slice s i j >>= f) post := by
  rw [slice_bind f hij hj]
  exact hf

theorem Reads.sliceFrom {f : List α → Except Failure β} {post : β → Prop} (hi : i ≤ s.length)
    (hf : Reads (f (s.drop i)) post) : Reads (Parsing.sliceFrom s i >>= f) post := by
  rw [sliceFrom_bind f hi]
  exact hf

/-- One character is compared with the one that must be there. -/
theorem Reads.separator [DecidableEq α] {c : α}
    {post : β → Prop} (hi : i + 1 ≤ s.length) (hy : s.drop i = c :: s.drop (i + 1) → Reads y post) :
    Reads (Parsing.slice s i (i + 1) >>= fun separator =>
      Parsing.ensure (separator = [c]) >>= fun _ => y)
      fun b => s.drop i = c :: s.drop (i + 1) ∧ post b := by
  have hone : (s.take (i + 1)).drop i = [s[i]] := by
    rw [List.take_succ_eq_append_getElem hi, List.drop_left' (List.length_take_of_le (by omega))]
  have hsgl : (s.take (i + 1)).drop i = [c] ↔ s.drop i = c :: s.drop (i + 1) := by
    rw [hone, List.drop_eq_getElem_cons hi]
    simp only [List.cons.injEq, and_true]
  rw [slice_bind _ (by omega) hi]
  apply (Reads.guard fun h => hy (hsgl.mp h)).congr
  intro b
  rw [hsgl]

end rules

end Hermit.Parsing
