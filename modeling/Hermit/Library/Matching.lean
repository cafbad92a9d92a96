import Mathlib

/-! # Partial matchings

Every vertex has at most one value and every value at most one owner.  A vertex that takes a
value nobody has gives up its own, which the next vertex may then take; so a path that
alternates between values and their owners moves the one missing value to its end.  Where a set
of vertices has only values owned within the set, and one of them has none, no choice of
distinct values exists.
-/

namespace Hermit.Library

open Option

variable {α β : Type*}

/-- The value of each vertex and the owner of each value. -/
structure Matching (α β : Type*) where
  value : α → Option β
  owner : β → Option α

namespace Matching

variable {allowed : α → β → Prop} {m : Matching α β}

/-- Values and owners agree. -/
structure Valid (allowed : α → β → Prop) (m : Matching α β) : Prop where
  allowed_value : ∀ {i v}, m.value i = some v → allowed i v
  owner_value : ∀ {i v}, m.value i = some v → m.owner v = some i
  value_owner : ∀ {i v}, m.owner v = some i → m.value i = some v

/-- Values and owners agree, but one value is not taken whatever its owner is said to be. -/
structure ValidBut (allowed : α → β → Prop) (v : β) (m : Matching α β) : Prop where
  allowed_value : ∀ {i w}, m.value i = some w → allowed i w
  owner_value : ∀ {i w}, m.value i = some w → m.owner w = some i
  value_owner : ∀ {i w}, w ≠ v → m.owner w = some i → m.value i = some w
  not_taken : ∀ i, m.value i ≠ some v

theorem Valid.validBut (h : m.Valid allowed) {v : β} (hv : m.owner v = none) :
    m.ValidBut allowed v where
  allowed_value := h.allowed_value
  owner_value := h.owner_value
  value_owner := fun _ => h.value_owner
  not_taken := by
    intro i hi
    rw [h.owner_value hi] at hv
    cases hv

/-- The empty matching. -/
def empty : Matching α β := ⟨fun _ => none, fun _ => none⟩

theorem valid_empty : (empty : Matching α β).Valid allowed := ⟨nofun, nofun, nofun⟩

section take

variable [DecidableEq α] [DecidableEq β]

def take (m : Matching α β) (i : α) (v : β) : Matching α β :=
  ⟨Function.update m.value i (some v), Function.update m.owner v (some i)⟩

@[simp] theorem value_take_self (i : α) (v : β) : (m.take i v).value i = some v :=
  Function.update_self ..

@[simp] theorem value_take_of_ne {i j : α} (v : β) (h : j ≠ i) : (m.take i v).value j = m.value j :=
  Function.update_of_ne h ..

@[simp] theorem owner_take_self (i : α) (v : β) : (m.take i v).owner v = some i :=
  Function.update_self ..

@[simp] theorem owner_take_of_ne (i : α) {v w : β} (h : w ≠ v) : (m.take i v).owner w = m.owner w :=
  Function.update_of_ne h ..

variable {i : α}

theorem ValidBut.take_values {v : β} (h : m.ValidBut allowed v) (hallow : allowed i v)
    {j : α} {w : β}
    (hj : (m.take i v).value j = some w) : allowed j w ∧ (m.take i v).owner w = some j := by
  by_cases heq : j = i
  · subst heq
    rw [value_take_self] at hj
    obtain rfl := some.inj hj
    exact ⟨hallow, owner_take_self j v⟩
  · rw [value_take_of_ne v heq] at hj
    have hne : w ≠ v := by
      rintro rfl
      exact h.not_taken j hj
    refine ⟨h.allowed_value hj, ?_⟩
    rw [owner_take_of_ne i hne, h.owner_value hj]

/-- A vertex without a value takes the missing one, and nothing is missing any more. -/
theorem ValidBut.take_free {v : β} (h : m.ValidBut allowed v) (hallow : allowed i v)
    (hi : m.value i = none) : (m.take i v).Valid allowed where
  allowed_value := fun hj => (h.take_values hallow hj).1
  owner_value := fun hj => (h.take_values hallow hj).2
  value_owner := by
    intro j w hw
    by_cases heq : w = v
    · subst heq
      rw [owner_take_self] at hw
      rw [← some.inj hw, value_take_self]
    · rw [owner_take_of_ne i heq] at hw
      have hj := h.value_owner heq hw
      rw [value_take_of_ne v fun hji => by rw [hji, hi] at hj; cases hj]
      exact hj

/-- A vertex takes the missing value, and its own is missing then. -/
theorem ValidBut.take_swap {v w : β} (h : m.ValidBut allowed v) (hallow : allowed i v)
    (hi : m.value i = some w) : (m.take i v).ValidBut allowed w where
  allowed_value := fun hj => (h.take_values hallow hj).1
  owner_value := fun hj => (h.take_values hallow hj).2
  value_owner := by
    intro j u hne hu
    by_cases heq : u = v
    · subst heq
      rw [owner_take_self] at hu
      rw [← some.inj hu, value_take_self]
    · rw [owner_take_of_ne i heq] at hu
      have hj := h.value_owner heq hu
      rw [value_take_of_ne v fun hji => by
        rw [hji, hi] at hj
        exact hne (some.inj hj).symm]
      exact hj
  not_taken := by
    intro j hj
    by_cases heq : j = i
    · subst heq
      rw [value_take_self] at hj
      exact h.not_taken j (by rw [hi, ← some.inj hj])
    · rw [value_take_of_ne v heq] at hj
      have howner := h.owner_value hi
      rw [h.owner_value hj] at howner
      exact heq (some.inj howner)

end take

/-- If every vertex has a value, the values are a choice of distinct ones. -/
theorem Valid.exists_choice (h : m.Valid allowed) (hall : ∀ i, m.value i ≠ none) :
    ∃ f : α → β, Function.Injective f ∧ ∀ i, allowed i (f i) := by
  have hval : ∀ i, ∃ v, m.value i = some v := fun i => ne_none_iff_exists'.mp (hall i)
  choose f hf using hval
  refine ⟨f, fun i j hij => ?_, fun i => h.allowed_value (hf i)⟩
  have hi := h.owner_value (hf i)
  rw [hij, h.owner_value (hf j)] at hi
  exact (some.inj hi).symm

/-- A set of vertices whose values are all owned within it has no choice of distinct values if
one of its vertices has none: the choice would map the set into itself and miss that vertex. -/
theorem Valid.not_exists_choice [Finite α] (h : m.Valid allowed) {reached : α → Prop}
    (hcl : ∀ i v, reached i → allowed i v → ∃ j, m.owner v = some j ∧ reached j)
    {i : α} (hi : reached i) (hfree : m.value i = none) :
    ¬ ∃ f : α → β, Function.Injective f ∧ ∀ j, allowed j (f j) := by
  rintro ⟨f, hf, hallow⟩
  have howner : ∀ a : {a // reached a}, ∃ b : {b // reached b}, m.owner (f a) = some b.val := by
    intro a
    obtain ⟨b, hb, hreach⟩ := hcl a (f a) a.property (hallow a)
    exact ⟨⟨b, hreach⟩, hb⟩
  choose g hg using howner
  have hinj : Function.Injective g := by
    intro a b hab
    have ha := h.value_owner (hg a)
    rw [hab, h.value_owner (hg b)] at ha
    exact Subtype.ext (hf (some.inj ha).symm)
  obtain ⟨a, ha⟩ := Finite.surjective_of_injective hinj ⟨i, hi⟩
  have hval := h.value_owner (hg a)
  rw [ha, hfree] at hval
  cases hval

end Matching

end Hermit.Library
