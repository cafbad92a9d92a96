import Mathlib

/-! # Forests

A relation that leads from each point to one point at most is a forest.  What its edges link goes up
to common points, so a class of points is linked if and only if it has one root.
-/

namespace Hermit.Forests

variable {α β : Type*} {r : α → α → Prop} {a b : α}

def Root (r : α → α → Prop) (a : α) : Prop := ∀ b, ¬ r a b

theorem Root.eq (h : Root r a) (hab : Relation.ReflTransGen r a b) : a = b := by
  induction hab with
  | refl => rfl
  | tail _ hstep ih =>
    rw [← ih] at hstep
    exact absurd hstep (h _)

theorem exists_common (hr : Relator.RightUnique r) (h : Relation.EqvGen r a b) :
    ∃ c, Relation.ReflTransGen r a c ∧ Relation.ReflTransGen r b c := by
  induction h with
  | rel a b hab => exact ⟨b, .single hab, .refl⟩
  | refl a => exact ⟨a, .refl, .refl⟩
  | symm a b _ ih =>
    obtain ⟨c, ha, hb⟩ := ih
    exact ⟨c, hb, ha⟩
  | trans a b d _ _ ih ih' =>
    obtain ⟨c, ha, hb⟩ := ih
    obtain ⟨c', hb', hd⟩ := ih'
    rcases Relation.ReflTransGen.total_of_right_unique hr hb hb' with hcc | hcc
    · exact ⟨c', ha.trans hcc, hd⟩
    · exact ⟨c, ha, hd.trans hcc⟩

theorem value_eq {f : α → β} (hcls : ∀ a b, r a b → f a = f b) (h : Relation.ReflTransGen r a b) :
    f a = f b := by
  induction h with
  | refl => rfl
  | tail _ hstep ih => exact ih.trans (hcls _ _ hstep)

/-- Every class is linked if and only if no two roots are in one class. -/
theorem linked_iff {s : Set α} {f : α → β} (hr : Relator.RightUnique r)
    (hcls : ∀ a b, r a b → f a = f b)
    (hroot : ∀ a ∈ s, ∃ b ∈ s, Relation.ReflTransGen r a b ∧ Root r b) :
    (∀ a ∈ s, ∀ b ∈ s, f a = f b → Relation.EqvGen r a b) ↔ ∀ a ∈ s, ∀ b ∈ s, Root r a → Root r b →
    f a = f b → a = b := by
  constructor
  · intro hlink a ha b hb hroota hrootb hab
    obtain ⟨c, hac, hbc⟩ := exists_common hr (hlink a ha b hb hab)
    rw [hroota.eq hac, hrootb.eq hbc]
  · intro hone a ha b hb hab
    obtain ⟨a', ha', haa', hroota⟩ := hroot a ha
    obtain ⟨b', hb', hbb', hrootb⟩ := hroot b hb
    have heq : a' = b' :=
      hone a' ha' b' hb' hroota hrootb
        ((value_eq hcls haa').symm.trans (hab.trans (value_eq hcls hbb')))
    rw [heq] at haa'
    exact (Relation.EqvGen.reflTransGen_le_eqvGen _ _ _ haa').trans _ _ _
      (.symm _ _ (Relation.EqvGen.reflTransGen_le_eqvGen _ _ _ hbb'))

end Hermit.Forests
