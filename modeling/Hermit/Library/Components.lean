import Mathlib

/-! # Components of groups

Two elements are related when one of some groups has both, and connected when a chain of groups
leads from one to the other.
-/

namespace Hermit.Library

variable {α β : Type*} (members : β → α → Prop) (groups : Set β)

/-- A group has both elements. -/
def Related (a b : α) : Prop := ∃ group ∈ groups, members group a ∧ members group b

/-- The elements lie in one component. -/
def Connected : α → α → Prop := Relation.ReflTransGen (Related members groups)

variable {members groups} {a b c : α}

theorem Connected.refl (a : α) : Connected members groups a a := Relation.ReflTransGen.refl

theorem Connected.trans (h : Connected members groups a b) (h' : Connected members groups b c) :
    Connected members groups a c :=
  Relation.ReflTransGen.trans h h'

theorem connected_of_group {group : β} (hgroup : group ∈ groups) (ha : members group a)
    (hb : members group b) :
    Connected members groups a b :=
  Relation.ReflTransGen.single ⟨group, hgroup, ha, hb⟩

theorem Connected.symm (h : Connected members groups a b) : Connected members groups b a := by
  induction h with
  | refl => exact Connected.refl a
  | tail _ hrel ih =>
    obtain ⟨group, hgroup, hmem, hmem'⟩ := hrel
    exact (connected_of_group hgroup hmem' hmem).trans ih

/-- A set that has all or nothing of each group has all or nothing of each component. -/
theorem Connected.mem_of_closed {s : Set α}
    (hcl : ∀ group ∈ groups, ∀ a b, members group a → members group b → a ∈ s → b ∈ s)
    (h : Connected members groups a b) (ha : a ∈ s) : b ∈ s := by
  induction h with
  | refl => exact ha
  | tail _ hrel ih =>
    obtain ⟨group, hgroup, hmem, hmem'⟩ := hrel
    exact hcl group hgroup _ _ hmem hmem' ih

end Hermit.Library
