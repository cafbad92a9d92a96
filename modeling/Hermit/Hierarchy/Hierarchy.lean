import Hermit.Library.TopologicalOrder
import Hermit.Library.Worklist

/-! # Hierarchies

A hierarchy groups equivalent elements into nodes and links every node to the nodes just above and
just below it.  Nodes are kept in an arena; a node that is not there has no links.
-/

namespace Hermit

open List

abbrev NodeRef := ℕ

structure HierarchyNode (E : Type*) where
  representative : E
  equivalentElements : List E
  parents : List NodeRef
  children : List NodeRef

structure Hierarchy (E : Type*) where
  nodes : List (HierarchyNode E)
  top : NodeRef
  bottom : NodeRef

namespace Hierarchy

variable {E : Type*} (h : Hierarchy E)

def parentNodes (n : NodeRef) : List NodeRef := (h.nodes[n]?.map HierarchyNode.parents).getD []

def childNodes (n : NodeRef) : List NodeRef := (h.nodes[n]?.map HierarchyNode.children).getD []

def representative (n : NodeRef) : Option E := h.nodes[n]?.map HierarchyNode.representative

def allNodes : List NodeRef := List.range h.nodes.length

def ancestorNodes (start : NodeRef) : List NodeRef :=
  Worklist.reachQueue h.parentNodes h.allNodes start

def descendantNodes (start : NodeRef) : List NodeRef :=
  Worklist.reachQueue h.childNodes h.allNodes start

/-- Every node, each after its child nodes; a node is taken only once. -/
def nodesBottomUp : Option (List NodeRef) :=
  TopologicalOrder.listAll h.allNodes h.childNodes h.parentNodes h.nodes.length

/-- `m` is at or above `n`. -/
def Ancestor (n m : NodeRef) : Prop := Relation.ReflTransGen (fun a b => b ∈ h.parentNodes a) n m

/-- The links go both ways and never in a circle, and all nodes lie between bottom and top. -/
structure WellFormed : Prop where
  top_lt : h.top < h.nodes.length
  bottom_lt : h.bottom < h.nodes.length
  mem_parentNodes : ∀ n p, p ∈ h.parentNodes n ↔ n ∈ h.childNodes p
  nodup_parentNodes : ∀ n, (h.parentNodes n).Nodup
  nodup_childNodes : ∀ n, (h.childNodes n).Nodup
  below_top : ∀ n < h.nodes.length, h.Ancestor n h.top
  above_bottom : ∀ n < h.nodes.length, h.Ancestor h.bottom n
  acyclic : ∃ rank : NodeRef → ℕ, ∀ n, ∀ p ∈ h.parentNodes n, rank n < rank p

variable {h} {n m p : NodeRef}

theorem lt_of_mem_parentNodes (hp : p ∈ h.parentNodes n) : n < h.nodes.length := by
  by_contra hlt
  rw [parentNodes, getElem?_eq_none (not_lt.mp hlt)] at hp
  cases hp

theorem lt_of_mem_childNodes (hn : n ∈ h.childNodes p) : p < h.nodes.length := by
  by_contra hlt
  rw [childNodes, getElem?_eq_none (not_lt.mp hlt)] at hn
  cases hn

theorem Ancestor.trans {k : NodeRef} (hnm : h.Ancestor n m) (hmk : h.Ancestor m k) :
    h.Ancestor n k :=
  Relation.ReflTransGen.trans hnm hmk

theorem Ancestor.single (hp : p ∈ h.parentNodes n) : h.Ancestor n p :=
  Relation.ReflTransGen.single hp

theorem Ancestor.lt (hnm : h.Ancestor n m) (hm : m < h.nodes.length) : n < h.nodes.length := by
  rcases Relation.ReflTransGen.cases_head hnm with rfl | ⟨p, hp, -⟩
  · exact hm
  · exact lt_of_mem_parentNodes hp

/-- Above a node comes one of its parents first. -/
theorem Ancestor.exists_parent (hnm : h.Ancestor n m) (hne : n ≠ m) : ∃ p ∈ h.parentNodes n,
    h.Ancestor p m := by
  rcases Relation.ReflTransGen.cases_head hnm with heq | hhead
  · exact absurd heq hne
  · exact hhead

namespace WellFormed

variable (wf : h.WellFormed)

include wf

theorem parent_lt (hp : p ∈ h.parentNodes n) : p < h.nodes.length :=
  lt_of_mem_childNodes ((wf.mem_parentNodes n p).mp hp)

theorem child_lt (hn : n ∈ h.childNodes p) : n < h.nodes.length :=
  lt_of_mem_parentNodes ((wf.mem_parentNodes n p).mpr hn)

theorem mem_ancestorNodes (hn : n < h.nodes.length) : m ∈ h.ancestorNodes n ↔ h.Ancestor n m := by
  refine Worklist.mem_reachQueue (fun a _ b hb => ?_) (mem_range.mpr hn) m
  exact mem_range.mpr (wf.parent_lt hb)

theorem antisymm (hnm : h.Ancestor n m) (hmn : h.Ancestor m n) : n = m := by
  obtain ⟨rank, hrank⟩ := wf.acyclic
  have hle : ∀ {a b}, h.Ancestor a b → a = b ∨ rank a < rank b := by
    intro a b hab
    induction hab with
    | refl => exact .inl rfl
    | tail _ hp ih =>
      right
      have hlt := hrank _ _ hp
      rcases ih with rfl | ih
      · exact hlt
      · omega
  rcases hle hnm with heq | hlt
  · exact heq
  · rcases hle hmn with heq | hlt'
    · exact heq.symm
    · omega

theorem exists_child (hnm : h.Ancestor n m) (hne : n ≠ m) : ∃ c ∈ h.childNodes m,
    h.Ancestor n c := by
  rcases Relation.ReflTransGen.cases_tail hnm with heq | ⟨c, hnc, hc⟩
  · exact absurd heq.symm hne
  · exact ⟨c, (wf.mem_parentNodes c m).mp hc, hnc⟩

theorem ne_of_mem_parentNodes (hp : p ∈ h.parentNodes n) : n ≠ p := by
  rintro rfl
  obtain ⟨rank, hrank⟩ := wf.acyclic
  exact lt_irrefl _ (hrank _ _ hp)

theorem child_ne_top (hn : n ∈ h.childNodes p) : n ≠ h.top := by
  rintro rfl
  have hp := (wf.mem_parentNodes _ p).mpr hn
  exact wf.ne_of_mem_parentNodes hp
    (wf.antisymm (.single hp) (wf.below_top p (lt_of_mem_childNodes hn)))

theorem eq_bottom_of_ancestor (hn : h.Ancestor n h.bottom) : n = h.bottom :=
  wf.antisymm hn (wf.above_bottom n (hn.lt wf.bottom_lt))

/-- Every node is listed once, after its children. -/
theorem exists_nodesBottomUp : ∃ order, h.nodesBottomUp = some order ∧ order.Nodup ∧
    (∀ n, n ∈ order ↔ n < h.nodes.length) ∧ TopologicalOrder.Ascending h.childNodes order := by
  have hinv : TopologicalOrder.Inverse h.allNodes h.childNodes h.parentNodes :=
    ⟨nodup_range, wf.nodup_childNodes, wf.nodup_parentNodes, wf.mem_parentNodes,
      fun n p hp => mem_range.mpr (wf.parent_lt hp)⟩
  obtain ⟨rank, hrank⟩ := wf.acyclic
  obtain ⟨order, hfuel, hnd, hmem, hascending⟩ :=
    TopologicalOrder.exists_listAll_eq hinv rank hrank
    fun p _ c hc => mem_range.mpr (wf.child_lt hc)
  refine ⟨order, hfuel _ (by rw [allNodes, length_range]), hnd, fun n => ?_, hascending⟩
  rw [hmem, allNodes, mem_range]

end WellFormed

/-- Links that agree in both directions need to be compared at the nodes only. -/
theorem mem_parentNodes_iff (hpars : ∀ n < h.nodes.length, ∀ p ∈ h.parentNodes n,
      n ∈ h.childNodes p)
    (hchildren : ∀ p < h.nodes.length, ∀ n ∈ h.childNodes p, p ∈ h.parentNodes n) (n p : NodeRef) :
    p ∈ h.parentNodes n ↔ n ∈ h.childNodes p :=
  ⟨fun hp => hpars n (lt_of_mem_parentNodes hp) p hp, fun hn =>
      hchildren p (lt_of_mem_childNodes hn) n hn⟩

/-- Well-formedness from what can be checked node by node: above every node other than top there is
one of greater rank, and below every node other than bottom there is one of smaller rank. -/
theorem wellFormed_of_rank (rank : NodeRef → ℕ) (bound : ℕ) (htop : h.top < h.nodes.length)
    (hbot : h.bottom < h.nodes.length)
    (hpars : ∀ n < h.nodes.length, ∀ p ∈ h.parentNodes n, n ∈ h.childNodes p)
    (hchildren : ∀ p < h.nodes.length, ∀ n ∈ h.childNodes p, p ∈ h.parentNodes n)
    (hnd : ∀ n < h.nodes.length, (h.parentNodes n).Nodup ∧ (h.childNodes n).Nodup)
    (hrank : ∀ n < h.nodes.length, ∀ p ∈ h.parentNodes n, rank n < rank p)
    (hbd : ∀ n < h.nodes.length, rank n ≤ bound)
    (hup : ∀ n < h.nodes.length, n ≠ h.top → h.parentNodes n ≠ [])
    (hdown : ∀ n < h.nodes.length, n ≠ h.bottom → h.childNodes n ≠ []) : h.WellFormed := by
  have hlinks := mem_parentNodes_iff hpars hchildren
  have hemp : ∀ n, ¬ n < h.nodes.length → h.parentNodes n = [] ∧ h.childNodes n = [] := by
    intro n hn
    rw [parentNodes, childNodes, getElem?_eq_none (not_lt.mp hn)]
    exact ⟨rfl, rfl⟩
  have hall : ∀ n, (h.parentNodes n).Nodup ∧ (h.childNodes n).Nodup := by
    intro n
    by_cases hn : n < h.nodes.length
    · exact hnd n hn
    · rw [(hemp n hn).1, (hemp n hn).2]
      exact ⟨nodup_nil, nodup_nil⟩
  refine ⟨htop, hbot, hlinks, fun n => (hall n).1, fun n => (hall n).2, fun n hn => ?_,
      fun n hn => ?_,
    rank, fun n p hp => hrank n (lt_of_mem_parentNodes hp) p hp⟩
  · induction hsize : bound - rank n using Nat.strongRecOn generalizing n with
    | ind size ih =>
      subst hsize
      by_cases htop : n = h.top
      · exact htop ▸ .refl
      · obtain ⟨p, hp⟩ := exists_mem_of_ne_nil _ (hup n hn htop)
        have hplt : p < h.nodes.length := lt_of_mem_childNodes ((hlinks n p).mp hp)
        have hlt := hrank n hn p hp
        have hle := hbd p hplt
        exact (Ancestor.single hp).trans (ih (bound - rank p) (by omega) p hplt rfl)
  · induction hsize : rank n using Nat.strongRecOn generalizing n with
    | ind size ih =>
      subst hsize
      by_cases hbot : n = h.bottom
      · exact hbot ▸ .refl
      · obtain ⟨c, hc⟩ := exists_mem_of_ne_nil _ (hdown n hn hbot)
        have hpar := (hlinks c n).mpr hc
        have hclt := lt_of_mem_parentNodes hpar
        exact (ih (rank c) (hrank c hclt n hpar) c hclt rfl).trans (.single hpar)

end Hierarchy

end Hermit
