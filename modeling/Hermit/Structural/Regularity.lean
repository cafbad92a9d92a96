import Hermit.Structural.RoleBox

/-! # Trimming the property dependency graph

A pass of the trimming loop removes the edges between equivalent properties and connects their
sources to the successors of their targets, which may again be equivalent.  What a pass leaves is
bounded by an operation on relations that does not depend on the order of the traversals; the loop
ends if this operation does.
-/

namespace Hermit

open List

namespace Graph

variable {α : Type*} [DecidableEq α] {g : Graph α} {a b p t : α}

instance : DecidableEq (Graph α) := fun g h =>
  decidable_of_iff (g.elements = h.elements ∧ g.successors.entries = h.successors.entries)
    (by cases g; cases h; simp [AList.ext_iff])

/-- The graph has an edge. -/
def Edge (g : Graph α) (p t : α) : Prop := t ∈ g.getSuccessors p

/-- The successors of every node are a set. -/
def NodupSuccessors (g : Graph α) : Prop := ∀ p, (g.getSuccessors p).Nodup

theorem getSuccessors_addEdge : (g.addEdge a b).getSuccessors p =
    if p = a then insertSet (g.getSuccessors a) b else g.getSuccessors p := by
  unfold addEdge
  rw [getSuccessors]
  split
  · rename_i hp
    rw [hp, AList.lookup_insert]
    rfl
  · rename_i hp
    rw [AList.lookup_insert_ne hp]
    rfl

theorem edge_addEdge : (g.addEdge a b).Edge p t ↔ g.Edge p t ∨ (p = a ∧ t = b) := by
  unfold Edge
  rw [getSuccessors_addEdge]
  by_cases hp : p = a
  · rw [if_pos hp, mem_insertSet, hp]
    simp
  · rw [if_neg hp]
    simp [hp]

theorem NodupSuccessors.addEdge (h : g.NodupSuccessors) (a b : α) :
    (g.addEdge a b).NodupSuccessors := by
  intro p
  rw [getSuccessors_addEdge]
  split
  · exact nodup_foldl_insertSet [b] _ (h a)
  · exact h p

theorem getSuccessors_removeEdge : (g.removeEdge a b).getSuccessors p =
    if p = a then (g.getSuccessors a).erase b else g.getSuccessors p := by
  cases hlook : g.successors.lookup a with
  | none =>
    have hnil : g.getSuccessors a = [] := by rw [getSuccessors, hlook]; rfl
    have hsame : g.removeEdge a b = g := by rw [removeEdge, hlook]
    rw [hsame, hnil]
    split
    · rename_i hp
      rw [hp, hnil]
      rfl
    · rfl
  | some targets =>
    have htgts : g.getSuccessors a = targets := by rw [getSuccessors, hlook]; rfl
    have hrem : g.removeEdge a b =
        { g with successors := g.successors.insert a (targets.erase b) } := by
      rw [removeEdge, hlook]
    rw [hrem, htgts, getSuccessors]
    split
    · rename_i hp
      rw [hp, AList.lookup_insert]
      rfl
    · rename_i hp
      rw [AList.lookup_insert_ne hp]
      rfl

theorem NodupSuccessors.edge_removeEdge (h : g.NodupSuccessors) :
    (g.removeEdge a b).Edge p t ↔ g.Edge p t ∧ ¬ (p = a ∧ t = b) := by
  unfold Edge
  rw [getSuccessors_removeEdge]
  by_cases hp : p = a
  · rw [if_pos hp, (h a).mem_erase_iff, hp, and_comm]
    simp
  · rw [if_neg hp]
    simp [hp]

theorem NodupSuccessors.removeEdge (h : g.NodupSuccessors) (a b : α) :
    (g.removeEdge a b).NodupSuccessors := by
  intro p
  rw [getSuccessors_removeEdge]
  split
  · exact (h a).erase b
  · exact h p

theorem mem_edges : (p, t) ∈ g.edges ↔ g.Edge p t := by
  unfold edges Edge getSuccessors
  rw [mem_flatMap]
  constructor
  · rintro ⟨⟨source, targets⟩, hent, htgt⟩
    obtain ⟨target, htgt, heq⟩ := mem_map.mp htgt
    cases heq
    rw [AList.mem_lookup_iff.mpr hent]
    exact htgt
  · intro ht
    cases hlook : g.successors.lookup p with
    | none =>
      rw [hlook] at ht
      cases ht
    | some targets =>
      rw [hlook] at ht
      exact ⟨⟨p, targets⟩, AList.mem_lookup_iff.mp hlook, mem_map_of_mem ht⟩

theorem edge_foldl_addEdge (l : List (α × α)) (g : Graph α) :
    (l.foldl (fun copy e => copy.addEdge e.1 e.2) g).Edge p t ↔ g.Edge p t ∨ (p, t) ∈ l := by
  induction l generalizing g with
  | nil => simp
  | cons e l ih => rw [foldl_cons, ih, edge_addEdge, or_assoc, mem_cons, Prod.ext_iff]

theorem edge_clone : g.clone.Edge p t ↔ g.Edge p t := by
  unfold clone
  rw [edge_foldl_addEdge, mem_edges]
  exact or_iff_right not_mem_nil

theorem nodupSuccessors_clone (g : Graph α) : g.clone.NodupSuccessors := by
  have hfold : ∀ (l : List (α × α)) (copy : Graph α), copy.NodupSuccessors →
      (l.foldl (fun copy e => copy.addEdge e.1 e.2) copy).NodupSuccessors := by
    intro l
    induction l with
    | nil => exact fun copy hcopy => hcopy
    | cons e l ih => exact fun copy hcopy => ih _ (hcopy.addEdge e.1 e.2)
  exact hfold _ _ fun p => nodup_nil

/-- The sources of the edges are elements. -/
theorem mem_elements_clone (h : g.clone.Edge p t) : p ∈ g.clone.elements := by
  have hfold : ∀ (l : List (α × α)) (copy : Graph α), (∀ p t, copy.Edge p t → p ∈ copy.elements) →
      ∀ p t, (l.foldl (fun copy e => copy.addEdge e.1 e.2) copy).Edge p t →
        p ∈ (l.foldl (fun copy e => copy.addEdge e.1 e.2) copy).elements := by
    intro l
    induction l with
    | nil => exact fun copy hcopy => hcopy
    | cons e l ih =>
      intro copy hcopy
      refine ih _ fun p t hedge => ?_
      change p ∈ insertSet (insertSet copy.elements e.1) e.2
      rw [mem_insertSet, mem_insertSet]
      rcases edge_addEdge.mp hedge with hedge | ⟨rfl, -⟩
      · exact .inl (.inl (hcopy p t hedge))
      · exact .inl (.inr rfl)
  exact hfold _ _ (fun p t hedge => absurd hedge not_mem_nil) p t h

end Graph

/-! ## Trimming -/

section trimming

variable (equivalent : AList fun _ : ObjectPropExpr => List ObjectPropExpr)

/-- Every pair of equivalent properties is replaced by the pairs of the first one with what the
second one is related to, itself excepted. -/
def Reconnect (R : ObjectPropExpr → ObjectPropExpr → Prop) (p t : ObjectPropExpr) : Prop :=
  (R p t ∧ areEquivalent equivalent p t = false) ∨ ∃ s,
    R p s ∧ areEquivalent equivalent p s = true ∧ R s t ∧ p ≠ t

/-- Reconnecting again and again leaves no pair of equivalent properties. -/
def TrimmingSettles (R : ObjectPropExpr → ObjectPropExpr → Prop) : Prop :=
  ∃ passes, ∀ p t, (Reconnect equivalent)^[passes] R p t → areEquivalent equivalent p t = false

variable {equivalent} {graph temp : Graph ObjectPropExpr} {p t : ObjectPropExpr}

theorem Reconnect.mono {R R' : ObjectPropExpr → ObjectPropExpr → Prop} (h : ∀ p t, R p t → R' p t)
    (hrecon : Reconnect equivalent R p t) : Reconnect equivalent R' p t := by
  rcases hrecon with ⟨hR, hoth⟩ | ⟨s, hps, hequiv, hst, hne⟩
  · exact .inl ⟨h p t hR, hoth⟩
  · exact .inr ⟨s, h p s hps, hequiv, h s t hst, hne⟩

/-- The live graph after some edges of the copy. -/
structure Trimmed (equivalent : AList fun _ : ObjectPropExpr => List ObjectPropExpr)
    (temp : Graph ObjectPropExpr)
    (seen : List (ObjectPropExpr × ObjectPropExpr))
    (state : Graph ObjectPropExpr × Bool) : Prop where
  nodup : state.1.NodupSuccessors
  edge : ∀ p t, state.1.Edge p t →
    (temp.Edge p t ∧ ((p, t) ∈ seen → areEquivalent equivalent p t = false)) ∨
    ∃ s, temp.Edge p s ∧ areEquivalent equivalent p s = true ∧ temp.Edge s t ∧ p ≠ t
  trimmed : state.2 = true → ∃ e ∈ seen, areEquivalent equivalent e.1 e.2 = true

variable (targets : List ObjectPropExpr)

theorem edge_addSuccessors {a : ObjectPropExpr} (g : Graph ObjectPropExpr) :
    (targets.foldl (fun g s => if a ≠ s then g.addEdge a s else g) g).Edge p t ↔
    g.Edge p t ∨ (p = a ∧ t ∈ targets ∧ a ≠ t) := by
  induction targets generalizing g with
  | nil => simp
  | cons s targets ih =>
    rw [foldl_cons, ih, mem_cons]
    split
    · rename_i hne
      rw [Graph.edge_addEdge, or_assoc]
      apply or_congr_right
      constructor
      · rintro (⟨rfl, rfl⟩ | ⟨rfl, ht, hne⟩)
        · exact ⟨rfl, .inl rfl, hne⟩
        · exact ⟨rfl, .inr ht, hne⟩
      · rintro ⟨rfl, rfl | ht, hne⟩
        · exact .inl ⟨rfl, rfl⟩
        · exact .inr ⟨rfl, ht, hne⟩
    · rename_i heq
      apply or_congr_right
      constructor
      · rintro ⟨rfl, ht, hne⟩
        exact ⟨rfl, .inr ht, hne⟩
      · rintro ⟨rfl, rfl | ht, hne⟩
        · exact absurd hne heq
        · exact ⟨rfl, ht, hne⟩

theorem nodupSuccessors_addSuccessors {a : ObjectPropExpr}
    {g : Graph ObjectPropExpr} (hg : g.NodupSuccessors) :
    (targets.foldl (fun g s => if a ≠ s then g.addEdge a s else g) g).NodupSuccessors := by
  induction targets generalizing g with
  | nil => exact hg
  | cons s targets ih =>
    apply ih
    dsimp only
    split
    · exact hg.addEdge a s
    · exact hg

variable {seen : List (ObjectPropExpr × ObjectPropExpr)} {state : Graph ObjectPropExpr × Bool}

theorem Trimmed.trimEdge
    (h : Trimmed equivalent temp seen state) {e : ObjectPropExpr × ObjectPropExpr}
    (he : temp.Edge e.1 e.2) :
    Trimmed equivalent temp (e :: seen) (trimEdge equivalent temp state e) := by
  unfold Hermit.trimEdge
  split
  · rename_i hequiv
    have hnd := nodupSuccessors_addSuccessors (a := e.1) (temp.getSuccessors e.2) h.nodup
    refine ⟨hnd.removeEdge e.1 e.2, fun p t hedge => ?_, fun _ =>
        ⟨e, mem_cons_self, hequiv⟩⟩
    obtain ⟨hedge, hoth⟩ := hnd.edge_removeEdge.mp hedge
    rcases (edge_addSuccessors _ _).mp hedge with hedge | ⟨rfl, ht, hne⟩
    · refine (h.edge p t hedge).imp_left fun ⟨htemp, hseen⟩ => ⟨htemp, fun hmem => ?_⟩
      rcases mem_cons.mp hmem with rfl | hmem
      · exact absurd ⟨rfl, rfl⟩ hoth
      · exact hseen hmem
    · exact .inr ⟨e.2, he, hequiv, ht, hne⟩
  · rename_i hequiv
    refine ⟨h.nodup, fun p t hedge => ?_, fun htrimmed => ?_⟩
    · refine (h.edge p t hedge).imp_left fun ⟨htemp, hseen⟩ => ⟨htemp, fun hmem => ?_⟩
      rcases mem_cons.mp hmem with rfl | hmem
      · simpa using hequiv
      · exact hseen hmem
    · obtain ⟨e', he', hequiv'⟩ := h.trimmed htrimmed
      exact ⟨e', mem_cons_of_mem _ he', hequiv'⟩

theorem Trimmed.foldl_trimEdge
    (h : Trimmed equivalent temp seen state) (edges : List (ObjectPropExpr × ObjectPropExpr))
    (hedges : ∀ e ∈ edges, temp.Edge e.1 e.2) : Trimmed equivalent temp (edges.reverse ++ seen)
    (edges.foldl (Hermit.trimEdge equivalent temp) state) := by
  induction edges generalizing seen state with
  | nil => exact h
  | cons e edges ih =>
    rw [reverse_cons, append_assoc]
    exact ih (h.trimEdge (hedges e mem_cons_self)) fun e' he' => hedges e' (mem_cons_of_mem _ he')

variable (order : HashOrder ObjectPropExpr)

/-- A pass leaves reconnected edges only, and goes on only if there were edges to remove. -/
theorem trimPass_spec (equivalent : AList fun _ : ObjectPropExpr => List ObjectPropExpr) (pass : ℕ)
    (hgraph : graph.NodupSuccessors) :
    (trimPass order equivalent pass graph).1.NodupSuccessors ∧
      (∀ p t, (trimPass order equivalent pass graph).1.Edge p t →
        Reconnect equivalent graph.Edge p t) ∧
      ((trimPass order equivalent pass graph).2 = true → ∃ p t,
        graph.Edge p t ∧ areEquivalent equivalent p t = true) := by
  unfold trimPass
  generalize hedges : ((order.arrange pass graph.clone.elements).flatMap fun prop =>
      (order.arrange pass (graph.clone.getSuccessors prop)).map fun succ => (prop, succ)) = edges
  have hmem : ∀ p t, (p, t) ∈ edges ↔ graph.clone.Edge p t := by
    intro p t
    rw [← hedges, mem_flatMap]
    constructor
    · rintro ⟨prop, -, hsucc⟩
      obtain ⟨succ, hsucc, heq⟩ := mem_map.mp hsucc
      cases heq
      exact (order.perm _ _).mem_iff.mp hsucc
    · intro hedge
      exact ⟨p, (order.perm _ _).mem_iff.mpr (Graph.mem_elements_clone hedge),
        mem_map_of_mem ((order.perm _ _).mem_iff.mpr hedge)⟩
  have hstart : Trimmed equivalent graph.clone [] (graph, false) :=
    ⟨hgraph, fun p t hedge => .inl ⟨Graph.edge_clone.mpr hedge, nofun⟩, nofun⟩
  have hend := hstart.foldl_trimEdge edges fun e he => (hmem e.1 e.2).mp he
  refine ⟨hend.nodup, fun p t hedge => ?_, fun htrimmed => ?_⟩
  · have hrecon : Reconnect equivalent graph.clone.Edge p t := by
      refine (hend.edge p t hedge).imp_left fun ⟨htemp, hseen⟩ => ⟨htemp, hseen ?_⟩
      rw [append_nil, mem_reverse]
      exact (hmem p t).mpr htemp
    exact hrecon.mono fun p t => Graph.edge_clone.mp
  · obtain ⟨e, he, hequiv⟩ := hend.trimmed htrimmed
    rw [append_nil, mem_reverse] at he
    exact ⟨e.1, e.2, Graph.edge_clone.mp ((hmem e.1 e.2).mp he), hequiv⟩

/-- Passes that suffice for a relation suffice for every graph inside it. -/
theorem exists_trim {R : ObjectPropExpr → ObjectPropExpr → Prop} {passes : ℕ}
    (hset : ∀ p t, (Reconnect equivalent)^[passes] R p t →
      areEquivalent equivalent p t = false) (pass : ℕ)
    (hgraph : graph.NodupSuccessors) (hedge : ∀ p t, graph.Edge p t → R p t) :
    ∃ trimmed, ∀ fuel, passes < fuel → trim order equivalent fuel pass graph = some trimmed := by
  induction passes generalizing R pass graph with
  | zero =>
    obtain ⟨-, -, htrimmed⟩ := trimPass_spec order equivalent pass hgraph
    cases hpass : trimPass order equivalent pass graph with
    | mk graph' trimmed =>
      rw [hpass] at htrimmed
      cases trimmed with
      | true =>
        obtain ⟨p, t, hpt, hequiv⟩ := htrimmed rfl
        rw [hset p t (hedge p t hpt)] at hequiv
        cases hequiv
      | false =>
        refine ⟨graph', fun fuel hfuel => ?_⟩
        obtain ⟨fuel, rfl⟩ : ∃ n, fuel = n + 1 := ⟨fuel - 1, by omega⟩
        rw [trim, hpass]
  | succ passes ih =>
    obtain ⟨hnd, hrecon, -⟩ := trimPass_spec order equivalent pass hgraph
    cases hpass : trimPass order equivalent pass graph with
    | mk graph' trimmed =>
      rw [hpass] at hnd hrecon
      have hnext : ∀ p t, graph'.Edge p t → Reconnect equivalent R p t :=
        fun p t h => (hrecon p t h).mono hedge
      cases trimmed with
      | true =>
        obtain ⟨trimmed, htrim⟩ := ih hset (pass + 1) hnd hnext
        refine ⟨trimmed, fun fuel hfuel => ?_⟩
        obtain ⟨fuel, rfl⟩ : ∃ n, fuel = n + 1 := ⟨fuel - 1, by omega⟩
        rw [trim, hpass]
        exact htrim fuel (by omega)
      | false =>
        refine ⟨graph', fun fuel hfuel => ?_⟩
        obtain ⟨fuel, rfl⟩ : ∃ n, fuel = n + 1 := ⟨fuel - 1, by omega⟩
        rw [trim, hpass]

/-! ## Dependencies between equivalent properties -/

/-- The equivalence map connects the properties. -/
abbrev Connected (equivalent : AList fun _ : ObjectPropExpr => List ObjectPropExpr) :
    ObjectPropExpr → ObjectPropExpr → Prop :=
  Relation.EqvGen fun a b => areEquivalent equivalent a b = true

/-- A dependency between connected properties. -/
def Within (equivalent : AList fun _ : ObjectPropExpr => List ObjectPropExpr)
    (R : ObjectPropExpr → ObjectPropExpr → Prop) (p t : ObjectPropExpr) : Prop :=
  R p t ∧ Connected equivalent p t

/-- A pass replaces no dependency of `p` by one on an equivalent property. -/
def Direct (equivalent : AList fun _ : ObjectPropExpr => List ObjectPropExpr)
    (R : ObjectPropExpr → ObjectPropExpr → Prop) (p : ObjectPropExpr) : Prop :=
  ∀ s t, R p s → areEquivalent equivalent p s = true → R s t → p ≠ t →
    areEquivalent equivalent p t = false

/-- No cycle is reached from `p` along dependencies between connected properties. -/
def Unwinds (equivalent : AList fun _ : ObjectPropExpr => List ObjectPropExpr)
    (R : ObjectPropExpr → ObjectPropExpr → Prop) (p : ObjectPropExpr) : Prop :=
  ∀ q, Relation.ReflTransGen (Within equivalent R) p q →
    ¬ Relation.TransGen (Within equivalent R) q q

variable {R : ObjectPropExpr → ObjectPropExpr → Prop} {k : ℕ}

/-- After the first pass a direct property depends on no equivalent one. -/
theorem Direct.areEquivalent_eq_false (h : Direct equivalent R p)
    (hrecon : (Reconnect equivalent)^[k + 1] R p t) : areEquivalent equivalent p t = false := by
  induction k generalizing t with
  | zero =>
    rcases hrecon with ⟨-, hoth⟩ | ⟨s, hps, hequiv, hst, hne⟩
    · exact hoth
    · exact h s t hps hequiv hst hne
  | succ k ih =>
    rw [Function.iterate_succ_apply'] at hrecon
    rcases hrecon with ⟨-, hoth⟩ | ⟨s, hps, hequiv, -, -⟩
    · exact hoth
    · rw [ih hps] at hequiv
      cases hequiv

/-- What passes put between connected properties is a path of such dependencies. -/
theorem transGen_of_reconnect (hrecon : (Reconnect equivalent)^[k] R p t)
    (hconn : Connected equivalent p t) :
    Relation.TransGen (Within equivalent R) p t := by
  induction k generalizing p t with
  | zero => exact .single ⟨hrecon, hconn⟩
  | succ k ih =>
    rw [Function.iterate_succ_apply'] at hrecon
    rcases hrecon with ⟨hpt, -⟩ | ⟨s, hps, hequiv, hst, -⟩
    · exact ih hpt hconn
    · have hs : Connected equivalent p s := .rel p s hequiv
      exact (ih hps hs).trans (ih hst (hs.symm.trans _ _ _ hconn))

/-- The properties that are reached from `p` between connected ones. -/
noncomputable def belowWithin (equivalent : AList fun _ : ObjectPropExpr => List ObjectPropExpr)
    (graph : Graph ObjectPropExpr) (p : ObjectPropExpr) : Finset ObjectPropExpr :=
  open Classical in
  (graph.edges.map Prod.snd).toFinset.filter (Relation.TransGen (Within equivalent graph.Edge) p)

theorem belowWithin_card_lt (h : Unwinds equivalent graph.Edge p)
    (hpath : Relation.TransGen (Within equivalent graph.Edge) p t) :
    (belowWithin equivalent graph t).card < (belowWithin equivalent graph p).card := by
  classical
  refine Finset.card_lt_card
    ((Finset.ssubset_iff_of_subset fun v hv => ?_).mpr ⟨t, ?_, fun ht => ?_⟩)
  · obtain ⟨hv, hreach⟩ := Finset.mem_filter.mp hv
    exact Finset.mem_filter.mpr ⟨hv, hpath.trans hreach⟩
  · obtain ⟨s, -, hst⟩ := Relation.TransGen.tail'_iff.mp hpath
    refine Finset.mem_filter.mpr ⟨?_, hpath⟩
    rw [List.mem_toFinset]
    exact List.mem_map.mpr ⟨(s, t), Graph.mem_edges.mpr hst.1, rfl⟩
  · exact h t hpath.to_reflTransGen (Finset.mem_filter.mp ht).2

/-- Every pass takes the equivalent properties that `p` depends on further down. -/
theorem Unwinds.card_add_lt (h : Unwinds equivalent graph.Edge p)
    (hrecon : (Reconnect equivalent)^[k] graph.Edge p t)
    (hequiv : areEquivalent equivalent p t = true) :
    (belowWithin equivalent graph t).card + k < (belowWithin equivalent graph p).card := by
  induction k generalizing t with
  | zero => exact belowWithin_card_lt h (.single ⟨hrecon, .rel p t hequiv⟩)
  | succ k ih =>
    have hrecon' := hrecon
    rw [Function.iterate_succ_apply'] at hrecon
    rcases hrecon with ⟨-, hoth⟩ | ⟨s, hps, hs, hst, -⟩
    · rw [hoth] at hequiv
      cases hequiv
    · have hconn : Connected equivalent p s := .rel p s hs
      have hblw := transGen_of_reconnect hps hconn
      have hunwinds : Unwinds equivalent graph.Edge s :=
        fun q hq => h q (hblw.to_reflTransGen.trans hq)
      have hpath := transGen_of_reconnect hst (hconn.symm.trans _ _ _ (.rel p t hequiv))
      have hsp := ih hps hs
      have hts := belowWithin_card_lt hunwinds hpath
      omega

/-- As many passes as there are properties settle every graph whose properties are direct or unwind.
-/
theorem trimmingSettles_of_unwinds
    (h : ∀ p, Direct equivalent graph.Edge p ∨ Unwinds equivalent graph.Edge p) :
    TrimmingSettles equivalent graph.Edge := by
  refine ⟨graph.edges.length + 1, fun p t hrecon => ?_⟩
  rcases h p with hdir | hunwinds
  · exact hdir.areEquivalent_eq_false hrecon
  · rw [Bool.eq_false_iff]
    intro hequiv
    have hlt := hunwinds.card_add_lt hrecon hequiv
    have hle : (belowWithin equivalent graph p).card ≤ graph.edges.length := by
      classical
      exact (Finset.card_filter_le _ _).trans
        ((List.toFinset_card_le _).trans (List.length_map _).le)
    omega

/-- The check ends on every such dependency graph, whatever the order of the traversals. -/
theorem checkForRegularity_ends (graph : Graph ObjectPropExpr)
    (equivalent : AList fun _ : ObjectPropExpr => List ObjectPropExpr)
    (h : ∀ p, Direct equivalent graph.Edge p ∨ Unwinds equivalent graph.Edge p) :
    ∃ enough result, ∀ fuel, enough ≤ fuel →
      checkForRegularity order fuel graph equivalent = some result := by
  obtain ⟨passes, hset⟩ := trimmingSettles_of_unwinds h
  obtain ⟨trimmed, htrim⟩ := exists_trim order hset 0 (Graph.nodupSuccessors_clone graph)
    fun p t => Graph.edge_clone.mp
  have hcheck : ∀ fuel, passes + 1 ≤ fuel → checkForRegularity order fuel graph equivalent =
      checkForRegularity order (passes + 1) graph equivalent := by
    intro fuel hfuel
    rw [checkForRegularity, checkForRegularity, htrim fuel hfuel,
      htrim (passes + 1) (Nat.lt_succ_self passes)]
  cases hres : checkForRegularity order (passes + 1) graph equivalent with
  | some result => exact ⟨passes + 1, result, fun fuel hfuel => (hcheck fuel hfuel).trans hres⟩
  | none =>
    rw [checkForRegularity, htrim (passes + 1) (Nat.lt_succ_self passes)] at hres
    dsimp only at hres
    split at hres
    · cases hres
    · cases hres

/-- `a ⊑ b ⊑ a`. -/
def mutualInclusions : List Inclusion :=
  [(.objectProperty "a", .objectProperty "b"), (.objectProperty "b", .objectProperty "a")]

/-- `a ∘ x ⊑ b` and `b ∘ y ⊑ a`. -/
def crossChains : List Chain :=
  [([.objectProperty "a", .objectProperty "x"], .objectProperty "b"),
    ([.objectProperty "b", .objectProperty "y"], .objectProperty "a")]

def mutualEquivalent : AList fun _ : ObjectPropExpr => List ObjectPropExpr :=
  findEquivalentProperties (.insertion _) mutualInclusions

def mutualOrdering : Graph ObjectPropExpr :=
  ((buildPropertyOrdering mutualInclusions crossChains mutualEquivalent).toOption).getD .empty

/-- The two properties depend on each other only. -/
theorem direct_mutualOrdering (p : ObjectPropExpr) :
    Direct mutualEquivalent mutualOrdering.Edge p := by
  have hmutual : ∀ e ∈ mutualOrdering.edges, areEquivalent mutualEquivalent e.1 e.2 = true →
      ∀ t ∈ mutualOrdering.getSuccessors e.2, e.1 = t := by decide +kernel
  intro s t hps hequiv hst hne
  exact absurd (hmutual (p, s) (Graph.mem_edges.mpr hps) hequiv t hst) hne

theorem checkForRegularity_ends_mutual :
    (∃ e ∈ mutualOrdering.edges, areEquivalent mutualEquivalent e.1 e.2 = true) ∧
      ∃ enough result, ∀ fuel, enough ≤ fuel →
        checkForRegularity (.insertion _) fuel mutualOrdering mutualEquivalent = some result :=
  ⟨by decide +kernel, checkForRegularity_ends (.insertion _) mutualOrdering mutualEquivalent
    fun p => .inl (direct_mutualOrdering p)⟩

/-- Passes that always go on never end. -/
theorem trim_eq_none {graphs : ℕ → Graph ObjectPropExpr}
    (hpass : ∀ pass, trimPass order equivalent pass (graphs pass) = (graphs (pass + 1), true))
    (fuel pass : ℕ) :
    trim order equivalent fuel pass (graphs pass) = none := by
  induction fuel generalizing pass with
  | zero => rfl
  | succ fuel ih =>
    rw [trim, hpass]
    exact ih (pass + 1)

end trimming

/-! ## Three equivalent properties in a cycle -/

/-- `a ⊑ b ⊑ c ⊑ a`. -/
def equivalenceCycle : List Inclusion :=
  [(.objectProperty "a", .objectProperty "b"), (.objectProperty "b", .objectProperty "c"),
    (.objectProperty "c", .objectProperty "a")]

/-- `a ∘ x ⊑ b`, `b ∘ y ⊑ c` and `c ∘ z ⊑ a`. -/
def chainCycle : List Chain :=
  [([.objectProperty "a", .objectProperty "x"], .objectProperty "b"),
    ([.objectProperty "b", .objectProperty "y"], .objectProperty "c"),
    ([.objectProperty "c", .objectProperty "z"], .objectProperty "a")]

def cycleEquivalent : AList fun _ : ObjectPropExpr => List ObjectPropExpr :=
  findEquivalentProperties (.insertion _) equivalenceCycle

def cycleOrdering : Graph ObjectPropExpr :=
  ((buildPropertyOrdering equivalenceCycle chainCycle cycleEquivalent).toOption).getD .empty

/-- The graph before every pass: the cycle and its reverse in turn. -/
def cyclePasses : ℕ → Graph ObjectPropExpr
  | 0 => cycleOrdering.clone
  | pass + 1 => (trimPass (.insertion _) cycleEquivalent pass (cyclePasses pass)).1

theorem cyclePasses_succ (pass : ℕ) : cyclePasses (pass + 1) =
    (trimPass (.insertion _) cycleEquivalent 0 (cyclePasses pass)).1 := rfl

/-- After the first pass there are two graphs only. -/
theorem cyclePasses_periodic (pass : ℕ) : cyclePasses (pass + 1) = cyclePasses 1 ∨
    cyclePasses (pass + 1) = cyclePasses 2 := by
  have hreturn : cyclePasses 3 = cyclePasses 1 := by decide +kernel
  induction pass with
  | zero => exact .inl rfl
  | succ pass ih =>
    rw [cyclePasses_succ]
    rcases ih with ih | ih
    · rw [ih]
      exact .inr rfl
    · rw [ih]
      exact .inl hreturn

theorem trimPass_cyclePasses (pass : ℕ) : trimPass (.insertion _) cycleEquivalent pass
    (cyclePasses pass) = (cyclePasses (pass + 1), true) := by
  have hgoesOn : (trimPass (.insertion _) cycleEquivalent 0 (cyclePasses pass)).2 = true := by
    cases pass with
    | zero => decide +kernel
    | succ pass =>
      rcases cyclePasses_periodic pass with hpass | hpass
      · rw [hpass]
        decide +kernel
      · rw [hpass]
        decide +kernel
  exact Prod.ext rfl hgoesOn

/-- On three equivalent properties in a cycle of chains the check never ends. -/
theorem checkForRegularity_cycle :
    buildPropertyOrdering equivalenceCycle chainCycle cycleEquivalent = .ok cycleOrdering ∧
      ∀ fuel, checkForRegularity (.insertion _) fuel cycleOrdering cycleEquivalent = none := by
  have hok : (buildPropertyOrdering equivalenceCycle chainCycle cycleEquivalent).toOption.isSome =
    true := by decide +kernel
  constructor
  · unfold cycleOrdering
    cases hordering : buildPropertyOrdering equivalenceCycle chainCycle cycleEquivalent with
    | ok graph => rfl
    | error e =>
      rw [hordering] at hok
      cases hok
  · intro fuel
    have htrim := trim_eq_none (.insertion _) trimPass_cyclePasses fuel 0
    rw [checkForRegularity, show cycleOrdering.clone = cyclePasses 0 from rfl, htrim]

end Hermit
