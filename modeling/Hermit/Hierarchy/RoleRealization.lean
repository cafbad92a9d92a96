import Hermit.Hierarchy.RoleQueries

/-! # Realization of object roles

Realization visits every node once, breadth-first from bottom.  What it tests at a node are the
possible pairs of the node and what the children visited earlier have passed on: for a subject with
a refuted pair, the pair of the subject with itself.  So it finds every true pair if and only if the
pair is known or tested at a node of which it is true, and it leaves a possible pair behind if and
only if a node with a refuted pair has a parent that was visited earlier.
-/

namespace Hermit

open Hierarchy List Worklist

namespace Hierarchy

variable {E : Type*} (h : Hierarchy E)

/-- The nodes in the order in which realization visits them. -/
def visitOrder : Option (List NodeRef) :=
  takeOrder h.parentNodes h.nodes.length [h.bottom] []

def VisitedBefore (c n : NodeRef) : Prop :=
  ∃ earlier later, h.visitOrder = some (earlier ++ n :: later) ∧ c ∈ earlier

variable {h}

theorem WellFormed.exists_visitOrder (wf : h.WellFormed) :
    ∃ order, h.visitOrder = some order ∧ order.Nodup ∧ ∀ n, n ∈ order ↔ n < h.nodes.length := by
  have huniv : ∀ a ∈ Finset.range h.nodes.length, ∀ b ∈ h.parentNodes a,
    b ∈ Finset.range h.nodes.length :=
    fun a _ b hb => Finset.mem_range.mpr (wf.parent_lt hb)
  obtain ⟨order, hrun, hnd, horder, hin, hnext⟩ := exists_takeOrder huniv h.nodes.length
    [h.bottom] [] (by simpa using wf.bottom_lt) (nodup_singleton _) (by simp) nofun
  refine ⟨order, hrun, hnd, fun n =>
      ⟨fun hn => Finset.mem_range.mp (horder n hn).1, fun hn => ?_⟩⟩
  have hpath := wf.above_bottom n hn
  induction hpath with
  | refl => exact hin _ (mem_singleton_self _)
  | tail hpath hp ih =>
    exact (hnext _ (.inr (ih (lt_of_mem_parentNodes hp))) _ hp).resolve_left not_mem_nil

theorem visitedBefore_iff {c n : NodeRef} {earlier later : List NodeRef}
    (horder : h.visitOrder = some (earlier ++ n :: later))
    (hnd : (earlier ++ n :: later).Nodup) : h.VisitedBefore c n ↔ c ∈ earlier := by
  refine ⟨?_, fun hc => ⟨earlier, later, horder, hc⟩⟩
  rintro ⟨earlier', later', horder', hc⟩
  have heq : earlier ++ n :: later = earlier' ++ n :: later' :=
    Option.some.inj (horder.symm.trans horder')
  have hnd' := hnd
  rw [nodup_middle, nodup_cons, mem_append, not_or] at hnd
  rw [heq, nodup_middle, nodup_cons, mem_append, not_or] at hnd'
  obtain ⟨rfl, -, -⟩ := (append_cons_inj_of_notMem hnd.1.1 hnd.1.2).mp heq
  exact hc

end Hierarchy

namespace SeededRoleInstanceManager

variable {E : Type*} {h : Hierarchy E} {isRoleInstance : E → String → String → Bool}
    {m m' : SeededRoleInstanceManager}
  {n k : NodeRef} {x y : String}

/-! ## One node -/

theorem isPossibleAt_addKnown {source target : String} :
    (m.modify n (·.addKnown source target)).isPossibleAt k x y = m.isPossibleAt k x y := by
  unfold isPossibleAt
  rw [element_modify]
  split
  · rename_i hk
    rw [hk, RoleElement.addKnown]
  · rfl

/-- The pass over the successors of a subject. -/
theorem foldl_test (isRoleInstance : E → String → String → Bool) (n : NodeRef) (role : E)
    (individual : String) (successors : List String) (s : SeededRoleInstanceManager × List String) :
    let s' : SeededRoleInstanceManager × List String := successors.foldl (fun s successor =>
      if isRoleInstance role individual successor
        then (s.1.modify n (·.addKnown individual successor), s.2)
      else (s.1, insertSet s.2 individual)) s
    (∀ k x y, s'.1.isKnownAt k x y = true ↔
      s.1.isKnownAt k x y = true ∨ k = n ∧ x = individual ∧ y ∈ successors ∧
        isRoleInstance role individual y = true) ∧
    (∀ k x y, s'.1.isPossibleAt k x y = s.1.isPossibleAt k x y) ∧
    ∀ i, i ∈ s'.2 ↔ i ∈ s.2 ∨ i = individual ∧ ∃ y ∈ successors,
      isRoleInstance role individual y = false := by
  induction successors generalizing s with
  | nil => simp
  | cons successor successors ih =>
    simp only [foldl_cons]
    obtain ⟨hknown, hposs, href⟩ := ih (if isRoleInstance role individual successor then
      (s.1.modify n (·.addKnown individual successor), s.2) else (s.1, insertSet s.2 individual))
    cases htest : isRoleInstance role individual successor with
    | true =>
      simp only [htest, if_true] at hknown hposs href
      refine ⟨fun k x y => ?_, fun k x y => ?_, fun i => ?_⟩
      · simp only [if_true]
        rw [hknown, isKnownAt_addKnown, mem_cons]
        constructor
        · rintro ((hk | ⟨rfl, rfl, rfl⟩) | ⟨hk, hx, hy, hholds⟩)
          · exact .inl hk
          · exact .inr ⟨rfl, rfl, .inl rfl, htest⟩
          · exact .inr ⟨hk, hx, .inr hy, hholds⟩
        · rintro (hk | ⟨hk, hx, rfl | hy, hholds⟩)
          · exact .inl (.inl hk)
          · exact .inl (.inr ⟨hk, hx, rfl⟩)
          · exact .inr ⟨hk, hx, hy, hholds⟩
      · simp only [if_true]
        rw [hposs, isPossibleAt_addKnown]
      · simp only [if_true]
        rw [href]
        simp [htest]
    | false =>
      simp only [htest, Bool.false_eq_true, if_false] at hknown hposs href
      refine ⟨fun k x y => ?_, fun k x y => ?_, fun i => ?_⟩
      · simp only [Bool.false_eq_true, if_false]
        rw [hknown, mem_cons]
        refine or_congr_right (and_congr_right fun _ => and_congr_right fun _ =>
            ⟨fun hy => ⟨.inr hy.1, hy.2⟩, ?_⟩)
        rintro ⟨rfl | hy, hholds⟩
        · rw [htest] at hholds
          cases hholds
        · exact ⟨hy, hholds⟩
      · simp only [Bool.false_eq_true, if_false]
        exact hposs k x y
      · simp only [Bool.false_eq_true, if_false]
        rw [href, mem_insertSet]
        simp only [exists_mem_cons_iff, htest, true_or, and_true]
        tauto

theorem foldl_addPossible (individual : String) (targets : List String) (parents : List NodeRef)
    (m : SeededRoleInstanceManager) :
    let m' := parents.foldl (fun m parent => m.modify parent fun e =>
          targets.foldl (fun e target => e.addPossible individual target) e) m
    (∀ k x y, m'.isKnownAt k x y = m.isKnownAt k x y) ∧
    ∀ k x y, m'.isPossibleAt k x y = true ↔
      m.isPossibleAt k x y = true ∨ k ∈ parents ∧ x = individual ∧ y ∈ targets := by
  have helem : ∀ (targets : List String) (e : RoleElement),
      (targets.foldl (fun e target => e.addPossible individual target) e).knownRelations =
        e.knownRelations ∧
      ∀ x y, (targets.foldl (fun e target => e.addPossible individual target)
        e).possibleRelations.has x y = true ↔
        e.possibleRelations.has x y = true ∨ x = individual ∧ y ∈ targets := by
    intro targets
    induction targets with
    | nil => simp
    | cons target targets ih =>
      intro e
      obtain ⟨hknown, hposs⟩ := ih (e.addPossible individual target)
      refine ⟨hknown, fun x y => ?_⟩
      rw [foldl_cons, hposs, RoleElement.addPossible, Relations.has_add, mem_cons, or_assoc,
        ← and_or_left]
  induction parents generalizing m with
  | nil => simp
  | cons parent parents ih =>
    simp only [foldl_cons]
    obtain ⟨hknown, hposs⟩ := ih
      (m.modify parent fun e => targets.foldl (fun e target => e.addPossible individual target) e)
    refine ⟨fun k x y => ?_, fun k x y => ?_⟩
    · rw [hknown, isKnownAt, isKnownAt, element_modify]
      split
      · rename_i hk
        rw [(helem targets _).1, hk]
      · rfl
    · rw [hposs, isPossibleAt, isPossibleAt, element_modify, mem_cons]
      split
      · rename_i hk
        rw [(helem targets _).2, hk]
        tauto
      · rename_i hk
        simp [hk]

/-- A node takes its possible pairs as known ones if they are true, and passes subjects of false
ones on. -/
structure RealizedAt (h : Hierarchy E) (holds : NodeRef → String → String → Prop) (n : NodeRef)
    (subjects : String → Prop)
    (m m' : SeededRoleInstanceManager) : Prop where
  known : ∀ k x y, m'.isKnownAt k x y = true ↔
    m.isKnownAt k x y = true ∨ k = n ∧ subjects x ∧ m.isPossibleAt n x y = true ∧ holds n x y
  possible : ∀ k x y, m'.isPossibleAt k x y = true ↔ m.isPossibleAt k x y = true ∨
    k ∈ h.parentNodes n ∧ k ≠ h.top ∧ x = y ∧ subjects x ∧ ∃ z,
      m.isPossibleAt n x z = true ∧ ¬ holds n x z

section

variable (isRoleInstance : E → String → String → Bool) (m : SeededRoleInstanceManager)

theorem realizedAt_subject {role : E} (hrole : h.representative n = some role)
    (individual : String) :
    RealizedAt h (h.HasRoleInstance isRoleInstance) n (· = individual) m
      (realizeSubject h isRoleInstance role n m individual) := by
  have hsuccs : ∀ y, y ∈ ((m.element n).possibleRelations.lookup individual).getD [] ↔
      m.isPossibleAt n individual y = true := fun y => Relations.has_iff_mem_getD.symm
  obtain ⟨hknown, hposs, href⟩ := foldl_test isRoleInstance n role individual
    (((m.element n).possibleRelations.lookup individual).getD []) (m, [])
  unfold realizeSubject
  obtain ⟨hknown', hposs'⟩ :=
    foldl_addPossible individual _ ((h.parentNodes n).filter (· ≠ h.top)) _
  refine ⟨fun k x y => ?_, fun k x y => ?_⟩
  · rw [hknown', hknown]
    refine or_congr_right (and_congr_right fun _ => and_congr_right ?_)
    rintro rfl
    rw [hsuccs, hasRoleInstance_iff hrole]
  · rw [hposs', hposs, href, mem_filter, decide_eq_true_iff, or_iff_right not_mem_nil]
    simp only [hsuccs, hasRoleInstance_iff hrole, Bool.not_eq_true]
    refine or_congr_right ⟨?_, ?_⟩
    · rintro ⟨⟨hp, htop⟩, rfl, rfl, hz⟩
      exact ⟨hp, htop, rfl, rfl, hz⟩
    · rintro ⟨hp, htop, rfl, rfl, hz⟩
      exact ⟨⟨hp, htop⟩, rfl, rfl, hz⟩

theorem realizedAt_foldl (wf : h.WellFormed) {role : E} (hrole : h.representative n = some role)
    (subjects : List String) :
    RealizedAt h (h.HasRoleInstance isRoleInstance) n (· ∈ subjects) m
      (subjects.foldl (realizeSubject h isRoleInstance role n) m) := by
  induction subjects generalizing m with
  | nil => exact ⟨by simp, by simp⟩
  | cons subject subjects ih =>
    have hfst := realizedAt_subject isRoleInstance m hrole subject
    have hrest := ih (realizeSubject h isRoleInstance role n m subject)
    -- Nothing is passed to the node itself.
    have hsame : ∀ x y, (realizeSubject h isRoleInstance role n m subject).isPossibleAt n
      x y = true ↔ m.isPossibleAt n x y = true := by
      intro x y
      rw [hfst.possible, or_iff_left]
      exact fun hp => wf.ne_of_mem_parentNodes hp.1 rfl
    refine ⟨fun k x y => ?_, fun k x y => ?_⟩
    · rw [foldl_cons, hrest.known, hfst.known, hsame, mem_cons]
      tauto
    · rw [foldl_cons, hrest.possible, hfst.possible, mem_cons]
      simp only [hsame]
      constructor
      · rintro ((hposs | ⟨hp, htop, hxy, hx, hz⟩) | ⟨hp, htop, hxy, hx, hz⟩)
        · exact .inl hposs
        · exact .inr ⟨hp, htop, hxy, .inl hx, hz⟩
        · exact .inr ⟨hp, htop, hxy, .inr hx, hz⟩
      · rintro (hposs | ⟨hp, htop, hxy, hx | hx, hz⟩)
        · exact .inl (.inl hposs)
        · exact .inl (.inr ⟨hp, htop, hxy, hx, hz⟩)
        · exact .inr ⟨hp, htop, hxy, hx, hz⟩

theorem exists_realizeNode (wf : h.WellFormed) (hn : n < h.nodes.length) :
    ∃ m', m.realizeNode h isRoleInstance n = some m' ∧ (∀ k x y, m'.isKnownAt k x y = true ↔
        m.isKnownAt k x y = true ∨ k = n ∧ m.isPossibleAt n x y = true ∧
        h.HasRoleInstance isRoleInstance n x y) ∧
      ∀ k x y, m'.isPossibleAt k x y = true ↔ k ≠ n ∧ m.isPossibleAt k x y = true ∨
        k ∈ h.parentNodes n ∧ k ≠ h.top ∧ x = y ∧
          ∃ z, m.isPossibleAt n x z = true ∧ ¬ h.HasRoleInstance isRoleInstance n x z := by
  obtain ⟨role, hrole⟩ := exists_representative hn
  rw [realizeNode, hrole, Option.map_some]
  have hkeys : ∀ x y, m.isPossibleAt n x y = true → x ∈ (m.element n).possibleRelations.keys := by
    intro x y hxy
    obtain ⟨targets, hent, -⟩ := Relations.has_iff_mem_entries.mp hxy
    exact mem_map.mpr ⟨_, hent, rfl⟩
  by_cases hemp : (m.element n).possibleRelations.entries = []
  · have hnone : ∀ x y, ¬ m.isPossibleAt n x y = true := by
      intro x y hxy
      obtain ⟨targets, hent, -⟩ := Relations.has_iff_mem_entries.mp hxy
      rw [hemp] at hent
      cases hent
    refine ⟨m, by rw [if_pos hemp], fun k x y => ?_, fun k x y => ?_⟩
    · simp [hnone]
    · constructor
      · intro hk
        refine .inl ⟨?_, hk⟩
        rintro rfl
        exact hnone x y hk
      · rintro (⟨-, hk⟩ | ⟨-, -, -, z, hz, -⟩)
        · exact hk
        · exact absurd hz (hnone x z)
  · rw [if_neg hemp]
    have hpass := realizedAt_foldl isRoleInstance m wf hrole (m.element n).possibleRelations.keys
    refine ⟨_, rfl, fun k x y => ?_, fun k x y => ?_⟩
    · have hclear : ∀ m : SeededRoleInstanceManager,
          (m.modifyIfPresent n fun e => { e with possibleRelations := ∅ }).isKnownAt k x y =
            m.isKnownAt k x y := by
        intro m
        unfold isKnownAt
        rcases element_modifyIfPresent (m := m) (n := n) (k :=
          k) (fun e => { e with possibleRelations := ∅ }) with he | ⟨-, he⟩
        · rw [he]
        · rw [he]
      rw [hclear, hpass.known]
      refine or_congr_right (and_congr_right fun _ => and_iff_right_of_imp fun hxy =>
          hkeys x y hxy.1)
    · have hclear : ∀ m : SeededRoleInstanceManager,
          (m.modifyIfPresent n fun e => { e with possibleRelations := ∅ }).isPossibleAt k
            x y = true ↔
            k ≠ n ∧ m.isPossibleAt k x y = true := by
        intro m
        unfold isPossibleAt modifyIfPresent
        by_cases hk : k = n
        · subst hk
          cases hlook : m.nodeToElement.lookup k with
          | none => simp [element, hlook, RoleElement.empty, Relations.has_empty]
          | some e => simp [element, Relations.has_empty]
        · cases hlook : m.nodeToElement.lookup n with
          | none => simp [hk]
          | some e => simp [element, hk, AList.lookup_insert_ne hk]
      rw [hclear, hpass.possible]
      constructor
      · rintro ⟨hk, hposs | ⟨hp, htop, hxy, -, hz⟩⟩
        · exact .inl ⟨hk, hposs⟩
        · exact .inr ⟨hp, htop, hxy, hz⟩
      · rintro (⟨hk, hposs⟩ | ⟨hp, htop, hxy, z, hz⟩)
        · exact ⟨hk, .inl hposs⟩
        · exact ⟨(wf.ne_of_mem_parentNodes hp).symm, .inr ⟨hp, htop, hxy, hkeys x z hz.1, z, hz⟩⟩

end

/-! ## The whole run -/

theorem realizeLoop_eq (fuel : ℕ) (queue visited : List NodeRef) (m : SeededRoleInstanceManager) :
    realizeLoop h isRoleInstance fuel queue visited m =
    (takeOrder h.parentNodes fuel queue visited).bind
      fun order => order.foldlM (fun m n => m.realizeNode h isRoleInstance n) m := by
  induction fuel generalizing queue visited m with
  | zero =>
    cases queue with
    | nil => rfl
    | cons current queue => rfl
  | succ fuel ih =>
    cases queue with
    | nil => rfl
    | cons current queue =>
      rw [realizeLoop, takeOrder]
      split
      · exact ih queue visited m
      · rw [Option.bind_map]
        have hrest := fun m' => ih (enqueueFresh (current :: visited)
          (h.parentNodes current) queue) (current :: visited) m'
        simp only [Function.comp_def, foldlM_cons]
        cases m.realizeNode h isRoleInstance current with
        | none =>
          cases takeOrder h.parentNodes fuel
            (enqueueFresh (current :: visited) (h.parentNodes current) queue)
              (current :: visited) with
          | none => rfl
          | some order => rfl
        | some m' => exact hrest m'

section run

variable (h isRoleInstance m)

/-- What is tested at a node: its possible pairs, and for a subject with a refuted pair at a child
that is visited earlier the pair of the subject with itself. -/
inductive Candidate : NodeRef → String → String → Prop
  | initial {n : NodeRef} {x y : String} : m.isPossibleAt n x y = true → Candidate n x y
  | passed {c n : NodeRef} {x y : String} : Candidate c x y →
    ¬ h.HasRoleInstance isRoleInstance c x y →
    n ∈ h.parentNodes c → n ≠ h.top → h.VisitedBefore c n → Candidate n x x

def Refuted (n : NodeRef) (x : String) : Prop :=
  ∃ y, Candidate h isRoleInstance m n x y ∧ ¬ h.HasRoleInstance isRoleInstance n x y

/-- The store after some nodes: a subject that was passed on is still there unless its node came
later. -/
structure RealizedUpTo (visited : List NodeRef) (m' : SeededRoleInstanceManager) : Prop where
  known : ∀ k x y, m'.isKnownAt k x y = true ↔ m.isKnownAt k x y = true ∨
    k ∈ visited ∧ Candidate h isRoleInstance m k x y ∧ h.HasRoleInstance isRoleInstance k x y
  possible : ∀ k x y, m'.isPossibleAt k x y = true ↔ k ∉ visited ∧ m.isPossibleAt k x y = true ∨
    k ≠ h.top ∧ x = y ∧ ∃ c ∈ visited, k ∈ h.parentNodes c ∧ Refuted h isRoleInstance m c x ∧
      ¬ (k ∈ visited ∧ h.VisitedBefore c k)

variable {h isRoleInstance m}

theorem candidate_iff : Candidate h isRoleInstance m n x y ↔ m.isPossibleAt n x y = true ∨
    n ≠ h.top ∧ x = y ∧ ∃ c, h.VisitedBefore c n ∧ n ∈ h.parentNodes c ∧
    Refuted h isRoleInstance m c x := by
  constructor
  · intro hcand
    cases hcand with
    | initial hposs => exact .inl hposs
    | passed hc href hp htop hbef => exact .inr ⟨htop, rfl, _, hbef, hp, _, hc, href⟩
  · rintro (hposs | ⟨htop, rfl, c, hbef, hp, z, hc, href⟩)
    · exact .initial hposs
    · exact .passed hc href hp htop hbef

theorem RealizedUpTo.step (wf : h.WellFormed) {visited later : List NodeRef}
    (horder : h.visitOrder = some (visited ++ n :: later)) (hnd : (visited ++ n :: later).Nodup)
    (hinv : RealizedUpTo h isRoleInstance m visited m') (hn : n < h.nodes.length) :
    ∃ m'', m'.realizeNode h isRoleInstance n = some m'' ∧
    RealizedUpTo h isRoleInstance m (visited ++ [n]) m'' := by
  obtain ⟨m'', hrun, hknown, hposs⟩ := exists_realizeNode isRoleInstance m' wf hn
  have hbef : ∀ c, h.VisitedBefore c n ↔ c ∈ visited := fun c => visitedBefore_iff horder hnd
  have hnew : n ∉ visited := by
    intro hmem
    rw [nodup_middle, nodup_cons] at hnd
    exact hnd.1 (mem_append_left _ hmem)
  have hcandidates : ∀ x y, m'.isPossibleAt n x y = true ↔ Candidate h isRoleInstance m n x y := by
    intro x y
    rw [hinv.possible, candidate_iff]
    simp only [hnew, not_false_iff, true_and, false_and, and_true, hbef]
  have href : ∀ x, (∃ z, m'.isPossibleAt n x z = true ∧ ¬ h.HasRoleInstance isRoleInstance n x z) ↔
      Refuted h isRoleInstance m n x := by
    intro x
    simp only [hcandidates]
    exact Iff.rfl
  -- The node comes after all that were visited.
  have hafter : ∀ k ∈ visited, ¬ h.VisitedBefore n k := by
    intro k hk hnk
    obtain ⟨earlier, between, rfl⟩ := append_of_mem hk
    rw [append_assoc, cons_append] at horder hnd
    have hmem := (visitedBefore_iff horder hnd).mp hnk
    exact hnew (mem_append_left _ hmem)
  refine ⟨m'', hrun, fun k x y => ?_, fun k x y => ?_⟩
  · rw [hknown, hinv.known, hcandidates, mem_append, mem_singleton]
    constructor
    · rintro ((hk | hk) | ⟨rfl, hk⟩)
      · exact .inl hk
      · exact .inr ⟨.inl hk.1, hk.2⟩
      · exact .inr ⟨.inr rfl, hk⟩
    · rintro (hk | ⟨hk | rfl, hcand⟩)
      · exact .inl (.inl hk)
      · exact .inl (.inr ⟨hk, hcand⟩)
      · exact .inr ⟨rfl, hcand⟩
  · rw [hposs, href, hinv.possible]
    simp only [mem_append, mem_singleton]
    constructor
    · rintro (⟨hk, ⟨hvis, hinit⟩ | ⟨htop, hxy, c, hc, hp, hr, hleft⟩⟩ | ⟨hp, htop, hxy, hr⟩)
      · exact .inl ⟨not_or.mpr ⟨hvis, hk⟩, hinit⟩
      · exact .inr ⟨htop, hxy, c, .inl hc, hp, hr, fun hdone =>
          hleft ⟨hdone.1.resolve_right hk, hdone.2⟩⟩
      · refine .inr ⟨htop, hxy, n, .inr rfl, hp, hr, ?_⟩
        rintro ⟨hk | rfl, hnk⟩
        · exact hafter k hk hnk
        · exact hnew ((hbef _).mp hnk)
    · rintro (⟨hk, hinit⟩ | ⟨htop, hxy, c, hc | rfl, hp, hr, hleft⟩)
      · obtain ⟨hvis, hk⟩ := not_or.mp hk
        exact .inl ⟨hk, .inl ⟨hvis, hinit⟩⟩
      · refine .inl ⟨?_, .inr ⟨htop, hxy, c, hc, hp, hr, fun hdone =>
          hleft ⟨.inl hdone.1, hdone.2⟩⟩⟩
        rintro rfl
        exact hleft ⟨.inr rfl, (hbef c).mpr hc⟩
      · exact .inr ⟨hp, htop, hxy, hr⟩

theorem RealizedUpTo.run (wf : h.WellFormed) {visited : List NodeRef} (later : List NodeRef)
    (horder : h.visitOrder = some (visited ++ later)) (hnd : (visited ++ later).Nodup)
    (hinv : RealizedUpTo h isRoleInstance m visited m') (hlater : ∀ n ∈ later, n < h.nodes.length) :
    ∃ m'', later.foldlM (fun m n => m.realizeNode h isRoleInstance n) m' = some m'' ∧
      RealizedUpTo h isRoleInstance m (visited ++ later) m'' := by
  induction later generalizing visited m' with
  | nil =>
    rw [append_nil]
    exact ⟨m', rfl, hinv⟩
  | cons n later ih =>
    obtain ⟨m₁, hnode, hinv₁⟩ := hinv.step wf horder hnd (hlater n mem_cons_self)
    have happ : visited ++ n :: later = (visited ++ [n]) ++ later := by simp
    rw [happ] at horder hnd ⊢
    obtain ⟨m'', hrun, hinv'⟩ := ih horder hnd hinv₁ fun n hn => hlater n (mem_cons_of_mem _ hn)
    refine ⟨m'', ?_, hinv'⟩
    rw [foldlM_cons, hnode]
    exact hrun

end run

/-! ## What realization achieves -/

section result

variable (h : Hierarchy E) (isRoleInstance : E → String → String → Bool)
    (m : SeededRoleInstanceManager)

/-- Nothing is possible any more, every true pair of a node other than top is known at or below it,
and only true pairs are known. -/
structure Realized : Prop where
  settled : ∀ n < h.nodes.length, ∀ x y, ¬ m.isPossibleAt n x y = true
  complete : ∀ n, n ≠ h.top → ∀ x y, h.HasRoleInstance isRoleInstance n x y → ∃ d,
    h.Ancestor d n ∧ m.isKnownAt d x y = true
  sound : Sound (h.HasRoleInstance isRoleInstance) m

/-- When realization does its work: possible pairs are flagged, a node with a refuted pair comes
before its parents, and every true pair is known or tested at a node of which it is true. -/
structure Realizable : Prop where
  flagged : m.readingOffFoundPossible = false → ∀ n < h.nodes.length, ∀ x y,
    ¬ m.isPossibleAt n x y = true
  upward : ∀ n x, Refuted h isRoleInstance m n x → ∀ p ∈ h.parentNodes n, p ≠ h.top →
    h.VisitedBefore n p
  tested : ∀ n, n ≠ h.top → ∀ x y, h.HasRoleInstance isRoleInstance n x y → ∃ d, h.Ancestor d n ∧
    (m.isKnownAt d x y = true ∨ Candidate h isRoleInstance m d x y ∧
      h.HasRoleInstance isRoleInstance d x y)
  sound : Sound (h.HasRoleInstance isRoleInstance) m

variable {h isRoleInstance m}

section

variable (hnone : ∀ n < h.nodes.length, ∀ x y, ¬ m.isPossibleAt n x y = true)
include hnone

/-- Nothing is tested when nothing is possible. -/
theorem not_candidate (hn : n < h.nodes.length) : ¬ Candidate h isRoleInstance m n x y := by
  intro hcand
  induction hcand with
  | initial hposs => exact hnone _ hn _ _ hposs
  | passed _ _ hp _ _ ih => exact ih (lt_of_mem_parentNodes hp)

theorem realized_iff_of_settled : Realized h isRoleInstance m ↔ Realizable h isRoleInstance m := by
  constructor
  · intro hreal
    refine ⟨fun _ => hnone, ?_, fun n htop x y hholds => ?_, hreal.sound⟩
    · rintro n x ⟨y, hcand, -⟩ p hp
      exact absurd hcand (not_candidate hnone (lt_of_mem_parentNodes hp))
    · obtain ⟨d, hdn, hknown⟩ := hreal.complete n htop x y hholds
      exact ⟨d, hdn, .inl hknown⟩
  · intro hrlz
    refine ⟨hnone, fun n htop x y hholds => ?_, hrlz.sound⟩
    obtain ⟨d, hdn, hknown | ⟨hcand, hd⟩⟩ := hrlz.tested n htop x y hholds
    · exact ⟨d, hdn, hknown⟩
    · exact absurd hcand (not_candidate hnone hd.lt)

end

theorem RealizedUpTo.realized_iff {order : List NodeRef}
    (hmem : ∀ n, n ∈ order ↔ n < h.nodes.length)
    (hflag : m.readingOffFoundPossible = true) (hwf : h.WellFormed)
    (hinv : RealizedUpTo h isRoleInstance m order m') :
    Realized h isRoleInstance m' ↔ Realizable h isRoleInstance m := by
  constructor
  · intro hreal
    refine ⟨fun hno => absurd (hflag.symm.trans hno) (by decide), fun n x href p hp htop => ?_,
      fun n htop x y hholds => ?_, fun n x y hknown => ?_⟩
    · by_contra hbef
      refine hreal.settled p (hwf.parent_lt hp) x x
        ((hinv.possible p x x).mpr (.inr ⟨htop, rfl, n, ?_, hp, href, ?_⟩))
      · exact (hmem n).mpr (lt_of_mem_parentNodes hp)
      · exact fun hdone => hbef hdone.2
    · obtain ⟨d, hdn, hknown⟩ := hreal.complete n htop x y hholds
      exact ⟨d, hdn, ((hinv.known d x y).mp hknown).imp_right And.right⟩
    · exact hreal.sound n x y ((hinv.known n x y).mpr (.inl hknown))
  · intro hrlz
    refine ⟨fun n hn x y hposs => ?_, fun n htop x y hholds => ?_, fun n x y hknown => ?_⟩
    · rcases (hinv.possible n x y).mp hposs
        with ⟨hvis, -⟩ | ⟨htop, -, c, -, hp, href, hleft⟩
      · exact hvis ((hmem n).mpr hn)
      · exact hleft ⟨(hmem n).mpr hn, hrlz.upward c x href n hp htop⟩
    · obtain ⟨d, hdn, htested⟩ := hrlz.tested n htop x y hholds
      exact ⟨d, hdn, (hinv.known d x y).mpr (htested.imp_right fun hd =>
          ⟨(hmem d).mpr hd.2.lt, hd⟩)⟩
    · rcases (hinv.known n x y).mp hknown with hknown | ⟨-, -, hholds⟩
      · exact hrlz.sound n x y hknown
      · exact hholds

end result

/-- Realization ends, and settles all pairs rightly if and only if the store and the order of the
visits allow it. -/
theorem realizeObjectRoles_iff {E : Type*} (h : Hierarchy E)
    (isRoleInstance : E → String → String → Bool)
    (hc : h.ClassifiesRoles isRoleInstance) (m : SeededRoleInstanceManager) :
    ∃ m', m.realizeObjectRoles h isRoleInstance = some m' ∧
      (Realized h isRoleInstance m' ↔ Realizable h isRoleInstance m) := by
  have wf := hc.wellFormed
  unfold realizeObjectRoles
  cases hflag : m.readingOffFoundPossible with
  | false =>
    refine ⟨m, rfl, ⟨fun hreal => (realized_iff_of_settled hreal.settled).mp hreal, fun hrlz => ?_⟩⟩
    exact (realized_iff_of_settled (hrlz.flagged hflag)).mpr hrlz
  | true =>
    obtain ⟨order, horder, hnd, hmem⟩ := wf.exists_visitOrder
    have hst : RealizedUpTo h isRoleInstance m [] m := ⟨by simp, by simp⟩
    obtain ⟨m', hrun, hinv⟩ :=
      hst.run wf order (show h.visitOrder = some ([] ++ order) from horder) hnd
      fun n hn => (hmem n).mp hn
    refine ⟨{ m' with readingOffFoundPossible := false }, ?_, ?_⟩
    · rw [realizeLoop_eq, show takeOrder h.parentNodes h.nodes.length [h.bottom] [] =
          some order from horder,
        Option.bind_some, hrun]
      rfl
    · have hinv' : RealizedUpTo h isRoleInstance m order
        { m' with readingOffFoundPossible := false } :=
        ⟨hinv.known, hinv.possible⟩
      exact hinv'.realized_iff hmem hflag wf

/-- The pair is possible at `s`, of which it is true. -/
theorem realizeObjectRoles_iff_possibleAtS : twoRoles.ClassifiesRoles isPairOfS ∧
      ∃ m', (new.addPossibleRoleInstance twoRoles 3 "a" "b").realizeObjectRoles twoRoles
      isPairOfS = some m' ∧ Realized twoRoles isPairOfS m' := by
  obtain ⟨m', hrun, hiff⟩ := realizeObjectRoles_iff twoRoles isPairOfS classifiesRoles_twoRoles
    (new.addPossibleRoleInstance twoRoles 3 "a" "b")
  refine ⟨classifiesRoles_twoRoles, m', hrun, hiff.mpr ?_⟩
  have hposs : ∀ n x y, (new.addPossibleRoleInstance twoRoles 3 "a" "b").isPossibleAt n
    x y = true ↔
      n = 3 ∧ x = "a" ∧ y = "b" := by
    intro n x y
    have hadd : (new.addPossibleRoleInstance twoRoles 3 "a" "b").isPossibleAt n x y =
        (new.modify 3 (·.addPossible "a" "b")).isPossibleAt n x y := rfl
    rw [hadd, isPossibleAt_addPossible]
    exact or_iff_right nofun
  have htrue : twoRoles.HasRoleInstance isPairOfS 3 "a" "b" := ⟨"s", rfl, rfl⟩
  have hcand : ∀ n x y, Candidate twoRoles isPairOfS
    (new.addPossibleRoleInstance twoRoles 3 "a" "b") n x y →
      twoRoles.HasRoleInstance isPairOfS n x y := by
    intro n x y hcand
    induction hcand with
    | initial hn =>
      obtain ⟨rfl, rfl, rfl⟩ := (hposs _ _ _).mp hn
      exact htrue
    | passed _ href _ _ _ ih => exact absurd ih href
  refine ⟨fun hflag => absurd hflag (by decide), ?_, ?_, ?_⟩
  · rintro n x ⟨y, hn, href⟩
    exact absurd (hcand n x y hn) href
  · intro n htop x y hholds
    rcases hasRoleInstance_twoRoles hholds with rfl | ⟨rfl, rfl, rfl⟩
    · exact absurd rfl htop
    · exact ⟨3, .refl, .inr ⟨.initial ((hposs _ _ _).mpr ⟨rfl, rfl, rfl⟩), htrue⟩⟩
  · intro n x y hknown
    have hnone : (new.addPossibleRoleInstance twoRoles 3 "a" "b").isKnownAt n x y =
        (new.modify 3 (·.addPossible "a" "b")).isKnownAt n x y := rfl
    rw [hnone, isKnownAt_addPossible] at hknown
    cases hknown

/-- The pair is possible at `r`, which passes on another one. -/
theorem realizeObjectRoles_loses_pair : twoRoles.ClassifiesRoles isPairOfS ∧
      (∀ n, n ≠ twoRoles.top → ∀ x y, twoRoles.HasRoleInstance isPairOfS n x y → ∃ d,
        twoRoles.Ancestor d n ∧
        ((new.addPossibleRoleInstance twoRoles 2 "a" "b").isKnownAt d x y = true ∨
          (new.addPossibleRoleInstance twoRoles 2 "a" "b").isPossibleAt d x y = true)) ∧
      ∃ m', (new.addPossibleRoleInstance twoRoles 2 "a" "b").realizeObjectRoles twoRoles
      isPairOfS = some m' ∧ ¬ Realized twoRoles isPairOfS m' := by
  refine ⟨classifiesRoles_twoRoles, fun n htop x y hholds => ?_, _, rfl, fun hreal => ?_⟩
  · rcases hasRoleInstance_twoRoles hholds with rfl | ⟨rfl, rfl, rfl⟩
    · exact absurd rfl htop
    · exact ⟨2, .single (show 3 ∈ twoRoles.parentNodes 2 by decide), .inr (by decide)⟩
  · obtain ⟨d, hd, hknown⟩ := hreal.complete 3 (by decide) "a" "b" ⟨"s", rfl, rfl⟩
    have hnodes : ∀ n < twoRoles.nodes.length, n = 0 ∨ n = 1 ∨ n = 2 ∨ n = 3 := by decide
    rcases hnodes d (hd.lt (by decide)) with rfl | rfl | rfl | rfl
    all_goals exact absurd hknown (by decide)

end SeededRoleInstanceManager

end Hermit
