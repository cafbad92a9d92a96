import Hermit.Hierarchy.InstanceManager

/-! # Individuals that are the same

The merges of a model list pairs of individuals that are the same, or possibly the same.  The class
of an individual grows along possible pairs that a test confirms.  It ends up as what the true ones
among the listed pairs link, so an individual that is linked through a refuted one only is missed.
-/

namespace Hermit

open List

namespace SeededClassInstanceManager

variable (m : SeededClassInstanceManager)

def sameAsIndividuals (individual : String) : List String :=
  (m.individualToEquivalenceClass.lookup individual).getD [individual]

def isSameIndividual (a b : String) : Bool := a = b ∨ b ∈ m.sameAsIndividuals a

def recordClass (members : List String) : SeededClassInstanceManager :=
  { m with
    individualToEquivalenceClass :=
      members.foldl (fun classes member => classes.insert member members)
        m.individualToEquivalenceClass }

def unionSameAs (a b : String) : SeededClassInstanceManager :=
  let classA := m.sameAsIndividuals a
  let classB := m.sameAsIndividuals b
  if classA = classB then m else m.recordClass (sortDedup (· ≤ ·) (classB.foldl insertSet classA))

/-- Every individual is in a class of its own unless it has one. -/
def seedIndividual (m : SeededClassInstanceManager) (individual : String) :
    SeededClassInstanceManager :=
  match m.individualToEquivalenceClass.lookup individual with
  | none =>
    { m with
      individualToEquivalenceClass :=
        m.individualToEquivalenceClass.insert individual [individual] }
  | some _ => m

def seedDefinite (m : SeededClassInstanceManager) (pair : String × String × Bool) :
    SeededClassInstanceManager :=
  if pair.2.2 then m.unionSameAs pair.1 pair.2.1 else m

def seedPossible (m : SeededClassInstanceManager) (pair : String × String × Bool) :
    SeededClassInstanceManager :=
  if !pair.2.2 && !m.isSameIndividual pair.1 pair.2.1 then
    { m with possibleEquivalencePairs := m.possibleEquivalencePairs ++ [(pair.1, pair.2.1)] }
  else m

def seedSameAs (individuals : List String) (sameAsPairs : List (String × String × Bool)) :
    SeededClassInstanceManager :=
  sameAsPairs.foldl seedPossible
    (sameAsPairs.foldl seedDefinite (individuals.foldl seedIndividual m))

/-- The class so far, and the pairs that may still extend it. -/
structure Confirmation where
  pairs : List (String × String)
  members : List String
  traversal : ℕ

/-- The other end of a pair with one end in the class. -/
def otherEnd (members : List String) (pair : String × String) : Option String :=
  if pair.1 ∈ members then (if pair.2 ∈ members then none else some pair.2)
  else if pair.2 ∈ members then some pair.1 else none

def Confirmation.candidate (c : Confirmation) : Option String :=
  c.pairs.findSome? (otherEnd c.members)

/-- Whether a pair links the class to the candidate. -/
def linksTo (members : List String) (candidate : String) (pair : String × String) : Bool :=
  (pair.1 ∈ members ∧ pair.2 = candidate) ∨ (pair.2 ∈ members ∧ pair.1 = candidate)

/-- Test a candidate against some member of the class.  A failed test ends the loop. -/
def confirmCandidate (order : HashOrder String) (isSame : String → String → Option Bool)
    (individual : String)
    (c : Confirmation) : Option Confirmation := do
  let candidate ← c.candidate
  let anchor := (order.arrange c.traversal c.members).head?.getD individual
  let c := { c with traversal := c.traversal + 1 }
  if ← isSame anchor candidate then
    return { c with
      members := insertSet ((m.sameAsIndividuals candidate).foldl insertSet c.members) candidate }
  else
    return { c with pairs := c.pairs.filter fun pair => !linksTo c.members candidate pair }

def getSameAsIndividuals (order : HashOrder String)
    (isSame : String → String → Option Bool) (fuel : ℕ)
    (individual : String) : Option (List String × SeededClassInstanceManager) := do
  let start : Confirmation :=
    ⟨m.possibleEquivalencePairs, insertSet (m.sameAsIndividuals individual) individual, 0⟩
  let c ← loopWhile (fun c => c.candidate.isSome)
    (m.confirmCandidate order isSame individual) fuel start
  let members := sortDedup (· ≤ ·) (order.arrange c.traversal c.members)
  return (members, { m with possibleEquivalencePairs := c.pairs }.recordClass members)

/-! ## Classes -/

variable {m} {r : String → String → Prop} {sameAsPairs : List (String × String × Bool)}

/-- The listed pairs that are true link two individuals. -/
def Linked (r : String → String → Prop) (sameAsPairs : List (String × String × Bool)) : String →
    String → Prop :=
  Relation.EqvGen fun a b => r a b ∧ ∃ definite, (a, b, definite) ∈ sameAsPairs

theorem Linked.same (hr : Equivalence r) {a b : String} (h : Linked r sameAsPairs a b) : r a b := by
  induction h with
  | rel a b h => exact h.1
  | refl a => exact hr.refl a
  | symm a b _ ih => exact hr.symm ih
  | trans a b c _ _ ihab ihbc => exact hr.trans ihab ihbc

/-- The recorded classes are disjoint, and their members are linked. -/
structure Classes (r : String → String → Prop) (sameAsPairs : List (String × String × Bool))
    (m : SeededClassInstanceManager) : Prop where
  self : ∀ x, x ∈ m.sameAsIndividuals x
  block : ∀ x y, y ∈ m.sameAsIndividuals x → ∀ z, z ∈ m.sameAsIndividuals y ↔
    z ∈ m.sameAsIndividuals x
  linked : ∀ x y, y ∈ m.sameAsIndividuals x → Linked r sameAsPairs x y

theorem sameAsIndividuals_recordClass (members : List String) (x : String) :
    (m.recordClass members).sameAsIndividuals x =
    if x ∈ members then members else m.sameAsIndividuals x := by
  have hlook : ∀ (names : List String) (classes : AList fun _ : String => List String),
      ((names.foldl (fun classes member => classes.insert member members) classes).lookup
        x).getD [x] =
        if x ∈ names then members else (classes.lookup x).getD [x] := by
    intro names
    induction names with
    | nil => exact fun classes => rfl
    | cons name names ih =>
      intro classes
      rw [foldl_cons, ih]
      by_cases hname : x = name
      · subst hname
        simp
      · by_cases hnames : x ∈ names <;> simp [hname, hnames]
  exact hlook members _

variable {members : List String}

/-- Recording a union of classes whose members are linked. -/
theorem Classes.recordClass (h : Classes r sameAsPairs m)
    (hcl : ∀ x ∈ members, ∀ z ∈ m.sameAsIndividuals x, z ∈ members)
    (hlink : ∀ x ∈ members, ∀ z ∈ members, Linked r sameAsPairs x z) :
    Classes r sameAsPairs (m.recordClass members) := by
  have hmem : ∀ x z, z ∈ (m.recordClass members).sameAsIndividuals x ↔
      if x ∈ members then z ∈ members else z ∈ m.sameAsIndividuals x := by
    intro x z
    rw [sameAsIndividuals_recordClass]
    split <;> rfl
  have houtside : ∀ x, x ∉ members → ∀ z ∈ m.sameAsIndividuals x, z ∉ members := by
    intro x hx z hz hzm
    exact hx (hcl z hzm x ((h.block x z hz x).mpr (h.self x)))
  refine ⟨fun x => ?_, fun x y hy z => ?_, fun x y hy => ?_⟩
  · rw [hmem]
    split
    · assumption
    · exact h.self x
  · rw [hmem] at hy
    rw [hmem, hmem]
    by_cases hx : x ∈ members
    · rw [if_pos hx] at hy
      rw [if_pos hx, if_pos hy]
    · rw [if_neg hx] at hy
      rw [if_neg hx, if_neg (houtside x hx y hy)]
      exact h.block x y hy z
  · rw [hmem] at hy
    by_cases hx : x ∈ members
    · rw [if_pos hx] at hy
      exact hlink x hx y hy
    · rw [if_neg hx] at hy
      exact h.linked x y hy

theorem Classes.unionSameAs (h : Classes r sameAsPairs m) {a b : String}
    (hab : Linked r sameAsPairs a b) :
    Classes r sameAsPairs (m.unionSameAs a b) ∧ b ∈ (m.unionSameAs a b).sameAsIndividuals a ∧
      ∀ x y, y ∈ m.sameAsIndividuals x → y ∈ (m.unionSameAs a b).sameAsIndividuals x := by
  unfold SeededClassInstanceManager.unionSameAs
  dsimp only
  split
  · rename_i heq
    refine ⟨h, ?_, fun _ _ hy => hy⟩
    rw [heq]
    exact h.self b
  · set merged :=
      sortDedup (· ≤ ·) ((m.sameAsIndividuals b).foldl insertSet (m.sameAsIndividuals a)) with hmg
    have hmem : ∀ x, x ∈ merged ↔ x ∈ m.sameAsIndividuals a ∨ x ∈ m.sameAsIndividuals b := by
      intro x
      rw [hmg, mem_sortDedup, mem_foldl_insertSet]
    have hfromA : ∀ x ∈ merged, Linked r sameAsPairs a x := by
      intro x hx
      rcases (hmem x).mp hx with hx | hx
      · exact h.linked a x hx
      · exact hab.trans _ _ _ (h.linked b x hx)
    have hcl : ∀ x ∈ merged, ∀ z ∈ m.sameAsIndividuals x, z ∈ merged := by
      intro x hx z hz
      rw [hmem]
      exact ((hmem x).mp hx).imp (fun hx => (h.block a x hx z).mp hz) fun hx =>
        (h.block b x hx z).mp hz
    refine ⟨h.recordClass hcl fun x hx z hz =>
      ((hfromA x hx).symm _ _).trans _ _ _ (hfromA z hz), ?_,
      fun x y hy => ?_⟩
    · rw [sameAsIndividuals_recordClass, if_pos ((hmem a).mpr (.inl (h.self a)))]
      exact (hmem b).mpr (.inr (h.self b))
    · rw [sameAsIndividuals_recordClass]
      split
      · rename_i hx
        exact hcl x hx y hy
      · exact hy

/-- The true listed pairs are either in a class or may still be confirmed. -/
structure Seeded (r : String → String → Prop) (sameAsPairs : List (String × String × Bool))
    (m : SeededClassInstanceManager) : Prop where
  classes : Classes r sameAsPairs m
  listed : ∀ pair ∈ m.possibleEquivalencePairs, ∃ definite, (pair.1, pair.2, definite) ∈ sameAsPairs
  covered : ∀ a b definite, (a, b, definite) ∈ sameAsPairs → r a b →
    (a, b) ∈ m.possibleEquivalencePairs ∨ b ∈ m.sameAsIndividuals a

theorem classes_seedIndividuals (individuals : List String) :
    Classes r sameAsPairs (individuals.foldl seedIndividual new) := by
  have hfold : ∀ (names : List String) (m : SeededClassInstanceManager),
      (∀ x, m.sameAsIndividuals x = [x]) → ∀ x,
        (names.foldl seedIndividual m).sameAsIndividuals x = [x] := by
    intro names
    induction names with
    | nil => exact fun m hm => hm
    | cons name names ih =>
      intro m hm
      refine ih _ fun x => ?_
      unfold seedIndividual
      split
      · by_cases hx : x = name
        · subst hx
          simp [sameAsIndividuals]
        · have hsame := hm x
          simpa [sameAsIndividuals, hx] using hsame
      · exact hm x
  have hself := hfold individuals new fun x => rfl
  refine ⟨fun x => ?_, fun x y hy z => ?_, fun x y hy => ?_⟩
  · rw [hself]
    exact mem_singleton_self x
  · rw [hself, mem_singleton] at hy
    rw [hy]
  · rw [hself, mem_singleton] at hy
    rw [hy]
    exact .refl x

section

variable (hdef : ∀ a b, (a, b, true) ∈ sameAsPairs → r a b)
include hdef

/-- After the definite pairs. -/
theorem classes_seedDefinite (h : Classes r sameAsPairs m)
    (hposs : m.possibleEquivalencePairs = []) :
    let m' := sameAsPairs.foldl seedDefinite m
    Classes r sameAsPairs m' ∧ m'.possibleEquivalencePairs = [] ∧
      ∀ a b, (a, b, true) ∈ sameAsPairs → b ∈ m'.sameAsIndividuals a := by
  have hfold : ∀ (pairs : List (String × String × Bool)), pairs ⊆ sameAsPairs → ∀ m,
      Classes r sameAsPairs m → m.possibleEquivalencePairs = [] →
      let m' := pairs.foldl seedDefinite m
      Classes r sameAsPairs m' ∧ m'.possibleEquivalencePairs = [] ∧
        (∀ x y, y ∈ m.sameAsIndividuals x → y ∈ m'.sameAsIndividuals x) ∧
        ∀ a b, (a, b, true) ∈ pairs → b ∈ m'.sameAsIndividuals a := by
    intro pairs
    induction pairs with
    | nil => exact fun _ m hm hp => ⟨hm, hp, fun _ _ h => h, nofun⟩
    | cons pair pairs ih =>
      intro hsub m hm hp
      rw [cons_subset] at hsub
      obtain ⟨a, b, definite⟩ := pair
      rw [foldl_cons]
      cases definite with
      | false =>
        obtain ⟨hcls, hnone, hmono, hjoin⟩ := ih hsub.2 m hm hp
        refine ⟨hcls, hnone, hmono, fun a' b' hab => ?_⟩
        rcases mem_cons.mp hab with heq | hab
        · cases heq
        · exact hjoin a' b' hab
      | true =>
        have hrel : Linked r sameAsPairs a b := .rel _ _ ⟨hdef a b hsub.1, true, hsub.1⟩
        obtain ⟨hunion, hb, hgrow⟩ := hm.unionSameAs hrel
        have hnone : (m.unionSameAs a b).possibleEquivalencePairs = [] := by
          unfold SeededClassInstanceManager.unionSameAs
          dsimp only
          split <;> exact hp
        obtain ⟨hcls, hnone', hmono, hjoin⟩ := ih hsub.2 _ hunion hnone
        refine ⟨hcls, hnone', fun x y hy => hmono x y (hgrow x y hy), fun a' b' hab => ?_⟩
        rcases mem_cons.mp hab with heq | hab
        · cases heq
          exact hmono a b hb
        · exact hjoin a' b' hab
  obtain ⟨hcls, hnone, -, hjoin⟩ := hfold sameAsPairs (List.Subset.refl _) m h hposs
  exact ⟨hcls, hnone, hjoin⟩

theorem seeded_seedSameAs (individuals : List String) :
    Seeded r sameAsPairs (new.seedSameAs individuals sameAsPairs) := by
  have hposs : ∀ (names : List String) (m : SeededClassInstanceManager),
      m.possibleEquivalencePairs = [] →
        (names.foldl seedIndividual m).possibleEquivalencePairs = [] := by
    intro names
    induction names with
    | nil => exact fun m hm => hm
    | cons name names ih =>
      intro m hm
      apply ih
      unfold seedIndividual
      split <;> exact hm
  obtain ⟨hcls, hnone, hjoin⟩ := classes_seedDefinite hdef (classes_seedIndividuals individuals)
    (hposs individuals new rfl)
  unfold seedSameAs
  set m := sameAsPairs.foldl seedDefinite (individuals.foldl seedIndividual new) with hm
  have hfold : ∀ (pairs : List (String × String × Bool)) (m' : SeededClassInstanceManager),
      (∀ x, m'.sameAsIndividuals x = m.sameAsIndividuals x) →
      (∀ x, (pairs.foldl seedPossible m').sameAsIndividuals x = m.sameAsIndividuals x) ∧
        ∀ pair, pair ∈ (pairs.foldl seedPossible m').possibleEquivalencePairs ↔
          pair ∈ m'.possibleEquivalencePairs ∨ (pair.1, pair.2, false) ∈ pairs ∧
            m.isSameIndividual pair.1 pair.2 = false := by
    intro pairs
    induction pairs with
    | nil => exact fun m' hm' => ⟨hm', fun pair => by simp⟩
    | cons first pairs ih =>
      intro m' hm'
      obtain ⟨a, b, definite⟩ := first
      have hsame : m'.isSameIndividual a b = m.isSameIndividual a b := by
        rw [isSameIndividual, isSameIndividual, hm']
      rw [foldl_cons]
      by_cases hnew : (!definite && !m.isSameIndividual a b) = true
      · have hstep : seedPossible m' (a, b, definite) =
            { m' with possibleEquivalencePairs := m'.possibleEquivalencePairs ++ [(a, b)] } := by
          rw [seedPossible, hsame, if_pos hnew]
        rw [hstep]
        obtain ⟨hcls', hpairs⟩ :=
          ih { m' with possibleEquivalencePairs := m'.possibleEquivalencePairs ++ [(a, b)] } hm'
        refine ⟨hcls', fun ⟨x, y⟩ => ?_⟩
        simp only [Bool.and_eq_true, Bool.not_eq_true'] at hnew
        obtain ⟨rfl, hdiff⟩ := hnew
        rw [hpairs, mem_append, mem_singleton, mem_cons]
        constructor
        · rintro ((h | h) | h)
          · exact .inl h
          · cases h
            exact .inr ⟨.inl rfl, hdiff⟩
          · exact .inr ⟨.inr h.1, h.2⟩
        · rintro (h | ⟨h | h, hdiff'⟩)
          · exact .inl (.inl h)
          · cases h
            exact .inl (.inr rfl)
          · exact .inr ⟨h, hdiff'⟩
      · have hstep : seedPossible m' (a, b, definite) = m' := by
          rw [seedPossible, hsame, if_neg hnew]
        rw [hstep]
        obtain ⟨hcls', hpairs⟩ := ih m' hm'
        refine ⟨hcls', fun pair => ?_⟩
        rw [hpairs, mem_cons]
        refine or_congr_right (and_congr_left fun hdiff => ⟨.inr, ?_⟩)
        rintro (heq | h)
        · simp only [Prod.mk.injEq] at heq
          obtain ⟨rfl, rfl, rfl⟩ := heq
          rw [hdiff] at hnew
          exact absurd rfl hnew
        · exact h
  obtain ⟨hsame, hpairs⟩ := hfold sameAsPairs m fun _ => rfl
  refine ⟨⟨fun x => ?_, fun x y hy z => ?_, fun x y hy => ?_⟩, fun pair hpair => ?_,
    fun a b definite hab hrel => ?_⟩
  · rw [hsame]
    exact hcls.self x
  · rw [hsame] at hy ⊢
    rw [hsame]
    exact hcls.block x y hy z
  · rw [hsame] at hy
    exact hcls.linked x y hy
  · rw [hpairs, hnone] at hpair
    exact ⟨false, (hpair.resolve_left not_mem_nil).1⟩
  · rw [hpairs, hsame]
    cases definite with
    | true => exact .inr (hjoin a b hab)
    | false =>
      by_cases hdiff : m.isSameIndividual a b = true
      · rw [isSameIndividual, decide_eq_true_iff] at hdiff
        rcases hdiff with rfl | hdiff
        · exact .inr (hcls.self a)
        · exact .inr hdiff
      · exact .inl (.inr ⟨hab, Bool.eq_false_iff.mpr hdiff⟩)

end

/-! ## Confirmation -/

/-- The class has only linked individuals, and the true pairs that may extend it are still there. -/
structure Growing (r : String → String → Prop) (sameAsPairs : List (String × String × Bool))
    (m : SeededClassInstanceManager) (individual : String) (c : Confirmation) : Prop where
  self : individual ∈ c.members
  closed : ∀ x ∈ c.members, ∀ z ∈ m.sameAsIndividuals x, z ∈ c.members
  linked : ∀ x ∈ c.members, Linked r sameAsPairs individual x
  listed : ∀ pair ∈ c.pairs, ∃ definite, (pair.1, pair.2, definite) ∈ sameAsPairs
  covered : ∀ a b definite, (a, b, definite) ∈ sameAsPairs → r a b →
    (a, b) ∈ c.pairs ∨ b ∈ m.sameAsIndividuals a

/-- The pairs that are not inside the class. -/
def Confirmation.outside (c : Confirmation) : List (String × String) :=
  c.pairs.filter fun pair => ¬ (pair.1 ∈ c.members ∧ pair.2 ∈ c.members)

theorem length_filter_lt {α : Type*} {p q : α → Bool} {l : List α}
    (hle : ∀ a ∈ l, q a = true → p a = true) {a : α}
    (ha : a ∈ l) (hp : p a = true) (hq : q a = false) :
    (l.filter q).length < (l.filter p).length := by
  have hfilt : l.filter q = (l.filter p).filter q := by
    rw [filter_filter]
    apply filter_congr
    intro b hb
    cases hqb : q b with
    | false => rfl
    | true => rw [hle b hb hqb, Bool.and_true]
  rw [hfilt]
  apply length_filter_lt_length_iff_exists.mpr
  exact ⟨a, mem_filter.mpr ⟨ha, hp⟩, by simp [hq]⟩

variable {pair : String × String}

theorem otherEnd_eq_some {x : String} (h : otherEnd members pair = some x) :
    x ∉ members ∧ (pair.1 ∈ members ∧ pair.2 = x ∨ pair.2 ∈ members ∧ pair.1 = x) := by
  unfold otherEnd at h
  split at h
  · rename_i hfst
    split at h
    · cases h
    · rename_i hsnd
      cases h
      exact ⟨hsnd, .inl ⟨hfst, rfl⟩⟩
  · rename_i hfst
    split at h
    · rename_i hsnd
      cases h
      exact ⟨hfst, .inr ⟨hsnd, rfl⟩⟩
    · cases h

theorem otherEnd_eq_none (h : otherEnd members pair = none) :
    pair.1 ∈ members ↔ pair.2 ∈ members := by
  unfold otherEnd at h
  split at h
  · rename_i hfst
    split at h
    · rename_i hsnd
      exact iff_of_true hfst hsnd
    · cases h
  · rename_i hfst
    split at h
    · cases h
    · rename_i hsnd
      exact iff_of_false hfst hsnd

section confirmation

variable (hr : Equivalence r) {isSame : String → String → Option Bool}
  (htrue : ∀ a b, ∃ answer, isSame a b = some answer ∧ (answer = true ↔ r a b))
  (hseed : Seeded r sameAsPairs m) (order : HashOrder String) {individual : String}

include hr htrue hseed

theorem Growing.confirmCandidate {c : Confirmation} (h : Growing r sameAsPairs m individual c)
    (hrun : c.candidate.isSome = true) :
    ∃ c', m.confirmCandidate order isSame individual c = some c' ∧
    Growing r sameAsPairs m individual c' ∧
      c'.outside.length < c.outside.length := by
  obtain ⟨candidate, hcand⟩ := Option.isSome_iff_exists.mp hrun
  obtain ⟨pair, hpair, hoth⟩ := exists_of_findSome?_eq_some hcand
  obtain ⟨hnew, hend⟩ := otherEnd_eq_some hoth
  set anchor := (order.arrange c.traversal c.members).head?.getD individual with hanchor
  have hmember : anchor ∈ c.members := by
    rw [hanchor]
    cases hhead : (order.arrange c.traversal c.members).head? with
    | none => exact h.self
    | some first => exact (order.perm _ _).mem_iff.mp (mem_of_head? hhead)
  have hsameAs : ∀ x ∈ c.members, r anchor x :=
    fun x hx => hr.trans (hr.symm ((h.linked anchor hmember).same hr)) ((h.linked x hx).same hr)
  have houtside : (decide ¬ (pair.1 ∈ c.members ∧ pair.2 ∈ c.members)) = true := by
    rw [decide_eq_true_iff]
    rintro ⟨hfst, hsnd⟩
    rcases hend with ⟨-, rfl⟩ | ⟨-, rfl⟩
    · exact hnew hsnd
    · exact hnew hfst
  obtain ⟨answer, hans, hiff⟩ := htrue anchor candidate
  have hstep : ∀ b, answer = b → m.confirmCandidate order isSame individual c = some (if b then
      ⟨c.pairs, insertSet ((m.sameAsIndividuals candidate).foldl insertSet c.members) candidate,
        c.traversal + 1⟩ else
      ⟨c.pairs.filter fun pair => !linksTo c.members candidate pair, c.members, c.traversal + 1⟩) :=
        by
    rintro b rfl
    rw [SeededClassInstanceManager.confirmCandidate, hcand]
    dsimp only [bind, Option.bind]
    rw [← hanchor, hans]
    cases answer <;> rfl
  cases answer with
  | true =>
    have hmem : ∀ x,
      x ∈ insertSet ((m.sameAsIndividuals candidate).foldl insertSet c.members) candidate ↔
        x ∈ c.members ∨ x ∈ m.sameAsIndividuals candidate := by
      intro x
      rw [mem_insertSet, mem_foldl_insertSet]
      constructor
      · rintro (hx | rfl)
        · exact hx
        · exact .inr (hseed.classes.self x)
      · exact .inl
    have hlink : Linked r sameAsPairs individual candidate := by
      have hrel : r anchor candidate := hiff.mp rfl
      obtain ⟨definite, hlst⟩ := h.listed pair hpair
      rcases hend with ⟨hin, rfl⟩ | ⟨hin, rfl⟩
      · refine (h.linked _ hin).trans _ _ _ (.rel _ _ ⟨?_, definite, hlst⟩)
        exact hr.trans (hr.symm (hsameAs _ hin)) hrel
      · refine (h.linked _ hin).trans _ _ _ (.symm _ _ (.rel _ _ ⟨?_, definite, hlst⟩))
        exact hr.trans (hr.symm hrel) (hsameAs _ hin)
    refine ⟨_, hstep true rfl, ⟨(hmem _).mpr (.inl h.self), fun x hx z hz => ?_, fun x hx => ?_,
      h.listed, h.covered⟩, ?_⟩
    · rw [if_pos rfl, hmem] at hx
      rw [if_pos rfl, hmem]
      exact hx.imp (fun hx => h.closed x hx z hz) fun hx =>
        (hseed.classes.block candidate x hx z).mp hz
    · rw [if_pos rfl, hmem] at hx
      rcases hx with hx | hx
      · exact h.linked x hx
      · exact hlink.trans _ _ _ (hseed.classes.linked candidate x hx)
    · refine length_filter_lt (fun q _ hq => ?_) hpair houtside ?_
      · simp only [if_true, hmem, decide_eq_true_iff] at hq ⊢
        exact fun hin => hq (hin.imp .inl .inl)
      · simp only [if_true, hmem, decide_eq_false_iff_not, not_not]
        rcases hend with ⟨hin, rfl⟩ | ⟨hin, rfl⟩
        · exact ⟨.inl hin, .inr (hseed.classes.self _)⟩
        · exact ⟨.inr (hseed.classes.self _), .inl hin⟩
  | false =>
    refine ⟨_, hstep false rfl,
        ⟨h.self, h.closed, h.linked, fun q hq => h.listed q (mem_filter.mp hq).1,
      fun a b definite hab hrel => ?_⟩, ?_⟩
    · refine (h.covered a b definite hab hrel).imp_left fun hin => mem_filter.mpr ⟨hin, ?_⟩
      -- A true pair cannot link the class to a refuted candidate.
      rw [Bool.not_eq_true', linksTo, decide_eq_false_iff_not]
      rintro (⟨ha, rfl⟩ | ⟨hb, rfl⟩)
      · exact absurd (hiff.mpr (hr.trans (hsameAs a ha) hrel)) Bool.false_ne_true
      · exact absurd (hiff.mpr (hr.trans (hsameAs b hb) (hr.symm hrel))) Bool.false_ne_true
    · have hrem : linksTo c.members candidate pair = true := by
        rw [linksTo, decide_eq_true_iff]
        exact hend
      dsimp only [Confirmation.outside, Bool.false_eq_true, if_false]
      rw [if_neg Bool.false_ne_true]
      rw [filter_filter]
      refine length_filter_lt (fun q _ hq => (Bool.and_eq_true_iff.mp hq).1) hpair houtside ?_
      rw [hrem]
      simp

/-- The class that a query returns is what the true listed pairs link; what it records keeps the
classes as they should be. -/
theorem exists_getSameAsIndividuals (individual : String) :
    ∃ members m', (∀ fuel, m.possibleEquivalencePairs.length ≤ fuel →
        m.getSameAsIndividuals order isSame fuel individual = some (members, m')) ∧
      (∀ x, x ∈ members ↔ Linked r sameAsPairs individual x) ∧ Seeded r sameAsPairs m' := by
  have hst : Growing r sameAsPairs m individual
      ⟨m.possibleEquivalencePairs, insertSet (m.sameAsIndividuals individual) individual, 0⟩ := by
    have hmem : ∀ x, x ∈ insertSet (m.sameAsIndividuals individual) individual ↔
        x ∈ m.sameAsIndividuals individual := by
      intro x
      rw [mem_insertSet, or_iff_left_iff_imp]
      rintro rfl
      exact hseed.classes.self x
    refine ⟨(hmem _).mpr (hseed.classes.self _), fun x hx z hz => ?_, fun x hx => ?_, hseed.listed,
      hseed.covered⟩
    · rw [hmem] at hx ⊢
      exact (hseed.classes.block individual x hx z).mp hz
    · exact hseed.classes.linked individual x ((hmem x).mp hx)
  obtain ⟨c, hc, hend, hfuel⟩ := exists_loopWhile_eq (fun c : Confirmation => c.candidate.isSome)
    (m.confirmCandidate order isSame individual) (Growing r sameAsPairs m individual)
      (fun c => c.outside.length)
    (fun c hc hrun => hc.confirmCandidate hr htrue hseed order hrun) hst
  have hsides : ∀ pair ∈ c.pairs, pair.1 ∈ c.members ↔ pair.2 ∈ c.members := by
    intro pair hpair
    apply otherEnd_eq_none
    exact findSome?_eq_none_iff.mp
      (Option.not_isSome_iff_eq_none.mp (Bool.eq_false_iff.mp hend)) pair hpair
  have hcompl : ∀ a b, Linked r sameAsPairs a b → (a ∈ c.members ↔ b ∈ c.members) := by
    intro a b hab
    induction hab with
    | rel a b hab =>
      obtain ⟨hrel, definite, hlst⟩ := hab
      rcases hc.covered a b definite hlst hrel with hin | hin
      · exact hsides (a, b) hin
      · refine ⟨fun ha => hc.closed a ha b hin, fun hb => hc.closed b hb a ?_⟩
        exact (hseed.classes.block a b hin a).mpr (hseed.classes.self a)
    | refl a => exact Iff.rfl
    | symm a b _ ih => exact ih.symm
    | trans a b c _ _ ihab ihbc => exact ihab.trans ihbc
  have hmems : ∀ x, x ∈ sortDedup (· ≤ ·) (order.arrange c.traversal c.members) ↔
      x ∈ c.members := by
    intro x
    rw [mem_sortDedup, (order.perm _ _).mem_iff]
  refine ⟨sortDedup (· ≤ ·) (order.arrange c.traversal c.members),
    { m with possibleEquivalencePairs := c.pairs }.recordClass
      (sortDedup (· ≤ ·) (order.arrange c.traversal c.members)),
    fun fuel hle => ?_, fun x => ?_, ?_⟩
  · rw [getSameAsIndividuals]
    dsimp only [bind, Option.bind]
    rw [hfuel fuel ((length_filter_le _ _).trans hle)]
    rfl
  · rw [hmems]
    exact ⟨hc.linked x, fun h => (hcompl individual x h).mp hc.self⟩
  · have hpairs : Classes r sameAsPairs { m with possibleEquivalencePairs := c.pairs } :=
      ⟨hseed.classes.self, hseed.classes.block, hseed.classes.linked⟩
    have hcl : ∀ x ∈ sortDedup (· ≤ ·) (order.arrange c.traversal c.members),
        ∀ z ∈ m.sameAsIndividuals x, z ∈ sortDedup (· ≤ ·) (order.arrange c.traversal c.members) :=
          by
      intro x hx z hz
      rw [hmems] at hx ⊢
      exact hc.closed x hx z hz
    refine ⟨hpairs.recordClass hcl fun x hx z hz => ?_, hc.listed, fun a b definite hab hrel => ?_⟩
    · rw [hmems] at hx hz
      exact ((hc.linked x hx).symm _ _).trans _ _ _ (hc.linked z hz)
    · refine (hc.covered a b definite hab hrel).imp_right fun hb => ?_
      rw [sameAsIndividuals_recordClass]
      split
      · rename_i ha
        exact hcl a ha b hb
      · exact hb

end confirmation

/-! ## Queries -/

/-- What a manager becomes by queries. -/
inductive Queried (isSame : String → String → Option Bool) (start : SeededClassInstanceManager) :
    SeededClassInstanceManager → Prop
  | start : Queried isSame start start
  | query {m order fuel individual members m'} : Queried isSame start m →
      m.getSameAsIndividuals order isSame fuel individual = some (members, m') →
        Queried isSame start m'

theorem getSameAsIndividuals_stable {order : HashOrder String}
    {isSame : String → String → Option Bool} {fuel fuel' : ℕ}
    {individual : String} {result : List String × SeededClassInstanceManager}
    (h : m.getSameAsIndividuals order isSame fuel individual = some result) (hle : fuel ≤ fuel') :
    m.getSameAsIndividuals order isSame fuel' individual = some result := by
  rw [getSameAsIndividuals] at h ⊢
  obtain ⟨c, hc, hrest⟩ := Option.bind_eq_some_iff.mp h
  exact Option.bind_eq_some_iff.mpr ⟨c, loopWhile_stable hc hle, hrest⟩

theorem Queried.seeded (hr : Equivalence r) {isSame : String → String → Option Bool}
    (htrue : ∀ a b, ∃ answer, isSame a b = some answer ∧ (answer = true ↔ r a b))
    {start : SeededClassInstanceManager} (hst : Seeded r sameAsPairs start)
    (h : Queried isSame start m) :
    Seeded r sameAsPairs m := by
  induction h with
  | start => exact hst
  | query hqueried hres ih =>
    rename_i m order fuel individual members m'
    obtain ⟨members', m'', hfuel, -, hseed⟩ :=
      exists_getSameAsIndividuals hr htrue ih order individual
    have hmax := getSameAsIndividuals_stable hres
      (le_max_left fuel m.possibleEquivalencePairs.length)
    rw [hfuel _ (le_max_right _ _)] at hmax
    cases hmax
    exact hseed

/-- Whatever was queried before, every query returns the true class exactly if the true ones among
the listed pairs link all individuals that are the same. -/
theorem getSameAsIndividuals_exact_iff (r : String → String → Prop) (hr : Equivalence r)
    (isSame : String → String → Option Bool)
    (htrue : ∀ a b, ∃ answer, isSame a b = some answer ∧ (answer = true ↔ r a b))
    (individuals : List String) (sameAsPairs : List (String × String × Bool))
    (hdef : ∀ a b, (a, b, true) ∈ sameAsPairs → r a b) :
    (∀ m, Queried isSame (new.seedSameAs individuals sameAsPairs) m →
      ∀ (order : HashOrder String) (individual : String),
      ∃ members m', (∃ enough, ∀ fuel, enough ≤ fuel →
          m.getSameAsIndividuals order isSame fuel individual = some (members, m')) ∧
        ∀ x, x ∈ members ↔ r individual x) ↔ ∀ a b, r a b → Linked r sameAsPairs a b := by
  have hseed := seeded_seedSameAs hdef individuals
  constructor
  · intro h a b hab
    obtain ⟨members, m', ⟨enough, henough⟩, hmems⟩ := h _ .start (HashOrder.insertion String) a
    obtain ⟨members', m'', hfuel, hlink, -⟩ :=
      exists_getSameAsIndividuals hr htrue hseed (HashOrder.insertion String) a
    have heq := (henough _ (le_max_left enough _)).symm.trans (hfuel _ (le_max_right _ _))
    cases heq
    exact (hlink b).mp ((hmems b).mpr hab)
  · intro h m hm order individual
    obtain ⟨members, m', hfuel, hlink, -⟩ :=
      exists_getSameAsIndividuals hr htrue (hm.seeded hr htrue hseed) order individual
    refine ⟨members, m', ⟨_, hfuel⟩, fun x => ?_⟩
    rw [hlink]
    exact ⟨fun hx => hx.same hr, h individual x⟩

/-- The equivalence with one class of several individuals. -/
def sameWithin (names : List String) (a b : String) : Prop := a = b ∨ a ∈ names ∧ b ∈ names

instance (names : List String) (a b : String) : Decidable (sameWithin names a b) :=
  inferInstanceAs (Decidable (a = b ∨ a ∈ names ∧ b ∈ names))

theorem equivalence_sameWithin (names : List String) : Equivalence (sameWithin names) where
  refl a := .inl rfl
  symm := by
    rintro a b (rfl | ⟨ha, hb⟩)
    · exact .inl rfl
    · exact .inr ⟨hb, ha⟩
  trans := by
    rintro a b c (rfl | ⟨ha, hb⟩) hbc
    · exact hbc
    · rcases hbc with rfl | ⟨-, hc⟩
      · exact .inr ⟨ha, hb⟩
      · exact .inr ⟨ha, hc⟩

/-- The test of individuals by `sameWithin`. -/
def testWithin (names : List String) (a b : String) : Option Bool :=
  some (decide (sameWithin names a b))

theorem truthful_testWithin (names : List String) (a b : String) :
    ∃ answer, testWithin names a b = some answer ∧ (answer = true ↔ sameWithin names a b) :=
  ⟨_, rfl, decide_eq_true_iff⟩

theorem getSameAsIndividuals_exact_pair :
    (∀ a b, (a, b, true) ∈ [("a", "b", false)] → sameWithin ["a", "b"] a b) ∧
      ∃ members m', (∃ enough, ∀ fuel, enough ≤ fuel →
          (new.seedSameAs ["a", "b"] [("a", "b", false)]).getSameAsIndividuals
          (HashOrder.insertion String) (testWithin ["a", "b"]) fuel "a" = some (members, m')) ∧
        ∀ x, x ∈ members ↔ sameWithin ["a", "b"] "a" x := by
  have hdef : ∀ a b, (a, b, true) ∈ [("a", "b", false)] → sameWithin ["a", "b"] a b := by simp
  have hpair : Linked (sameWithin ["a", "b"]) [("a", "b", false)] "a" "b" :=
    .rel _ _ ⟨.inr (by simp), false, mem_singleton_self _⟩
  have hlink : ∀ x y, sameWithin ["a", "b"] x y →
      Linked (sameWithin ["a", "b"]) [("a", "b", false)] x y := by
    rintro x y (rfl | ⟨hx, hy⟩)
    · exact .refl x
    · simp only [mem_cons, not_mem_nil, or_false] at hx hy
      rcases hx with rfl | rfl <;> rcases hy with rfl | rfl
      · exact .refl _
      · exact hpair
      · exact hpair.symm
      · exact .refl _
  refine ⟨hdef, ?_⟩
  exact (getSameAsIndividuals_exact_iff (sameWithin ["a", "b"]) (equivalence_sameWithin _)
    (testWithin ["a", "b"])
    (truthful_testWithin _) ["a", "b"] [("a", "b", false)] hdef).mpr hlink _ .start
      (HashOrder.insertion String) "a"

/-- The individuals `a` and `c` are the same and were both merged into `b`, which is another one.
They are connected through the listed pairs, but `c` is missed in the class of `a`. -/
theorem getSameAsIndividuals_misses :
    (∀ a b, (a, b, true) ∈ [("a", "b", false), ("c", "b", false)] → sameWithin ["a", "c"] a b) ∧
      (∀ x y, sameWithin ["a", "c"] x y → Relation.EqvGen (fun x y => ∃ definite,
          (x, y, definite) ∈ [("a", "b", false), ("c", "b", false)]) x y) ∧
      sameWithin ["a", "c"] "a" "c" ∧ ∃ members m', (∃ enough, ∀ fuel, enough ≤ fuel →
        (new.seedSameAs ["a", "b", "c"] [("a", "b", false), ("c", "b", false)]).getSameAsIndividuals
          (HashOrder.insertion String) (testWithin ["a", "c"]) fuel "a" = some (members, m')) ∧
          "c" ∉ members := by
  have hdef : ∀ a b, (a, b, true) ∈ [("a", "b", false), ("c", "b", false)] →
    sameWithin ["a", "c"] a b := by simp
  refine ⟨hdef, ?_, .inr (by simp), ?_⟩
  · have hac : Relation.EqvGen (fun x y => ∃ definite,
      (x, y, definite) ∈ [("a", "b", false), ("c", "b", false)]) "a" "c" :=
      .trans _ "b" _ (.rel _ _ ⟨false, by simp⟩) (.symm _ _ (.rel _ _ ⟨false, by simp⟩))
    rintro x y (rfl | ⟨hx, hy⟩)
    · exact .refl x
    · simp only [mem_cons, not_mem_nil, or_false] at hx hy
      rcases hx with rfl | rfl <;> rcases hy with rfl | rfl
      · exact .refl _
      · exact hac
      · exact hac.symm
      · exact .refl _
  · have hlink : ∀ x y, Linked (sameWithin ["a", "c"]) [("a", "b", false), ("c", "b", false)] x
        y → x = y := by
      intro x y hxy
      induction hxy with
      | rel x y h =>
        obtain ⟨hsame, definite, hlst⟩ := h
        simp only [mem_cons, not_mem_nil, or_false, Prod.mk.injEq] at hlst
        rcases hlst with ⟨rfl, rfl, -⟩ | ⟨rfl, rfl, -⟩
        · simp [sameWithin] at hsame
        · simp [sameWithin] at hsame
      | refl x => rfl
      | symm x y _ ih => exact ih.symm
      | trans x y z _ _ ihxy ihyz => exact ihxy.trans ihyz
    obtain ⟨members, m', hfuel, hmems, -⟩ :=
      exists_getSameAsIndividuals (equivalence_sameWithin _) (truthful_testWithin _)
      (seeded_seedSameAs hdef ["a", "b", "c"]) (HashOrder.insertion String) "a"
    refine ⟨members, m', ⟨_, hfuel⟩, fun hc => ?_⟩
    have heq := hlink _ _ ((hmems "c").mp hc)
    simp at heq

end SeededClassInstanceManager

end Hermit
