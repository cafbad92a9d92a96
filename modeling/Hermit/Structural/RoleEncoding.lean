import Hermit.Library.Draining
import Hermit.Library.Pointwise
import Hermit.Structural.RoleReading
import Hermit.Structural.UniversalStates

/-! # The encoding of restrictions by states

Each replaced restriction has a block of inclusions over the classes of its automaton's
states.  In a model of the role box the class of a state holds where every word that
leads from it to the terminal state leads into the filler.
-/

namespace Hermit

open Library Automata RoleBox List ExpressionOrder Interp InclusionManager

/-! ## The classes of states -/

theorem allName_inj {m n : ℕ} : allName m = allName n ↔ m = n := append_repr_inj _

theorem allName_ne_thing (n : ℕ) : allName n ≠ owlThing :=
  append_ne_of_take_ne 1 (by decide) (by decide) n.repr

theorem allName_ne_nothing (n : ℕ) : allName n ≠ owlNothing :=
  append_ne_of_take_ne 1 (by decide) (by decide) n.repr

/-- The literal over the state class with the given number. -/
def stateLiteral (negative : Bool) (n : ℕ) : ClassExpr :=
  if negative then .objectComplementOf (freshClass n) else freshClass n

variable (order : ExpressionOrder)

@[simp] theorem getComplementNnf_freshClass (n : ℕ) :
    order.getComplementNnf (freshClass n) = .objectComplementOf (freshClass n) := by
  simp [freshClass, ExpressionOrder.getComplementNnf, allName_ne_thing, allName_ne_nothing]

variable (negative : Bool)

@[simp] theorem getComplementNnf_stateLiteral (n : ℕ) :
    order.getComplementNnf (stateLiteral negative n) = stateLiteral (!negative) n := by
  cases negative with
  | false => simp [stateLiteral]
  | true =>
      simp [stateLiteral, ExpressionOrder.getComplementNnf, ExpressionOrder.getNnf, freshClass]

theorem isComplement_stateLiteral (n : ℕ) : isComplement (stateLiteral negative n) = negative := by
  cases negative <;> rfl

/-- The literal that the source builds from a fresh class. -/
theorem literal_eq_stateLiteral (n : ℕ) :
    (if negative then order.getComplementNnf (freshClass n) else freshClass n) =
      stateLiteral negative n := by
  cases negative <;> simp [stateLiteral]

/-! ## What replacing does -/

/-- The polarity of the class that stands for a restriction. -/
def isNegativeRestriction : ClassExpr → Bool
  | .objectAllValuesFrom _ bce => isComplement bce || isOwlNothing bce
  | _ => false

theorem allValuesMatch_eq_some {manager : InclusionManager} {d : ClassExpr} {negative : Bool}
    (h : manager.allValuesMatch d = some negative) :
    ∃ ope bce a, d = .objectAllValuesFrom ope bce ∧ isOwlThing bce = false ∧
      manager.automataByProperty.lookup ope = some a ∧ negative = isNegativeRestriction d := by
  cases d with
  | objectAllValuesFrom ope bce =>
    simp only [InclusionManager.allValuesMatch] at h
    split_ifs at h with hmatch
    simp only [Bool.and_eq_true, Bool.not_eq_true'] at hmatch
    obtain ⟨a, ha⟩ := Option.isSome_iff_exists.mp hmatch.2
    exact ⟨ope, bce, a, rfl, hmatch.1, ha, (Option.some.inj h).symm⟩
  | _ => cases h

/-- The restrictions replaced so far are numbered in the order in which they were found. -/
structure Replacements.Valid (manager : InclusionManager) (first : ℕ)
    (r : Replacements) : Prop where
  next : r.nextIndex = first + r.replacementOrder.length
  fresh : ∀ A ∈ r.fresh, ∃ n, first ≤ n ∧ A = freshClass n
  found : ∀ key ∈ r.replacementOrder, (manager.allValuesMatch key).isSome
  lookup : ∀ key literal, r.replacedDescriptions.lookup key = some literal ↔
    ∃ p, r.replacementOrder[p]? = some key ∧
      literal = stateLiteral (isNegativeRestriction key) (first + p)

/-- A replacement is never changed, and only the given disjuncts get new ones. -/
structure Replacements.Extends (ds : List ClassExpr) (r r' : Replacements) : Prop where
  keeps : ∀ key literal, r.replacedDescriptions.lookup key = some literal →
    r'.replacedDescriptions.lookup key = some literal
  origin : ∀ key ∈ r'.replacementOrder, key ∈ r.replacementOrder ∨ key ∈ ds

theorem Replacements.Extends.refl (ds : List ClassExpr) (r : Replacements) : Extends ds r r :=
  ⟨fun _ _ h => h, fun _ h => .inl h⟩

theorem Replacements.Extends.trans {ds ds' : List ClassExpr} {r r' r'' : Replacements}
    (h : Extends ds r r') (h' : Extends ds' r' r'') : Extends (ds ++ ds') r r'' := by
  refine ⟨fun key literal hkey => h'.keeps key literal (h.keeps key literal hkey),
    fun key hkey => ?_⟩
  rcases h'.origin key hkey with hkey | hkey
  · exact (h.origin key hkey).imp_right (mem_append_left ds')
  · exact .inr (mem_append_right ds hkey)

section replace

variable {order} {manager : InclusionManager} {complex : List ObjectPropExpr} {first : ℕ}
  {r r' : Replacements}

variable {d : ClassExpr}

theorem Replacements.Valid.replace (h : r.Valid manager first)
    (hd : (manager.allValuesMatch d).isSome) (hnew : r.replacedDescriptions.lookup d = none) :
    Replacements.Valid manager first
      { nextIndex := r.nextIndex + 1
        fresh := insertSet r.fresh (freshClass r.nextIndex)
        replacedDescriptions :=
          r.replacedDescriptions.insert d (stateLiteral (isNegativeRestriction d) r.nextIndex)
        replacementOrder := r.replacementOrder ++ [d] } := by
  refine ⟨?_, fun A hA => ?_, fun key hkey => ?_, fun key literal => ?_⟩
  · simp only [length_append, length_singleton, h.next]
    omega
  · rcases (mem_insertSet _ _ _).mp hA with hA | rfl
    · exact h.fresh A hA
    · exact ⟨r.nextIndex, by rw [h.next]; omega, rfl⟩
  · rcases mem_append.mp hkey with hkey | hkey
    · exact h.found key hkey
    · rw [mem_singleton.mp hkey]
      exact hd
  · by_cases hkey : key = d
    · subst hkey
      have hnm : ∀ p : ℕ, r.replacementOrder[p]? ≠ some key := by
        intro p hp
        have hlook := (h.lookup key _).mpr ⟨p, hp, rfl⟩
        rw [hnew] at hlook
        cases hlook
      simp only [AList.lookup_insert, Option.some.injEq]
      constructor
      · rintro rfl
        exact ⟨r.replacementOrder.length, by simp, by rw [h.next]⟩
      · rintro ⟨p, hp, rfl⟩
        rcases Nat.lt_or_ge p r.replacementOrder.length with hlt | hge
        · rw [getElem?_append_left hlt] at hp
          exact absurd hp (hnm p)
        · rw [getElem?_append_right hge] at hp
          obtain ⟨hlt, -⟩ := List.getElem?_eq_some_iff.mp hp
          have hp : p = r.replacementOrder.length := by
            simp only [length_singleton] at hlt
            omega
          rw [h.next, hp]
    · rw [AList.lookup_insert_ne hkey, h.lookup]
      refine exists_congr fun p => and_congr_left fun _ => ?_
      rcases Nat.lt_or_ge p r.replacementOrder.length with hlt | hge
      · rw [getElem?_append_left hlt]
      · rw [getElem?_append_right hge, getElem?_eq_none hge]
        constructor
        · intro hp
          cases hp
        · intro hp
          have hmem := mem_of_getElem? hp
          exact absurd (mem_singleton.mp hmem) hkey

/-- A disjunct and what stands for it, by the replacements found. -/
def Replaces (manager : InclusionManager) (complex : List ObjectPropExpr) (r : Replacements)
    (d d' : ClassExpr) : Prop :=
  checkDisjunct complex d = .ok () ∧
    (manager.allValuesMatch d = none ∧ d' = d ∨ r.replacedDescriptions.lookup d = some d')

variable {ds : List ClassExpr}

theorem Replaces.mono {d' : ClassExpr} (h : Replaces manager complex r d d')
    (hext : r.Extends ds r') : Replaces manager complex r' d d' :=
  ⟨h.1, h.2.imp_right fun hlook => hext.keeps d d' hlook⟩

variable (h : r.Valid manager first)
include h

theorem replaceDisjunct_spec {p : ClassExpr × Replacements}
    (hok : manager.replaceDisjunct order complex r d = .ok p) :
    p.2.Valid manager first ∧ r.Extends [d] p.2 ∧ Replaces manager complex p.2 d p.1 := by
  obtain ⟨_, hcheck, hok⟩ := ok_of_bind hok
  cases hmatch : manager.allValuesMatch d with
  | none =>
    rw [hmatch] at hok
    cases hok
    exact ⟨h, .refl _ r, hcheck, .inl ⟨hmatch, rfl⟩⟩
  | some negative =>
    rw [hmatch] at hok
    obtain ⟨-, -, -, -, -, -, rfl⟩ := allValuesMatch_eq_some hmatch
    cases hlook : r.replacedDescriptions.lookup d with
    | some replacement =>
      simp only [hlook] at hok
      cases hok
      exact ⟨h, .refl _ r, hcheck, .inr hlook⟩
    | none =>
      simp only [hlook, literal_eq_stateLiteral] at hok
      cases hok
      refine ⟨h.replace (by simp [hmatch]) hlook, ⟨fun key literal hkey => ?_, by simp⟩, hcheck,
        .inr (AList.lookup_insert _)⟩
      have hne : key ≠ d := by
        rintro rfl
        rw [hlook] at hkey
        cases hkey
      rwa [AList.lookup_insert_ne hne]

theorem replaceInclusion_spec {p : List ClassExpr × Replacements}
    (hok : manager.replaceInclusion order complex r ds = .ok p) :
    p.2.Valid manager first ∧ r.Extends ds p.2 ∧
      List.Forall₂ (Replaces manager complex p.2) ds p.1 := by
  induction ds generalizing r p with
  | nil =>
    cases hok
    exact ⟨h, .refl _ r, .nil⟩
  | cons d ds ih =>
    obtain ⟨q, hq, hok⟩ := ok_of_bind hok
    obtain ⟨q', hq', hok⟩ := ok_of_bind hok
    cases hok
    obtain ⟨hval, hext, hd⟩ := replaceDisjunct_spec h hq
    obtain ⟨hval', hext', hds⟩ := ih hval hq'
    exact ⟨hval', hext.trans hext', .cons (hd.mono hext') hds⟩

theorem replaceInclusions_spec {es : List (List ClassExpr)}
    {p : List (List ClassExpr) × Replacements}
    (hok : manager.replaceInclusions order complex r es = .ok p) :
    p.2.Valid manager first ∧ r.Extends es.flatten p.2 ∧
      List.Forall₂ (List.Forall₂ (Replaces manager complex p.2)) es p.1 := by
  induction es generalizing r p with
  | nil =>
    cases hok
    exact ⟨h, .refl _ r, .nil⟩
  | cons e es ih =>
    obtain ⟨q, hq, hok⟩ := ok_of_bind hok
    obtain ⟨q', hq', hok⟩ := ok_of_bind hok
    cases hok
    obtain ⟨hval, hext, he⟩ := replaceInclusion_spec h hq
    obtain ⟨hval', hext', hes⟩ := ih hval hq'
    exact ⟨hval', hext.trans hext', .cons (he.imp fun _ _ hd => hd.mono hext') hes⟩

end replace

/-! ## The blocks of inclusions -/

/-- A replaced restriction with the classes of its automaton's states. -/
structure Block where
  property : ObjectPropExpr
  filler : ClassExpr
  automaton : Automaton
  concepts : List ClassExpr

namespace Block

def restriction (b : Block) : ClassExpr := .objectAllValuesFrom b.property b.filler

def inclusions (order : ExpressionOrder) (b : Block) : List (List ClassExpr) :=
  InclusionManager.automatonInclusions order b.automaton b.concepts b.filler

/-- The class of each state is a literal over the name that the table has for the state: entry
`p` of the table is for the class with number `first + p`. -/
structure Valid (manager : InclusionManager) (first : ℕ) (table : List (ClassExpr × ℕ))
    (b : Block) : Prop where
  automaton : manager.automataByProperty.lookup b.property = some b.automaton
  length : b.concepts.length = b.automaton.states.length
  named : ∀ (s : ℕ) concept, b.concepts[s]? = some concept → ∃ p : ℕ,
    table[p]? = some (b.restriction, s) ∧
      concept = stateLiteral (isNegativeRestriction b.restriction) (first + p)

theorem Valid.mono {manager : InclusionManager} {first : ℕ} {table table' : List (ClassExpr × ℕ)}
    {b : Block} (h : b.Valid manager first table) (htable : table <+: table') :
    b.Valid manager first table' := by
  refine ⟨h.automaton, h.length, fun s concept hs => ?_⟩
  obtain ⟨p, hp, hconc⟩ := h.named s concept hs
  exact ⟨p, getElem?_isPrefixOf htable hp, hconc⟩

end Block

section states

variable {order} {a : Automaton} {first : ℕ} {key replacement : ClassExpr}
  {table : List (ClassExpr × ℕ)}

/-- The invariant of the loop over the states of an automaton. -/
structure StatesNamed (a : Automaton) (first : ℕ) (key replacement : ClassExpr)
    (table : List (ClassExpr × ℕ)) (c : InclusionManager.StateConcepts) : Prop where
  next : c.nextIndex = first + table.length
  fresh : ∀ A ∈ c.fresh, ∃ n, first ≤ n ∧ A = freshClass n
  named : ∀ (s : ℕ) concept, c.concepts[s]? = some concept → ∃ p : ℕ, table[p]? = some (key, s) ∧
    concept = stateLiteral (isNegativeRestriction key) (first + p)
  initial : ∀ s < c.concepts.length, a.isInitial s = true → c.concepts[s]? = some replacement

variable (order : ExpressionOrder)

theorem StatesNamed.addState {c : InclusionManager.StateConcepts}
    (h : StatesNamed a first key replacement table c)
    (hreplacement : a.isInitial c.concepts.length = true → ∃ p : ℕ, table[p]? = some (key,
      c.concepts.length) ∧ replacement = stateLiteral (isNegativeRestriction key) (first + p))
    (hpolarity : isComplement replacement = isNegativeRestriction key) :
    ∃ table', table <+: table' ∧ StatesNamed a first key replacement table'
      (InclusionManager.addStateConcept order a replacement c c.concepts.length) := by
  -- the concept of the new state is the one at the end of the list
  have hinitials : ∀ concept, (a.isInitial c.concepts.length = true → concept = replacement) →
      ∀ s < (c.concepts ++ [concept]).length, a.isInitial s = true →
        (c.concepts ++ [concept])[s]? = some replacement := by
    intro concept hconc s hlt hs
    rcases Nat.lt_or_ge s c.concepts.length with hlt' | hge
    · rw [getElem?_append_left hlt']
      exact h.initial s hlt' hs
    · obtain rfl : s = c.concepts.length := by
        simp only [length_append, length_singleton] at hlt
        omega
      rw [getElem?_concat_length, hconc hs]
  by_cases hinit : a.isInitial c.concepts.length = true
  · refine ⟨table, prefix_refl table, ?_⟩
    simp only [InclusionManager.addStateConcept, hinit, if_true]
    refine ⟨h.next, h.fresh, fun s concept hs => ?_, hinitials replacement fun _ => rfl⟩
    rcases getElem?_concat_eq_some hs with hs | ⟨rfl, rfl⟩
    · exact h.named s concept hs
    · exact hreplacement hinit
  · refine ⟨table ++ [(key, c.concepts.length)], prefix_append _ _, ?_⟩
    simp only [InclusionManager.addStateConcept, hinit, Bool.false_eq_true, if_false, hpolarity,
      literal_eq_stateLiteral]
    refine ⟨?_, fun A hA => ?_, fun s concept hs => ?_, hinitials _ fun hs => absurd hs hinit⟩
    · simp only [length_append, length_singleton, h.next]
      omega
    · rcases (mem_insertSet _ _ _).mp hA with hA | rfl
      · exact h.fresh A hA
      · exact ⟨c.nextIndex, by rw [h.next]; omega, rfl⟩
    · rcases getElem?_concat_eq_some hs with hs | ⟨rfl, rfl⟩
      · obtain ⟨p, hp, hconc⟩ := h.named s concept hs
        exact ⟨p, getElem?_isPrefixOf (prefix_append _ _) hp, hconc⟩
      · exact ⟨table.length, getElem?_concat_length, by rw [h.next]⟩

theorem length_addStateConcept (a : Automaton) (replacement : ClassExpr)
    (c : InclusionManager.StateConcepts) (s : ℕ) :
    (InclusionManager.addStateConcept order a replacement c s).concepts.length =
      c.concepts.length + 1 := by
  unfold InclusionManager.addStateConcept
  split_ifs <;> simp

theorem length_foldl_addStateConcept (a : Automaton) (replacement : ClassExpr)
    (c : InclusionManager.StateConcepts) (k : ℕ) :
    ((List.range k).foldl (InclusionManager.addStateConcept order a replacement)
      c).concepts.length = c.concepts.length + k := by
  induction k with
  | zero => rfl
  | succ k ih =>
    rw [range_succ, foldl_append, foldl_cons, foldl_nil, length_addStateConcept, ih]
    omega

/-- The loop names every state. -/
theorem exists_statesNamed (hsgl : a.Single) {q : ℕ} (hq : table[q]? = some (key, a.initialState))
    (hreplacement : replacement = stateLiteral (isNegativeRestriction key) (first + q))
    {fresh : List ClassExpr} (hfresh : ∀ A ∈ fresh, ∃ n, first ≤ n ∧ A = freshClass n) (k : ℕ) :
    ∃ table', table <+: table' ∧ StatesNamed a first key replacement table'
      ((List.range k).foldl (InclusionManager.addStateConcept order a replacement)
        ⟨[], first + table.length, fresh⟩) := by
  induction k with
  | zero =>
    refine ⟨table, prefix_refl table, rfl, hfresh, fun s concept hs => ?_, fun s hlt => ?_⟩
    · simp at hs
    · simp at hlt
  | succ k ih =>
    obtain ⟨table', hpre, hnamed⟩ := ih
    rw [range_succ, foldl_append, foldl_cons, foldl_nil]
    have hlen := length_foldl_addStateConcept order a replacement
      ⟨[], first + table.length, fresh⟩ k
    simp only [length_nil, Nat.zero_add] at hlen
    have hstep := hnamed.addState order (fun hinit => ?_) ?_
    · obtain ⟨table'', hpre', hnamed'⟩ := hstep
      rw [hlen] at hnamed'
      exact ⟨table'', hpre.trans hpre', hnamed'⟩
    · rw [(hsgl.initial _).mp hinit]
      exact ⟨q, getElem?_isPrefixOf hpre hq, hreplacement⟩
    · rw [hreplacement, isComplement_stateLiteral]

end states

/-! ## All blocks together -/

section blocks

variable {order} {manager : InclusionManager} {first : ℕ}

/-- The loop over the replaced restrictions, between two rounds. -/
structure BlocksBuilt (order : ExpressionOrder) (manager : InclusionManager) (first : ℕ)
    (replaced : AList fun _ : ClassExpr => ClassExpr) (keys : List ClassExpr)
    (start : List (List ClassExpr)) (table : List (ClassExpr × ℕ)) (blocks : List Block)
    (r : ℕ × List ClassExpr × List (List ClassExpr)) : Prop where
  next : r.1 = first + table.length
  fresh : ∀ A ∈ r.2.1, ∃ n, first ≤ n ∧ A = freshClass n
  inclusions : r.2.2 = start ++ blocks.flatMap (Block.inclusions order)
  valid : ∀ b ∈ blocks, b.Valid manager first table
  initial : ∀ b ∈ blocks, ∀ s, b.automaton.isInitial s = true →
    b.concepts[s]? = replaced.lookup b.restriction
  origin : ∀ b ∈ blocks, b.restriction ∈ keys
  built : ∀ key ∈ keys, ∃ b ∈ blocks, b.restriction = key

variable {start : List (List ClassExpr)} {keys : List ClassExpr} {blocks : List Block}

theorem BlocksBuilt.encodeRestriction {replaced : AList fun _ : ClassExpr => ClassExpr}
    {table : List (ClassExpr × ℕ)} {r : ℕ × List ClassExpr × List (List ClassExpr)}
    (h : BlocksBuilt order manager first replaced keys start table blocks r)
    (hsgl : ∀ r a, manager.automataByProperty.lookup r = some a → a.Single)
    {ope : ObjectPropExpr} {bce : ClassExpr} {a : Automaton}
    (ha : manager.automataByProperty.lookup ope = some a) {q : ℕ}
    (hq : table[q]? = some (.objectAllValuesFrom ope bce, a.initialState))
    (hrepl : replaced.lookup (.objectAllValuesFrom ope bce) =
      some (stateLiteral (isNegativeRestriction (.objectAllValuesFrom ope bce)) (first + q))) :
    ∃ table' blocks', table <+: table' ∧
      BlocksBuilt order manager first replaced (keys ++ [.objectAllValuesFrom ope bce]) start table'
        blocks' (manager.encodeRestriction order replaced r (.objectAllValuesFrom ope bce)) := by
  obtain ⟨table', hpre, hnamed⟩ := exists_statesNamed order (hsgl ope a ha) hq rfl
    h.fresh a.states.length
  have hlen := length_foldl_addStateConcept order a
    (stateLiteral (isNegativeRestriction (.objectAllValuesFrom ope bce)) (first + q))
    ⟨[], first + table.length, r.2.1⟩ a.states.length
  rw [← h.next] at hnamed hlen
  simp only [length_nil, Nat.zero_add] at hlen
  simp only [InclusionManager.encodeRestriction, ha, hrepl]
  revert hnamed hlen
  generalize (List.range a.states.length).foldl (InclusionManager.addStateConcept order a
    (stateLiteral (isNegativeRestriction (.objectAllValuesFrom ope bce)) (first + q)))
    ⟨[], r.1, r.2.1⟩ = c
  intro hnamed hlen
  let b : Block := ⟨ope, bce, a, c.concepts⟩
  refine ⟨table', blocks ++ [b], hpre, hnamed.next, hnamed.fresh, ?_, ?_, ?_, ?_, ?_⟩
  · simp [h.inclusions, b, Block.inclusions]
  · intro b' hb'
    rcases mem_append.mp hb' with hb' | hb'
    · exact (h.valid b' hb').mono hpre
    · rw [mem_singleton.mp hb']
      exact ⟨ha, hlen, hnamed.named⟩
  · intro b' hb' s hs
    rcases mem_append.mp hb' with hb' | hb'
    · exact h.initial b' hb' s hs
    · rw [mem_singleton.mp hb'] at hs ⊢
      have hlt : s < c.concepts.length := by
        rw [hlen]
        exact Automaton.isInitial_lt hs
      exact (hnamed.initial s hlt hs).trans hrepl.symm
  · intro b' hb'
    rcases mem_append.mp hb' with hb' | hb'
    · exact mem_append_left _ (h.origin b' hb')
    · rw [mem_singleton.mp hb']
      exact mem_append_right _ (mem_singleton.mpr rfl)
  · intro key hkey
    rcases mem_append.mp hkey with hkey | hkey
    · obtain ⟨b', hb', heq⟩ := h.built key hkey
      exact ⟨b', mem_append_left _ hb', heq⟩
    · exact ⟨b, mem_append_right _ (mem_singleton.mpr rfl), (mem_singleton.mp hkey).symm⟩

/-- The initial state of the automaton of a restriction. -/
def initialStateOf (manager : InclusionManager) : ClassExpr → ℕ
  | .objectAllValuesFrom ope _ =>
    ((manager.automataByProperty.lookup ope).map Automaton.initialState).getD 0
  | _ => 0

theorem exists_blocksBuilt {rep : Replacements} (hrep : rep.Valid manager first)
    (hsgl : ∀ r a, manager.automataByProperty.lookup r = some a → a.Single)
    (rest : List ClassExpr)
    (horder : rep.replacementOrder = keys ++ rest) {table : List (ClassExpr × ℕ)}
    (htable : (rep.replacementOrder.map fun key => (key, initialStateOf manager key)) <+: table)
    {r : ℕ × List ClassExpr × List (List ClassExpr)}
    (h : BlocksBuilt order manager first rep.replacedDescriptions keys start table blocks r) :
    ∃ table' blocks', BlocksBuilt order manager first rep.replacedDescriptions
      rep.replacementOrder start table' blocks'
      (rest.foldl (manager.encodeRestriction order rep.replacedDescriptions) r) := by
  induction rest generalizing keys table blocks r with
  | nil =>
    rw [append_nil] at horder
    exact ⟨table, blocks, horder ▸ h⟩
  | cons key rest ih =>
    have hkey : rep.replacementOrder[keys.length]? = some key := by
      rw [horder, getElem?_append_right le_rfl]
      simp
    obtain ⟨negative, hmatch⟩ := Option.isSome_iff_exists.mp (hrep.found key (mem_of_getElem? hkey))
    obtain ⟨ope, bce, a, rfl, -, ha, -⟩ := allValuesMatch_eq_some hmatch
    have hq : table[keys.length]? = some (.objectAllValuesFrom ope bce, a.initialState) := by
      refine getElem?_isPrefixOf htable ?_
      rw [getElem?_map, hkey]
      simp [initialStateOf, ha]
    have hrepl := (hrep.lookup _ _).mpr ⟨keys.length, hkey, rfl⟩
    obtain ⟨table', blocks', hpre, hbuilt⟩ := h.encodeRestriction hsgl ha hq hrepl
    exact ih (by rw [horder, append_assoc]; rfl) (htable.trans hpre) hbuilt

/-- The inclusions of an encoding: the given ones with their restrictions replaced, and a block
for each restriction. -/
structure Encodes (order : ExpressionOrder) (manager : InclusionManager)
    (complex : List ObjectPropExpr) (first : ℕ) (original : List (List ClassExpr))
    (table : List (ClassExpr × ℕ)) (blocks : List Block)
    (encoded : List (List ClassExpr)) (fresh : List ClassExpr) : Prop where
  inclusions : ∃ replaced, encoded = replaced ++ blocks.flatMap (Block.inclusions order) ∧
    List.Forall₂ (List.Forall₂ fun d d' => checkDisjunct complex d = .ok () ∧
      (manager.allValuesMatch d = none ∧ d' = d ∨ ∃ b ∈ blocks, b.restriction = d ∧
        b.concepts[b.automaton.initialState]? = some d')) original replaced
  valid : ∀ b ∈ blocks, b.Valid manager first table
  origin : ∀ b ∈ blocks, ∃ e ∈ original, b.restriction ∈ e
  fresh : ∀ A ∈ fresh, ∃ n, first ≤ n ∧ A = freshClass n

theorem exists_encodes {complex : List ObjectPropExpr} {original : List (List ClassExpr)}
    {result : List (List ClassExpr) × List ClassExpr}
    (hsgl : ∀ r a, manager.automataByProperty.lookup r = some a → a.Single)
    (hok : manager.encodeInclusions order complex original first = .ok result) :
    ∃ table blocks, Encodes order manager complex first original table blocks result.1 result.2 :=
  by
  obtain ⟨⟨replaced, rep⟩, hreplace, hok⟩ := ok_of_bind hok
  cases hok
  have hemp : Replacements.Valid manager first { nextIndex := first } :=
    ⟨rfl, by simp, by simp, by simp⟩
  obtain ⟨hrep, hext, hall⟩ := replaceInclusions_spec hemp hreplace
  dsimp only at hrep hext hall ⊢
  have hst : BlocksBuilt order manager first rep.replacedDescriptions [] replaced
      (rep.replacementOrder.map fun key => (key, initialStateOf manager key)) []
      (rep.nextIndex, rep.fresh, replaced) :=
    ⟨by simp [hrep.next], hrep.fresh, by simp, by simp, by simp, by simp, by simp⟩
  obtain ⟨table, blocks, hbuilt⟩ := exists_blocksBuilt hrep hsgl rep.replacementOrder rfl
    (prefix_refl _) hst
  refine ⟨table, blocks, ⟨replaced, hbuilt.inclusions, ?_⟩, hbuilt.valid, fun b hb => ?_,
    hbuilt.fresh⟩
  · refine hall.imp fun e e' he => he.imp fun d d' hd => ⟨hd.1, hd.2.imp_right fun hlook => ?_⟩
    obtain ⟨p, hp, -⟩ := (hrep.lookup d d').mp hlook
    obtain ⟨b, hb, rfl⟩ := hbuilt.built d (mem_of_getElem? hp)
    have hinit := ((hsgl _ _ (hbuilt.valid b hb).automaton).initial _).mpr rfl
    exact ⟨b, hb, rfl, (hbuilt.initial b hb _ hinit).trans hlook⟩
  · rcases hext.origin _ (hbuilt.origin b hb) with hmem | hmem
    · simp at hmem
    · exact mem_flatten.mp hmem

end blocks

section meaning

variable {Dom Val : Type*} {order} {manager : InclusionManager} {first : ℕ}
  {table : List (ClassExpr × ℕ)} {b : Block}

/-- The points in the class of a state. -/
def Block.points (b : Block) (J : Interp Dom Val) (s : ℕ) : Set Dom :=
  J.expr (stateConcept b.concepts s)

variable {s : ℕ}

section

variable (h : b.Valid manager first table)
include h

theorem Block.Valid.exists_literal (hs : s < b.automaton.states.length) :
    ∃ p : ℕ, table[p]? = some (b.restriction, s) ∧ stateConcept b.concepts s =
        stateLiteral (isNegativeRestriction b.restriction) (first + p) := by
  rw [← h.length] at hs
  obtain ⟨p, hp, hconc⟩ := h.named s _ (getElem?_eq_getElem hs)
  refine ⟨p, hp, ?_⟩
  rw [stateConcept, getD_eq_getElem?_getD, getElem?_eq_getElem hs]
  exact hconc

theorem Block.Valid.mem_complement (hs : s < b.automaton.states.length) (J : Interp Dom Val)
    (x : Dom) :
    x ∈ J.expr (order.getComplementNnf (stateConcept b.concepts s)) ↔ x ∉ b.points J s := by
  obtain ⟨p, -, hconc⟩ := h.exists_literal hs
  rw [Block.points, hconc, getComplementNnf_stateLiteral]
  cases isNegativeRestriction b.restriction <;> simp [stateLiteral]

/-- A transition with this label leads from the point into the set only. -/
def Interp.LeadsInto (J : Interp Dom Val) (label : Option ObjectPropExpr) (x : Dom)
    (target : Set Dom) : Prop :=
  match label with
  | none => x ∈ target
  | some label => ∀ y, J.role label x y → y ∈ target

/-- The inclusions of a block say that its transitions carry the classes of the states into
each other, and that the class of the terminal state lies below the filler. -/
theorem Block.Valid.coversAll_iff (hsgl : b.automaton.Single) (J : Interp Dom Val) :
    J.CoversAll (b.inclusions order) ↔ Propagates b.automaton.toNFA J.role (b.points J) ∧
        b.points J b.automaton.finalState ⊆ J.expr b.filler := by
  have hfinal : b.automaton.finalState < b.automaton.states.length :=
    Automaton.isTerminal_lt ((hsgl.terminal _).mpr rfl)
  have htrans : ∀ t ∈ b.automaton.transitions, (J.covers (transitionInclusion order b.concepts t) ↔
        ∀ x ∈ b.points J t.start, J.LeadsInto t.label x (b.points J t.stop)) := by
    intro t ht
    have hst := (hsgl.wellFormed t ht).1
    unfold transitionInclusion
    cases t.label with
    | none | some label =>
      rw [covers_pair]
      refine forall_congr' fun x => ?_
      rw [h.mem_complement hst, ← imp_iff_not_or]
      rfl
  have hterm : J.covers (finalInclusion order b.concepts b.filler
      b.automaton.finalState) ↔ b.points J b.automaton.finalState ⊆ J.expr b.filler := by
    unfold finalInclusion
    split_ifs with hnone
    · refine forall_congr' fun x => ?_
      simp only [mem_singleton, exists_eq_left, h.mem_complement hfinal]
      exact ⟨fun hx hx' => absurd hx' hx, fun himp hx =>
          notMem_of_isOwlNothing J hnone x (himp hx)⟩
    · rw [covers_pair]
      refine forall_congr' fun x => ?_
      rw [h.mem_complement hfinal, ← imp_iff_not_or]
  constructor
  · intro hcov
    have hall : ∀ t ∈ b.automaton.transitions, _ := fun t ht => (htrans t ht).mp
      (hcov _ (mem_append_left _ (mem_map.mpr ⟨t, ht, rfl⟩)))
    refine ⟨⟨fun s s' hstep x hx => ?_, fun s label s' hstep x hx => ?_⟩, hterm.mp ?_⟩
    · exact hall _ ((Automaton.mem_toNFA_step s s' none).mp hstep) x hx
    · exact hall _ ((Automaton.mem_toNFA_step s s' (some label)).mp hstep) x hx
    · refine hcov _ (mem_append_right _ (mem_map.mpr ⟨_, ?_, rfl⟩))
      rw [Automaton.mem_terminals]
      exact (hsgl.terminal _).mpr rfl
  · rintro ⟨hpropagates, hsub⟩ e he
    rcases mem_append.mp he with he | he
    · obtain ⟨t, ht, rfl⟩ := mem_map.mp he
      refine (htrans t ht).mpr fun x hx => ?_
      have hstep : t.stop ∈ b.automaton.toNFA.step t.start t.label :=
        (Automaton.mem_toNFA_step _ _ _).mpr ht
      cases hlab : t.label with
      | none =>
        rw [hlab] at hstep
        exact hpropagates.silent t.start t.stop hstep hx
      | some label =>
        rw [hlab] at hstep
        exact hpropagates.letter t.start label t.stop hstep x hx
    · obtain ⟨s, hs, rfl⟩ := mem_map.mp he
      rw [Automaton.mem_terminals, hsgl.terminal] at hs
      rw [hs]
      exact hterm.mpr hsub

end

/-! ## A model of the role box becomes a model of the encoding -/

/-- The points from which every word that leads from the state to the terminal one leads into
the filler. -/
def Interp.stateSet (I : Interp Dom Val) (manager : InclusionManager) : ClassExpr × ℕ → Set Dom
  | (.objectAllValuesFrom ope bce, s) =>
    match manager.automataByProperty.lookup ope with
    | some a => guarded a.toNFA a.finalState I.role (I.expr bce) s
    | none => ∅
  | _ => ∅

/-- The points that the class of a state gets, by the polarity of its literals. -/
def Interp.statePoints (I : Interp Dom Val) (manager : InclusionManager) (entry : ClassExpr × ℕ) :
    Set Dom :=
  if isNegativeRestriction entry.1 then (I.stateSet manager entry)ᶜ else I.stateSet manager entry

/-- The interpretation that reads the classes of the states by the table. -/
def Interp.withStates (I : Interp Dom Val) (manager : InclusionManager) (first : ℕ)
    (table : List (ClassExpr × ℕ)) : Interp Dom Val :=
  I.withClasses (fun c => {x | (∃ p entry, c = allName (first + p) ∧ table[p]? = some entry ∧
      x ∈ I.statePoints manager entry) ∨ (∀ p, c ≠ allName (first + p)) ∧ x ∈ I.classes c})
    (by simp [I.classes_thing, (allName_ne_thing _).symm])
    (by simp [I.classes_nothing, (allName_ne_nothing _).symm])

variable {I : Interp Dom Val}

/-- A name that the encoding does not introduce. -/
def IsGiven (first : ℕ) (c : Iri) : Prop := ∀ p, c ≠ allName (first + p)

theorem Interp.agreeOn_withStates :
    I.AgreeOn (I.withStates manager first table) (IsGiven first) := by
  refine ⟨fun c hc => ?_, rfl⟩
  ext x
  constructor
  · intro hx
    exact .inr ⟨hc, hx⟩
  · rintro (⟨p, entry, rfl, -, -⟩ | ⟨-, hx⟩)
    · exact absurd rfl (hc p)
    · exact hx

variable {simple : List Inclusion}

/-- Only the classes may differ, so the simple inclusions hold as before. -/
theorem Interp.RespectsSimple.of_agreeOn {J : Interp Dom Val}
    (h : I.RespectsSimple simple) {given : Iri → Prop} (hagr : I.AgreeOn J given) :
    J.RespectsSimple simple := by
  intro i hi x y hxy
  exact (hagr.role i.2 x y).mp (h i hi x y ((hagr.role i.1 x y).mpr hxy))

theorem Interp.mem_stateLiteral_withStates {p : ℕ} {key : ClassExpr}
    (hp : table[p]? = some (key, s)) (x : Dom) :
    x ∈ (I.withStates manager first table).expr
    (stateLiteral (isNegativeRestriction key) (first + p)) ↔ x ∈ I.stateSet manager (key, s) := by
  have hcls : x ∈ (I.withStates manager first table).expr (freshClass (first + p)) ↔
      x ∈ I.statePoints manager (key, s) := by
    constructor
    · rintro (⟨q, entry, hq, hent, hx⟩ | ⟨hne, -⟩)
      · obtain rfl : p = q := by
          have hname := allName_inj.mp hq
          omega
        obtain rfl := Option.some.inj (hent.symm.trans hp)
        exact hx
      · exact absurd rfl (hne p)
    · intro hx
      exact .inl ⟨p, _, rfl, hp, hx⟩
  unfold stateLiteral
  unfold Interp.statePoints at hcls
  cases hneg : isNegativeRestriction key with
  | false => simpa [hneg] using hcls
  | true =>
    simp only [hneg, if_true, Set.mem_compl_iff] at hcls ⊢
    rw [Interp.mem_expr_complement, hcls, not_not]

theorem Block.Valid.points_withStates (h : b.Valid manager first table)
    (hs : s < b.automaton.states.length) : b.points (I.withStates manager first table) s =
      guarded b.automaton.toNFA b.automaton.finalState I.role (I.expr b.filler) s := by
  obtain ⟨p, hp, hconc⟩ := h.exists_literal hs
  ext x
  rw [Block.points, hconc, Interp.mem_stateLiteral_withStates hp]
  simp only [Block.restriction, Interp.stateSet, h.automaton]

/-- The block of a restriction holds in a model of the role box, and the class of the initial
state has all points in the restriction. -/
theorem Block.Valid.coversAll_withStates (h : b.Valid manager first table)
    (hsgl : b.automaton.Single) (hfill : ClassesOver (IsGiven first) b.filler) :
    (I.withStates manager first table).CoversAll (b.inclusions order) := by
  have hagr : I.AgreeOn (I.withStates manager first table) (IsGiven first) :=
    Interp.agreeOn_withStates
  have hstates : ∀ s l s', s' ∈ b.automaton.toNFA.step s l →
      s < b.automaton.states.length ∧ s' < b.automaton.states.length := by
    intro s l s' hstep
    exact hsgl.wellFormed _ ((Automaton.mem_toNFA_step s s' l).mp hstep)
  have hguarded := propagates_guarded b.automaton.toNFA b.automaton.finalState I.role
    (I.expr b.filler)
  refine (h.coversAll_iff hsgl _).mpr ⟨⟨?_, ?_⟩, ?_⟩
  · intro s s' hstep
    rw [h.points_withStates (hstates s none s' hstep).1,
      h.points_withStates (hstates s none s' hstep).2]
    exact hguarded.silent s s' hstep
  · intro s label s' hstep x hx y hy
    rw [h.points_withStates (hstates s _ s' hstep).1] at hx
    rw [h.points_withStates (hstates s _ s' hstep).2]
    exact hguarded.letter s label s' hstep x hx y ((hagr.role label x y).mpr hy)
  · rw [h.points_withStates (Automaton.isTerminal_lt ((hsgl.terminal _).mpr rfl))]
    intro x hx
    exact (hagr.mem_expr_of_classesOver hfill x).mp (guarded_subset _ _ _ _ hx)

/-- In a model of the role box the classes of the states make all inclusions of the encoding
true. -/
theorem Encodes.coversAll_withStates {chains : List Chain}
    {complex : List ObjectPropExpr} {original encoded : List (List ClassExpr)} {blocks : List Block}
    {fresh : List ClassExpr} (hreads : manager.Reads simple chains)
    (henc : Encodes order manager complex first original table blocks encoded fresh)
    (hgiven : ∀ e ∈ original, ∀ d ∈ e, ClassesOver (IsGiven first) d)
    (hsim : I.RespectsSimple simple) (hchains : I.RespectsChains chains)
    (hI : I.CoversAll original) : (I.withStates manager first table).CoversAll encoded := by
  have hagr : I.AgreeOn (I.withStates manager first table) (IsGiven first) :=
    Interp.agreeOn_withStates
  obtain ⟨replaced, rfl, hrepl⟩ := henc.inclusions
  intro e' he'
  rcases mem_append.mp he' with he' | he'
  · obtain ⟨e, he, hds⟩ := exists_of_forall₂_right hrepl he'
    intro x
    obtain ⟨d, hd, hx⟩ := hI e he x
    obtain ⟨d', hd', -, ⟨-, rfl⟩ | ⟨b, hb, rfl, hinit⟩⟩ := exists_of_forall₂_left hds hd
    · exact ⟨d', hd', (hagr.mem_expr_of_classesOver (hgiven e he d' hd) x).mp hx⟩
    · refine ⟨d', hd', ?_⟩
      have hval := henc.valid b hb
      have hsgl := hreads.single _ _ hval.automaton
      obtain ⟨p, hp, rfl⟩ := hval.named _ _ hinit
      rw [Interp.mem_stateLiteral_withStates hp]
      simp only [Block.restriction, Interp.stateSet, hval.automaton]
      intro w hw y hy
      exact hx y (hsim.role_of_mem_language hchains hreads hval.automaton
        (hsgl.mem_language.mpr hw) hy)
  · obtain ⟨b, hb, he'⟩ := mem_flatMap.mp he'
    have hval := henc.valid b hb
    obtain ⟨e, he, hmem⟩ := henc.origin b hb
    exact hval.coversAll_withStates (hreads.single _ _ hval.automaton)
      (hgiven e he b.restriction hmem) e' he'

end meaning

end Hermit
