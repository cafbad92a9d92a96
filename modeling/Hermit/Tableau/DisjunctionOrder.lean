import Hermit.Library.Pointwise
import Hermit.Model.Predicate

/-! # The order of the disjuncts of a ground disjunction

A header keeps the disjuncts in three partitions: those that are no at-least concepts, the at-least
concepts over negated atomic concepts, and the other ones.  A disjunct whose choice failed moves to
the right in its partition, past the disjuncts that failed less often.
-/

namespace Hermit

open List Option

structure DisjunctIndexWithBacktrackings where
  disjunctIndex : ℕ
  numberOfBacktrackings : Int32
deriving DecidableEq, Repr

structure GroundDisjunctionHeader where
  dlPredicates : List DLPredicate
  disjunctStart : List ℕ
  disjunctIndexesWithBacktrackings : List DisjunctIndexWithBacktrackings
  firstAtLeastPositiveIndex : ℕ
  firstAtLeastNegativeIndex : ℕ
deriving DecidableEq

/-- Whether an at-least concept is over a negated atomic concept; other predicates are not asked. -/
def isAtLeastOverNegatedAtomic : DLPredicate → Option Bool
  | .atLeastConcept atLeast =>
    some (match atLeast.toConcept with
      | .atomicNegationConcept _ => true
      | .atomicConcept _ => false)
  | _ => none

/-- The partition of a disjunct. -/
def DLPredicate.partition (predicate : DLPredicate) : ℕ :=
  match isAtLeastOverNegatedAtomic predicate with
  | none => 0
  | some true => 1
  | some false => 2

namespace GroundDisjunctionHeader

/-! ## Building a header -/

def disjunctStarts : List DLPredicate → ℕ → List ℕ
  | [], _ => []
  | predicate :: dlPredicates, argumentsSize =>
    argumentsSize :: disjunctStarts dlPredicates (argumentsSize + predicate.arity)

/-- Fill a slot that has to be there. -/
def fillSlot (slots : List (Option DisjunctIndexWithBacktrackings)) (i : ℕ)
    (entry : DisjunctIndexWithBacktrackings) :
    Option (List (Option DisjunctIndexWithBacktrackings)) :=
  if i < slots.length then some (slots.set i (some entry)) else none

/-- Put every disjunct into the next slot of its partition. -/
def fillSlots : List DLPredicate → ℕ → (nextAtomic nextAtLeastNegative nextAtLeastPositive : ℕ) →
    List (Option DisjunctIndexWithBacktrackings) →
    Option (List (Option DisjunctIndexWithBacktrackings))
  | [], _, _, _, _, slots => some slots
  | predicate :: dlPredicates, index, nextAtomic, nextAtLeastNegative, nextAtLeastPositive, slots =>
    match isAtLeastOverNegatedAtomic predicate with
    | some true => do
      let slots ← fillSlot slots nextAtLeastNegative ⟨index, 0⟩
      fillSlots dlPredicates (index + 1) nextAtomic (nextAtLeastNegative + 1)
        nextAtLeastPositive slots
    | some false => do
      let slots ← fillSlot slots nextAtLeastPositive ⟨index, 0⟩
      fillSlots dlPredicates (index + 1) nextAtomic nextAtLeastNegative
        (nextAtLeastPositive + 1) slots
    | none => do
      let slots ← fillSlot slots nextAtomic ⟨index, 0⟩
      fillSlots dlPredicates (index + 1) (nextAtomic + 1) nextAtLeastNegative
        nextAtLeastPositive slots

/-- A slot that stays empty is an error. -/
def new (dlPredicates : List DLPredicate) : Option GroundDisjunctionHeader := do
  let numberOfAtLeastPositive := dlPredicates.countP fun predicate =>
      isAtLeastOverNegatedAtomic predicate = some false
  let numberOfAtLeastNegative := dlPredicates.countP fun predicate =>
      isAtLeastOverNegatedAtomic predicate = some true
  let length := dlPredicates.length
  let firstAtLeastNegativeIndex := length - numberOfAtLeastPositive - numberOfAtLeastNegative
  let firstAtLeastPositiveIndex := length - numberOfAtLeastPositive
  let slots ← fillSlots dlPredicates 0 0 firstAtLeastNegativeIndex firstAtLeastPositiveIndex
    (List.replicate length none)
  let entries ← slots.mapM id
  return ⟨dlPredicates, disjunctStarts dlPredicates 0, entries, firstAtLeastPositiveIndex,
    firstAtLeastNegativeIndex⟩

/-! ## Learning -/

variable (h : GroundDisjunctionHeader)

def getSortedDisjunctIndexes : List ℕ := h.disjunctIndexesWithBacktrackings.map (·.disjunctIndex)

/-- The number that is stored for a disjunct. -/
def backtrackingsOf (disjunctIndex : ℕ) : Option Int32 :=
  (h.disjunctIndexesWithBacktrackings.find? (·.disjunctIndex = disjunctIndex)).map
    (·.numberOfBacktrackings)

/-- The first disjunct is in an earlier partition, or in the same one with no more backtrackings. -/
def Before (i j : ℕ) : Prop :=
  ∃ p q, h.dlPredicates[i]? = some p ∧ h.dlPredicates[j]? = some q ∧ ∃ c d,
    h.backtrackingsOf i = some c ∧ h.backtrackingsOf j = some d ∧
    (p.partition < q.partition ∨ p.partition = q.partition ∧ c ≤ d)

/-- All disjuncts in order. -/
structure Sorted : Prop where
  perm : h.getSortedDisjunctIndexes.Perm (List.range h.dlPredicates.length)
  ordered : h.getSortedDisjunctIndexes.Pairwise h.Before

/-- Swap an entry with the next one while that has fewer backtrackings; so many entries of the
partition come behind it. -/
def moveRight : ℕ → ℕ → List DisjunctIndexWithBacktrackings →
    Option (List DisjunctIndexWithBacktrackings)
  | 0, _, entries => some entries
  | behind + 1, currentIndex, entries => do
    let current ← entries[currentIndex]?
    let next ← entries[currentIndex + 1]?
    if next.numberOfBacktrackings < current.numberOfBacktrackings then
      moveRight behind (currentIndex + 1)
        ((entries.set currentIndex next).set (currentIndex + 1) current)
    else return entries

def partitionEnd (index : ℕ) : ℕ :=
  if index < h.firstAtLeastNegativeIndex then h.firstAtLeastNegativeIndex
  else if index < h.firstAtLeastPositiveIndex then h.firstAtLeastPositiveIndex
  else h.disjunctIndexesWithBacktrackings.length

def increaseNumberOfBacktrackings (disjunctIndex : ℕ) : Option GroundDisjunctionHeader :=
  match h.disjunctIndexesWithBacktrackings.findIdx? (·.disjunctIndex = disjunctIndex) with
  | none => some h
  | some index => do
    let entry ← h.disjunctIndexesWithBacktrackings[index]?
    let entries := h.disjunctIndexesWithBacktrackings.set index
      { entry with numberOfBacktrackings := entry.numberOfBacktrackings + 1 }
    let entries ← moveRight (h.partitionEnd index - (index + 1)) index entries
    return { h with disjunctIndexesWithBacktrackings := entries }

/-! ## The slots -/

/-- The disjuncts of a partition, in order, before any backtracking. -/
def initialEntries (partition : ℕ) (dlPredicates : List DLPredicate) (index : ℕ) :
    List DisjunctIndexWithBacktrackings :=
  ((dlPredicates.zipIdx index).filter fun p => p.1.partition = partition).map fun p => ⟨p.2, 0⟩

variable {predicate : DLPredicate}

theorem initialEntries_cons_self {partition : ℕ}
    (hpartition : predicate.partition = partition) (dlPredicates : List DLPredicate) (index : ℕ) :
    initialEntries partition (predicate :: dlPredicates) index =
      ⟨index, 0⟩ :: initialEntries partition dlPredicates (index + 1) := by
  simp [initialEntries, hpartition]

theorem initialEntries_cons_ne {partition : ℕ}
    (hpartition : predicate.partition ≠ partition) (dlPredicates : List DLPredicate) (index : ℕ) :
    initialEntries partition (predicate :: dlPredicates) index =
      initialEntries partition dlPredicates (index + 1) := by
  simp [initialEntries, hpartition]

theorem length_initialEntries (partition : ℕ) (dlPredicates : List DLPredicate) (index : ℕ) :
    (initialEntries partition dlPredicates index).length = dlPredicates.countP fun p =>
        p.partition = partition := by
  induction dlPredicates generalizing index with
  | nil => rfl
  | cons predicate dlPredicates ih =>
    rw [countP_cons]
    by_cases hpartition : predicate.partition = partition
    · rw [initialEntries_cons_self hpartition, length_cons, ih]
      simp [hpartition]
    · rw [initialEntries_cons_ne hpartition, ih]
      simp [hpartition]

theorem fillSlot_append {slots front back : List (Option DisjunctIndexWithBacktrackings)} {i : ℕ}
    (hslots : slots = front ++ none :: back) (hi : i = front.length)
    (entry : DisjunctIndexWithBacktrackings) :
    fillSlot slots i entry = some (front ++ some entry :: back) := by
  subst hslots hi
  rw [fillSlot, if_pos (by simp)]
  simp

/-- Slots of a partition: those that are filled, and one for each disjunct that is left. -/
def partlyFilled (entries left : List DisjunctIndexWithBacktrackings) :
    List (Option DisjunctIndexWithBacktrackings) :=
  entries.map some ++ left.map fun _ => none

theorem partlyFilled_cons (entries left : List DisjunctIndexWithBacktrackings)
    (entry : DisjunctIndexWithBacktrackings) :
    partlyFilled entries (entry :: left) = entries.map some ++ none :: left.map fun _ => none := rfl

@[simp] theorem length_partlyFilled (entries left : List DisjunctIndexWithBacktrackings) :
    (partlyFilled entries left).length = entries.length + left.length := by
  simp [partlyFilled]

/-- All slots are filled, each partition with its disjuncts in order. -/
theorem fillSlots_spec (dlPredicates : List DLPredicate) (index : ℕ)
    (atomic negative positive : List DisjunctIndexWithBacktrackings)
    {nextAtomic nextNegative nextPositive : ℕ}
    {slots : List (Option DisjunctIndexWithBacktrackings)}
    (hslots : slots = partlyFilled atomic (initialEntries 0 dlPredicates index) ++
      (partlyFilled negative (initialEntries 1 dlPredicates index) ++
        partlyFilled positive (initialEntries 2 dlPredicates index)))
    (hatm : nextAtomic = atomic.length)
    (hneg : nextNegative = atomic.length + (initialEntries 0 dlPredicates index).length +
      negative.length)
    (hpos : nextPositive = atomic.length + (initialEntries 0 dlPredicates index).length +
      negative.length + (initialEntries 1 dlPredicates index).length + positive.length) :
    fillSlots dlPredicates index nextAtomic nextNegative nextPositive slots =
      some ((atomic ++ initialEntries 0 dlPredicates index ++
        (negative ++ initialEntries 1 dlPredicates index ++
        (positive ++ initialEntries 2 dlPredicates index))).map some) := by
  induction dlPredicates generalizing index atomic negative positive nextAtomic nextNegative
    nextPositive slots with
  | nil =>
    rw [fillSlots, hslots]
    simp [partlyFilled, initialEntries]
  | cons predicate dlPredicates ih =>
    rw [fillSlots]
    split
    · rename_i hkind
      have hpartition : predicate.partition = 1 := by rw [DLPredicate.partition, hkind]
      rw [initialEntries_cons_self hpartition,
        initialEntries_cons_ne (by omega : predicate.partition ≠ 0)] at *
      rw [initialEntries_cons_ne (by omega : predicate.partition ≠ 2)] at *
      rw [partlyFilled_cons, append_assoc, ← append_assoc (partlyFilled _ _)] at hslots
      rw [fillSlot_append hslots (by simp; omega), bind_eq_bind, bind_some]
      rw [ih (index + 1) atomic (negative ++ [⟨index, 0⟩]) positive ?_ hatm ?_ ?_]
      · simp
      · simp [partlyFilled]
      · simp
        omega
      · rw [hpos]
        simp
        omega
    · rename_i hkind
      have hpartition : predicate.partition = 2 := by rw [DLPredicate.partition, hkind]
      rw [initialEntries_cons_self hpartition,
        initialEntries_cons_ne (by omega : predicate.partition ≠ 0)] at *
      rw [initialEntries_cons_ne (by omega : predicate.partition ≠ 1)] at *
      rw [partlyFilled_cons, ← append_assoc, ← append_assoc] at hslots
      rw [fillSlot_append hslots (by simp; omega), bind_eq_bind, bind_some]
      rw [ih (index + 1) atomic negative (positive ++ [⟨index, 0⟩]) ?_ hatm hneg ?_]
      · simp
      · simp [partlyFilled]
      · simp
        omega
    · rename_i hkind
      have hpartition : predicate.partition = 0 := by rw [DLPredicate.partition, hkind]
      rw [initialEntries_cons_self hpartition,
        initialEntries_cons_ne (by omega : predicate.partition ≠ 1)] at *
      rw [initialEntries_cons_ne (by omega : predicate.partition ≠ 2)] at *
      rw [partlyFilled_cons, append_assoc, cons_append] at hslots
      rw [fillSlot_append hslots (by simp; omega), bind_eq_bind, bind_some]
      rw [ih (index + 1) (atomic ++ [⟨index, 0⟩]) negative positive ?_ ?_ ?_ ?_]
      · simp
      · simp [partlyFilled]
      · simp
        omega
      · simp at hneg ⊢
        omega
      · simp at hpos ⊢
        omega

/-- An entry has at most as many backtrackings as another one. -/
def atMost (e e' : DisjunctIndexWithBacktrackings) : Prop :=
  e.numberOfBacktrackings ≤ e'.numberOfBacktrackings

instance (e e' : DisjunctIndexWithBacktrackings) : Decidable (atMost e e') :=
  inferInstanceAs (Decidable (e.numberOfBacktrackings ≤ e'.numberOfBacktrackings))

instance : Std.Total atMost :=
  ⟨fun e e' => Int32.le_total e.numberOfBacktrackings e'.numberOfBacktrackings⟩

instance : IsTrans DisjunctIndexWithBacktrackings atMost := ⟨fun _ _ _ h h' => Int32.le_trans h h'⟩

/-- The entry is inserted in order among those of its partition behind it. -/
theorem moveRight_spec (front back behind : List DisjunctIndexWithBacktrackings)
    (entry : DisjunctIndexWithBacktrackings) :
    moveRight behind.length front.length (front ++ entry :: (behind ++ back)) =
      some (front ++ (behind.orderedInsert atMost entry ++ back)) := by
  induction behind generalizing front with
  | nil => rfl
  | cons next behind ih =>
    have hcur : (front ++ entry :: (next :: behind ++ back))[front.length]? = some entry := by simp
    have hnext : (front ++ entry :: (next :: behind ++ back))[front.length + 1]? = some next := by
      rw [getElem?_append_right (Nat.le_add_right _ _), Nat.add_sub_cancel_left]
      rfl
    rw [length_cons, moveRight, hcur, hnext, bind_eq_bind, bind_some, bind_some, orderedInsert_cons]
    by_cases hlt : next.numberOfBacktrackings < entry.numberOfBacktrackings
    · have hswap : ((front ++ entry :: (next :: behind ++ back)).set front.length next).set
        (front.length + 1) entry = (front ++ [next]) ++ entry :: (behind ++ back) := by simp
      have hrest := ih (front ++ [next])
      rw [length_append, length_singleton] at hrest
      have hnot : ¬ atMost entry next := Int32.not_le.mpr hlt
      rw [if_pos hlt, if_neg hnot, hswap, hrest]
      simp
    · have hle : atMost entry next := Int32.not_lt.mp hlt
      rw [if_neg hlt, if_pos hle]
      rfl

/-- Insertion behind entries that are ordered keeps the order. -/
theorem pairwise_orderedInsert {front behind : List DisjunctIndexWithBacktrackings}
    {disjunctIndex : ℕ} {count : Int32} (hcount : count ≤ count + 1)
    (h : (front ++ ⟨disjunctIndex, count⟩ :: behind).Pairwise atMost) :
    (front ++ behind.orderedInsert atMost ⟨disjunctIndex, count + 1⟩).Pairwise atMost := by
  obtain ⟨hfront, hbeh, hboth⟩ := pairwise_append.mp h
  refine pairwise_append.mpr ⟨hfront, ?_, fun e he e' he' => ?_⟩
  · exact (pairwise_cons.mp hbeh).2.orderedInsert _ _
  · rcases (mem_orderedInsert atMost).mp he' with rfl | he'
    · exact Int32.le_trans (hboth e he _ mem_cons_self) hcount
    · exact hboth e he e' (mem_cons_of_mem _ he')

/-! ## The order after any backtrackings -/

/-- The partition of an entry. -/
def entryPartition (dlPredicates : List DLPredicate)
    (entry : DisjunctIndexWithBacktrackings) : Option ℕ :=
  dlPredicates[entry.disjunctIndex]?.map DLPredicate.partition

/-- The entries of one partition, those with fewer backtrackings first. -/
structure IsPartition (dlPredicates : List DLPredicate) (partition : ℕ)
    (entries : List DisjunctIndexWithBacktrackings) :
    Prop where
  ordered : entries.Pairwise atMost
  inPartition : ∀ entry ∈ entries, entryPartition dlPredicates entry = some partition

/-- The header of some predicates after some backtrackings. -/
structure Learned (dlPredicates : List DLPredicate) (backtrackings : List ℕ)
    (h : GroundDisjunctionHeader) : Prop where
  predicates : h.dlPredicates = dlPredicates
  partitions : ∃ atomic negative positive,
    h.disjunctIndexesWithBacktrackings = atomic ++ (negative ++ positive) ∧
    h.firstAtLeastNegativeIndex = atomic.length ∧
      h.firstAtLeastPositiveIndex = atomic.length + negative.length ∧
    IsPartition dlPredicates 0 atomic ∧ IsPartition dlPredicates 1 negative ∧
      IsPartition dlPredicates 2 positive
  perm : h.getSortedDisjunctIndexes.Perm (List.range dlPredicates.length)
  counted : ∀ entry ∈ h.disjunctIndexesWithBacktrackings,
    entry.numberOfBacktrackings = .ofNat (backtrackings.count entry.disjunctIndex)

theorem perm_initialEntries (dlPredicates : List DLPredicate) (index : ℕ) :
    ((initialEntries 0 dlPredicates index ++
      (initialEntries 1 dlPredicates index ++ initialEntries 2 dlPredicates index)).map
      (·.disjunctIndex)).Perm (List.range' index dlPredicates.length) := by
  induction dlPredicates generalizing index with
  | nil => exact .nil
  | cons predicate dlPredicates ih =>
    have hpartition : predicate.partition = 0 ∨ predicate.partition = 1 ∨
        predicate.partition = 2 := by
      unfold DLPredicate.partition
      split <;> simp
    rw [length_cons, range'_succ]
    refine List.Perm.trans ?_ ((ih (index + 1)).cons index)
    rcases hpartition with hpartition | hpartition | hpartition
    · rw [initialEntries_cons_self hpartition,
          initialEntries_cons_ne (by omega : predicate.partition ≠ 1),
        initialEntries_cons_ne (by omega : predicate.partition ≠ 2)]
      exact .refl _
    · rw [initialEntries_cons_self hpartition,
          initialEntries_cons_ne (by omega : predicate.partition ≠ 0),
        initialEntries_cons_ne (by omega : predicate.partition ≠ 2), cons_append]
      exact perm_middle.map DisjunctIndexWithBacktrackings.disjunctIndex
    · rw [initialEntries_cons_self hpartition,
          initialEntries_cons_ne (by omega : predicate.partition ≠ 0),
        initialEntries_cons_ne (by omega : predicate.partition ≠ 1), ← append_assoc, ← append_assoc]
      exact perm_middle.map DisjunctIndexWithBacktrackings.disjunctIndex

theorem isPartition_initialEntries (partition : ℕ) (dlPredicates : List DLPredicate) :
    IsPartition dlPredicates partition (initialEntries partition dlPredicates 0) := by
  have hent : ∀ entry ∈ initialEntries partition dlPredicates 0, entry.numberOfBacktrackings = 0 ∧
      entryPartition dlPredicates entry = some partition := by
    intro entry hent
    obtain ⟨p, hp, rfl⟩ := List.mem_map.mp hent
    obtain ⟨hmem, hpartition⟩ := mem_filter.mp hp
    refine ⟨rfl, ?_⟩
    rw [entryPartition, mem_zipIdx_iff_getElem?.mp hmem]
    exact congrArg some (of_decide_eq_true hpartition)
  refine ⟨pairwise_of_forall_mem_list fun e he e' he' => ?_, fun e he => (hent e he).2⟩
  rw [atMost, (hent e he).1, (hent e' he').1]
  exact Int32.le_refl 0

/-- A new header has the disjuncts of each partition in order. -/
theorem exists_new (dlPredicates : List DLPredicate) : ∃ h,
    new dlPredicates = some h ∧ Learned dlPredicates [] h := by
  have hcount : ∀ (b : Bool) (partition : ℕ),
    (∀ p : DLPredicate, isAtLeastOverNegatedAtomic p = some b ↔ p.partition = partition) →
        (dlPredicates.countP fun p => isAtLeastOverNegatedAtomic p = some b) =
        (initialEntries partition dlPredicates 0).length := by
    intro b partition hiff
    rw [length_initialEntries]
    congr 1
    funext p
    rw [decide_eq_decide, hiff]
  have hneg := hcount true 1 fun p => by
    unfold DLPredicate.partition
    split <;> simp_all
  have hpos := hcount false 2 fun p => by
    unfold DLPredicate.partition
    split <;> simp_all
  have hperm := perm_initialEntries dlPredicates 0
  have hlen := hperm.length_eq
  rw [length_map, length_append, length_append, length_range'] at hlen
  have hslots : List.replicate dlPredicates.length none =
    partlyFilled [] (initialEntries 0 dlPredicates 0) ++
      (partlyFilled [] (initialEntries 1 dlPredicates 0) ++
        partlyFilled [] (initialEntries 2 dlPredicates 0)) := by
    simp only [partlyFilled, map_nil, nil_append, map_const', replicate_append_replicate, hlen]
  have hfill : fillSlots dlPredicates 0 0
      (dlPredicates.length - (initialEntries 2 dlPredicates 0).length - (initialEntries 1
        dlPredicates 0).length)
      (dlPredicates.length - (initialEntries 2 dlPredicates 0).length)
        (List.replicate dlPredicates.length none) = some _ :=
    fillSlots_spec dlPredicates 0 [] [] [] hslots rfl (by rw [length_nil]; omega)
      (by rw [length_nil]; omega)
  have hunwrap : ∀ entries : List DisjunctIndexWithBacktrackings,
      (entries.map some).mapM id = some entries := by
    intro entries
    rw [Library.mapM_eq_some_iff, forall₂_map_left_iff, forall₂_same]
    exact fun _ _ => rfl
  refine ⟨_, by
    rw [new, hneg, hpos, hfill, bind_eq_bind, bind_some, hunwrap]
    rfl, rfl, ⟨_, _, _, rfl, ?_, ?_, ?_, ?_, ?_⟩, ?_, ?_⟩
  · rw [nil_append]
    dsimp only
    omega
  · rw [nil_append, nil_append]
    dsimp only
    omega
  · exact isPartition_initialEntries 0 dlPredicates
  · exact isPartition_initialEntries 1 dlPredicates
  · exact isPartition_initialEntries 2 dlPredicates
  · rw [range_eq_range']
    exact hperm
  · intro entry hent
    rw [count_nil]
    have hzero : ∀ partition, entry ∈ initialEntries partition dlPredicates 0 →
        entry.numberOfBacktrackings = 0 := by
      intro partition hmem
      obtain ⟨p, -, rfl⟩ := List.mem_map.mp hmem
      rfl
    simp only [nil_append, mem_append] at hent
    rcases hent with hent | hent | hent
    · exact hzero 0 hent
    · exact hzero 1 hent
    · exact hzero 2 hent

section increase

variable {dlPredicates : List DLPredicate} {backtrackings : List ℕ} {h : GroundDisjunctionHeader}
  {disjunctIndex : ℕ} {count : Int32}

theorem IsPartition.of_perm {partition : ℕ}
    {front behind part : List DisjunctIndexWithBacktrackings}
    (hpartition : IsPartition dlPredicates partition (front ++ ⟨disjunctIndex, count⟩ :: behind))
    (hord : part.Pairwise atMost)
    (hperm : part.Perm (front ++ ⟨disjunctIndex, count + 1⟩ :: behind)) :
    IsPartition dlPredicates partition part := by
  refine ⟨hord, fun entry hent => ?_⟩
  rcases mem_append.mp (hperm.mem_iff.mp hent) with hfront | hbeh
  · exact hpartition.inPartition entry (mem_append_left _ hfront)
  · rcases mem_cons.mp hbeh with rfl | hbeh
    · exact hpartition.inPartition ⟨disjunctIndex, count⟩ (mem_append_right _ mem_cons_self)
    · exact hpartition.inPartition entry (mem_append_right _ (mem_cons_of_mem _ hbeh))

theorem Learned.of_perm (hlearn : Learned dlPredicates backtrackings h)
    {front behind entries : List DisjunctIndexWithBacktrackings}
    (hents : h.disjunctIndexesWithBacktrackings = front ++ ⟨disjunctIndex, count⟩ :: behind)
    (hperm : entries.Perm (front ++ ⟨disjunctIndex, count + 1⟩ :: behind)) :
    (entries.map (·.disjunctIndex)).Perm (List.range dlPredicates.length) ∧
      ∀ entry ∈ entries, entry.numberOfBacktrackings =
        .ofNat ((backtrackings ++ [disjunctIndex]).count entry.disjunctIndex) := by
  have hsort := hlearn.perm
  rw [getSortedDisjunctIndexes, hents, map_append, map_cons] at hsort
  refine ⟨?_, fun entry hent => ?_⟩
  · refine (hperm.map _).trans ?_
    rw [map_append, map_cons]
    exact hsort
  · have hcnt := hlearn.counted
    rw [hents] at hcnt
    have hdist := hsort.nodup_iff.mpr nodup_range
    obtain ⟨hnew, -⟩ := nodup_middle.mp hdist |> nodup_cons.mp
    have hoth : entry ∈ front ++ behind → entry.numberOfBacktrackings =
        .ofNat ((backtrackings ++ [disjunctIndex]).count entry.disjunctIndex) := by
      intro hmem
      have hne : entry.disjunctIndex ≠ disjunctIndex := by
        rintro rfl
        rw [← map_append] at hnew
        exact hnew (List.mem_map.mpr ⟨entry, hmem, rfl⟩)
      rw [count_append, count_singleton, beq_eq_false_iff_ne.mpr hne.symm,
        if_neg Bool.false_ne_true, Nat.add_zero]
      apply hcnt
      exact mem_append.mpr ((mem_append.mp hmem).imp_right (mem_cons_of_mem _))
    rcases mem_append.mp (hperm.mem_iff.mp hent) with hfront | hbeh
    · exact hoth (mem_append_left _ hfront)
    · rcases mem_cons.mp hbeh with rfl | hbeh
      · have hcount := hcnt ⟨disjunctIndex, count⟩ (mem_append_right _ mem_cons_self)
        dsimp only at hcount ⊢
        rw [count_append, count_singleton_self, Int32.ofNat_add, ← hcount]
        rfl
      · exact hoth (mem_append_right _ hbeh)

/-- One more backtracking moves an entry inside its partition. -/
theorem Learned.move (hlearn : Learned dlPredicates backtrackings h) (hcount : count ≤ count + 1)
    (before after front behind : List DisjunctIndexWithBacktrackings) {partition : ℕ}
    (hents : h.disjunctIndexesWithBacktrackings = before ++
      (front ++ ⟨disjunctIndex, count⟩ :: behind ++ after))
    (hend : h.partitionEnd (before.length + front.length) =
      before.length + (front ++ ⟨disjunctIndex, count⟩ :: behind).length)
    (hpartition : IsPartition dlPredicates partition (front ++ ⟨disjunctIndex, count⟩ :: behind)) :
    ∃ part, moveRight
    (h.partitionEnd (before.length + front.length) - (before.length + front.length + 1))
        (before.length + front.length)
        (h.disjunctIndexesWithBacktrackings.set (before.length + front.length)
          ⟨disjunctIndex, count + 1⟩) = some (before ++ (part ++ after)) ∧
      part.length = (front ++ ⟨disjunctIndex, count⟩ :: behind).length ∧
      IsPartition dlPredicates partition part ∧
      ((before ++ (part ++ after)).map (·.disjunctIndex)).Perm (List.range dlPredicates.length) ∧
      ∀ entry ∈ before ++ (part ++ after), entry.numberOfBacktrackings =
          .ofNat ((backtrackings ++ [disjunctIndex]).count entry.disjunctIndex) := by
  have hord := pairwise_orderedInsert hcount hpartition.ordered
  have hperm : (front ++ behind.orderedInsert atMost ⟨disjunctIndex, count + 1⟩).Perm
      (front ++ ⟨disjunctIndex, count + 1⟩ :: behind) :=
        (perm_orderedInsert atMost _ _).append_left front
  have hset : (before ++ (front ++ ⟨disjunctIndex, count⟩ :: behind ++ after)).set
    (before.length + front.length) ⟨disjunctIndex, count + 1⟩ = (before ++ front) ++
        ⟨disjunctIndex, count + 1⟩ :: (behind ++ after) := by simp
  have hbeh : before.length + (front ++ ⟨disjunctIndex, count⟩ :: behind).length -
      (before.length + front.length + 1) = behind.length := by
    rw [length_append, length_cons]
    omega
  have hmove := moveRight_spec (before ++ front) after behind ⟨disjunctIndex, count + 1⟩
  rw [length_append] at hmove
  have hwhole :
    (before ++ (front ++ behind.orderedInsert atMost ⟨disjunctIndex, count + 1⟩ ++ after)).Perm
      ((before ++ front) ++ ⟨disjunctIndex, count + 1⟩ :: (behind ++ after)) := by
    have hall := (hperm.append_right after).append_left before
    simpa only [append_assoc, cons_append] using hall
  have hents' : h.disjunctIndexesWithBacktrackings = (before ++ front) ++
      ⟨disjunctIndex, count⟩ :: (behind ++ after) := by
    rw [hents]
    simp only [append_assoc, cons_append]
  obtain ⟨hidxs, hcnt⟩ := hlearn.of_perm hents' hwhole
  refine ⟨_, ?_, ?_, hpartition.of_perm hord hperm, hidxs, hcnt⟩
  · rw [hend, hbeh, hents, hset, hmove]
    simp only [append_assoc]
  · rw [hperm.length_eq, length_append, length_append, length_cons, length_cons]

theorem exists_append_cons {α : Type*} {l : List α} {i : ℕ} {a : α} (h : l[i]? = some a) :
    ∃ front behind, l = front ++ a :: behind ∧ front.length = i := by
  obtain ⟨hlt, rfl⟩ := List.getElem?_eq_some_iff.mp h
  refine ⟨l.take i, l.drop (i + 1), ?_, length_take_of_le hlt.le⟩
  rw [← drop_eq_getElem_cons hlt, take_append_drop]

theorem le_add_one_of_lt {n : ℕ} (h : n + 1 < 2 ^ 31) : Int32.ofNat n ≤ .ofNat n + 1 := by
  rw [show Int32.ofNat n + 1 = .ofNat (n + 1) from (Int32.ofNat_add n 1).symm,
    Int32.ofNat_le_iff_le (by omega) h]
  exact Nat.le_succ n

theorem Learned.increase (hlearn : Learned dlPredicates backtrackings h) (disjunctIndex : ℕ)
    (hbd : disjunctIndex < dlPredicates.length →
      (backtrackings ++ [disjunctIndex]).count disjunctIndex < 2 ^ 31) :
    ∃ h', h.increaseNumberOfBacktrackings disjunctIndex = some h' ∧
      Learned dlPredicates (backtrackings ++ [disjunctIndex]) h' := by
  unfold increaseNumberOfBacktrackings
  split
  · rename_i hnone
    refine ⟨h, rfl, hlearn.predicates, hlearn.partitions, hlearn.perm, fun entry hent => ?_⟩
    have hne : entry.disjunctIndex ≠ disjunctIndex := by
      have := findIdx?_eq_none_iff.mp hnone entry hent
      simpa using this
    rw [hlearn.counted entry hent, count_append, count_singleton, beq_eq_false_iff_ne.mpr hne.symm,
      if_neg Bool.false_ne_true, Nat.add_zero]
  · rename_i index hsome
    obtain ⟨entry, hidx, hent⟩ : ∃ entry, h.disjunctIndexesWithBacktrackings[index]? =
      some entry ∧ entry.disjunctIndex = disjunctIndex := by
      obtain ⟨hlt, hdisjunct, -⟩ := findIdx?_eq_some_iff_getElem.mp hsome
      exact ⟨_, getElem?_eq_getElem hlt, by simpa using hdisjunct⟩
    obtain ⟨found, count⟩ := entry
    obtain rfl : disjunctIndex = found := hent.symm
    obtain ⟨atomic, negative, positive, hents, hfirstNegative, hfirstPositive, hatm, hneg, hpos⟩ :=
      hlearn.partitions
    have hcount : count ≤ count + 1 := by
      have hmem := mem_of_getElem? hidx
      rw [show count = .ofNat _ from hlearn.counted _ hmem]
      refine le_add_one_of_lt ?_
      have hlt := hbd (mem_range.mp (hlearn.perm.mem_iff.mp (mem_map_of_mem hmem)))
      rwa [count_append, count_singleton_self] at hlt
    rw [hidx, bind_eq_bind, bind_some]
    rw [hents] at hidx
    dsimp only
    by_cases hfst : index < atomic.length
    · rw [getElem?_append_left hfst] at hidx
      obtain ⟨front, behind, rfl, rfl⟩ := exists_append_cons hidx
      obtain ⟨part, hmove, hlen, hpart, hidxs, hcnt⟩ :=
        hlearn.move hcount [] (negative ++ positive) front behind
        hents (by
          rw [length_nil, Nat.zero_add, Nat.zero_add, partitionEnd, hfirstNegative, if_pos hfst])
        hatm
      rw [length_nil, Nat.zero_add] at hmove
      rw [hmove, bind_eq_bind, bind_some]
      refine ⟨_, rfl, hlearn.predicates, ⟨part, negative, positive, rfl, ?_, ?_, hpart, hneg, hpos⟩,
        hidxs, hcnt⟩
      · exact hfirstNegative.trans hlen.symm
      · exact hfirstPositive.trans (by rw [hlen])
    · rw [getElem?_append_right (Nat.not_lt.mp hfst)] at hidx
      by_cases hsnd : index - atomic.length < negative.length
      · rw [getElem?_append_left hsnd] at hidx
        obtain ⟨front, behind, rfl, hfront⟩ := exists_append_cons hidx
        obtain rfl : index = atomic.length + front.length := by omega
        obtain ⟨part, hmove, hlen, hpart, hidxs, hcnt⟩ :=
          hlearn.move hcount atomic positive front behind hents
          (by rw [partitionEnd, hfirstNegative, if_neg hfst, hfirstPositive, if_pos (by omega)])
            hneg
        rw [hmove, bind_eq_bind, bind_some]
        refine ⟨_, rfl, hlearn.predicates,
            ⟨atomic, part, positive, rfl, hfirstNegative, ?_, hatm, hpart, hpos⟩,
          hidxs, hcnt⟩
        exact hfirstPositive.trans (by rw [hlen])
      · rw [getElem?_append_right (Nat.not_lt.mp hsnd)] at hidx
        obtain ⟨front, behind, rfl, hfront⟩ := exists_append_cons hidx
        obtain rfl : index = (atomic ++ negative).length + front.length := by
          rw [length_append]
          omega
        have hents' : h.disjunctIndexesWithBacktrackings =
            (atomic ++ negative) ++ (front ++ ⟨disjunctIndex, count⟩ :: behind ++ []) := by
          rw [hents, append_nil, append_assoc]
        have hend : h.partitionEnd ((atomic ++ negative).length + front.length) =
            (atomic ++ negative).length + (front ++ ⟨disjunctIndex, count⟩ :: behind).length := by
          rw [partitionEnd, hfirstNegative, if_neg hfst, hfirstPositive,
              if_neg (by rw [length_append]; omega), hents,
            length_append, length_append, length_append]
          omega
        obtain ⟨part, hmove, -, hpart, hidxs, hcnt⟩ :=
          hlearn.move hcount (atomic ++ negative) [] front behind hents' hend
          hpos
        rw [hmove, bind_eq_bind, bind_some]
        rw [append_nil, append_assoc] at hidxs hcnt ⊢
        exact ⟨_, rfl, hlearn.predicates,
            ⟨atomic, negative, part, rfl, hfirstNegative, hfirstPositive, hatm, hneg,
          hpart⟩, hidxs, hcnt⟩

end increase

section

variable {dlPredicates : List DLPredicate} {backtrackings : List ℕ} {h : GroundDisjunctionHeader}
  (hlearn : Learned dlPredicates backtrackings h)
include hlearn

/-- An entry of an earlier partition comes first, and in one partition that with fewer
backtrackings. -/
theorem Learned.pairwise : h.disjunctIndexesWithBacktrackings.Pairwise fun e e' =>
      ∃ k k', entryPartition dlPredicates e = some k ∧ entryPartition dlPredicates e' = some k' ∧
        (k < k' ∨ k = k' ∧ e.numberOfBacktrackings ≤ e'.numberOfBacktrackings) := by
  obtain ⟨atomic, negative, positive, hents, -, -, hatm, hneg, hpos⟩ := hlearn.partitions
  have hin : ∀ {k entries}, IsPartition dlPredicates k entries → entries.Pairwise fun e e' =>
      ∃ k k', entryPartition dlPredicates e = some k ∧ entryPartition dlPredicates e' = some k' ∧
        (k < k' ∨ k = k' ∧ e.numberOfBacktrackings ≤ e'.numberOfBacktrackings) := by
    intro k entries hpartition
    refine hpartition.ordered.imp_of_mem fun {e e'} he he' hle => ?_
    exact ⟨k, k, hpartition.inPartition e he, hpartition.inPartition e' he', .inr ⟨rfl, hle⟩⟩
  rw [hents]
  refine pairwise_append.mpr ⟨hin hatm, pairwise_append.mpr ⟨hin hneg, hin hpos, ?_⟩, ?_⟩
  · intro e he e' he'
    exact ⟨1, 2, hneg.inPartition e he, hpos.inPartition e' he', .inl Nat.one_lt_two⟩
  · intro e he e' he'
    rcases mem_append.mp he' with he' | he'
    · exact ⟨0, 1, hatm.inPartition e he, hneg.inPartition e' he', .inl Nat.one_pos⟩
    · exact ⟨0, 2, hatm.inPartition e he, hpos.inPartition e' he', .inl Nat.two_pos⟩

theorem Learned.backtrackingsOf_eq {i : ℕ} (hi : i < dlPredicates.length) :
    h.backtrackingsOf i = some (.ofNat (backtrackings.count i)) := by
  obtain ⟨e, he, hidx⟩ := List.mem_map.mp (hlearn.perm.mem_iff.mpr (mem_range.mpr hi))
  have hsome : (h.disjunctIndexesWithBacktrackings.find? (·.disjunctIndex = i)).isSome = true :=
    find?_isSome.mpr ⟨e, he, decide_eq_true hidx⟩
  obtain ⟨found, hfnd⟩ := Option.isSome_iff_exists.mp hsome
  have hsame : found.disjunctIndex = i := by simpa using find?_some hfnd
  rw [backtrackingsOf, hfnd, Option.map_some, hlearn.counted found (mem_of_find?_eq_some hfnd),
    hsame]

theorem Learned.sorted : h.Sorted := by
  have hpreds := hlearn.predicates
  refine ⟨by rw [hpreds]; exact hlearn.perm, pairwise_map.mpr ?_⟩
  refine hlearn.pairwise.imp_of_mem fun {e e'} he he' => ?_
  have hst : ∀ e ∈ h.disjunctIndexesWithBacktrackings,
      h.backtrackingsOf e.disjunctIndex = some e.numberOfBacktrackings := by
    intro e he
    rw [hlearn.counted e he]
    exact hlearn.backtrackingsOf_eq (mem_range.mp (hlearn.perm.mem_iff.mp (mem_map_of_mem he)))
  rintro ⟨k, k', hk, hk', hle⟩
  obtain ⟨p, hp, rfl⟩ := Option.map_eq_some_iff.mp hk
  obtain ⟨q, hq, rfl⟩ := Option.map_eq_some_iff.mp hk'
  rw [← hpreds] at hp hq
  exact ⟨p, q, hp, hq, _, _, hst e he, hst e' he', hle⟩

end

theorem Learned.foldlM {dlPredicates : List DLPredicate} {backtrackings : List ℕ}
    {h : GroundDisjunctionHeader}
    (hlearn : Learned dlPredicates backtrackings h) (disjunctIndexes : List ℕ)
    (hbd : ∀ i < dlPredicates.length, (backtrackings ++ disjunctIndexes).count i < 2 ^ 31) :
    ∃ h', disjunctIndexes.foldlM increaseNumberOfBacktrackings h = some h' ∧
      Learned dlPredicates (backtrackings ++ disjunctIndexes) h' := by
  induction disjunctIndexes generalizing backtrackings h with
  | nil => exact ⟨h, rfl, by rwa [append_nil]⟩
  | cons disjunctIndex disjunctIndexes ih =>
    rw [append_cons] at hbd
    obtain ⟨h₁, hstep, hlearn₁⟩ := hlearn.increase disjunctIndex fun hlt =>
      ((sublist_append_left _ _).count_le _).trans_lt (hbd disjunctIndex hlt)
    obtain ⟨h', hrun, hlearn'⟩ := ih hlearn₁ hbd
    refine ⟨h', ?_, by rwa [← append_cons] at hlearn'⟩
    rw [foldlM_cons, hstep]
    exact hrun

/-- While no disjunct has `2 ^ 31` backtrackings, all disjuncts are in order after any
backtrackings, and the stored numbers count these. -/
theorem getSortedDisjunctIndexes_ordered (dlPredicates : List DLPredicate) (backtrackings : List ℕ)
    (hbd : ∀ i < dlPredicates.length, backtrackings.count i < 2 ^ 31) :
    ∃ h₀ h, new dlPredicates = some h₀ ∧
      backtrackings.foldlM increaseNumberOfBacktrackings h₀ = some h ∧
      h.dlPredicates = dlPredicates ∧ h.Sorted ∧ ∀ i < dlPredicates.length, ∃ c,
        h.backtrackingsOf i = some c ∧ c.toInt = backtrackings.count i := by
  obtain ⟨h₀, hnew, hlearn⟩ := exists_new dlPredicates
  obtain ⟨h, hrun, hlearn'⟩ := hlearn.foldlM backtrackings hbd
  rw [nil_append] at hlearn'
  exact ⟨h₀, h, hnew, hrun, hlearn'.predicates, hlearn'.sorted, fun i hi =>
    ⟨_, hlearn'.backtrackingsOf_eq hi, Int32.toInt_ofNat_of_lt (hbd i hi)⟩⟩

/-- The at-least concept over an atomic concept comes last, and of the roles that with a
backtracking. -/
theorem getSortedDisjunctIndexes_ordered_roles : ∃ h₀ h,
    new [.atLeastConcept ⟨1, .atomicRole ⟨"r"⟩, .atomicConcept ⟨"A"⟩⟩, .equality, .inequality] =
      some h₀ ∧ [1].foldlM increaseNumberOfBacktrackings h₀ = some h ∧ h.Sorted ∧
      h.getSortedDisjunctIndexes = [2, 1, 0] := by
  obtain ⟨h₀, h, hnew, hrun, -, hsort, -⟩ := getSortedDisjunctIndexes_ordered
    [.atLeastConcept ⟨1, .atomicRole ⟨"r"⟩, .atomicConcept ⟨"A"⟩⟩, .equality, .inequality] [1]
    (by decide)
  refine ⟨h₀, h, hnew, hrun, hsort, ?_⟩
  cases Option.some.inj hnew
  cases Option.some.inj hrun
  rfl

/-- Two roles, the first one behind the second one with a number of backtrackings. -/
def rolesAfter (count : Int32) : GroundDisjunctionHeader :=
  { dlPredicates := [.equality, .inequality], disjunctStart := [0, 2]
    disjunctIndexesWithBacktrackings := [⟨1, 0⟩, ⟨0, count⟩]
    firstAtLeastPositiveIndex := 2, firstAtLeastNegativeIndex := 2 }

theorem foldlM_rolesAfter (n : ℕ) (count : Int32) :
    (List.replicate n 0).foldlM increaseNumberOfBacktrackings (rolesAfter count) =
      some (rolesAfter (count + .ofNat n)) := by
  induction n generalizing count with
  | zero => rw [show Int32.ofNat 0 = 0 from rfl, Int32.add_zero]; rfl
  | succ n ih =>
    have hstep : (rolesAfter count).increaseNumberOfBacktrackings 0 =
      some (rolesAfter (count + 1)) := rfl
    rw [replicate_succ, foldlM_cons, hstep, bind_eq_bind, bind_some, ih, Nat.add_comm n,
      Int32.ofNat_add, ← Int32.add_assoc]
    rfl

theorem not_sorted_rolesAfter {count : Int32} (hneg : ¬ 0 ≤ count) :
    ¬ (rolesAfter count).Sorted := by
  intro hsort
  obtain ⟨p, q, hp, hq, c, d, hc, hd, hle⟩ := (pairwise_cons.mp hsort.ordered).1 0 mem_cons_self
  cases hp
  cases hq
  cases hc
  cases hd
  rcases hle with hlt | ⟨-, hle⟩
  · exact absurd hlt (by decide)
  · exact hneg hle

/-- The number of the first role becomes negative, and the role stays behind the second one. -/
theorem not_sorted_full : ∃ h₀ h, new [.equality, .inequality] = some h₀ ∧
    (List.replicate (2 ^ 31) 0).foldlM increaseNumberOfBacktrackings h₀ = some h ∧ ¬ h.Sorted := by
  have hrun : ∀ n, (List.replicate (n + 1) 0).foldlM increaseNumberOfBacktrackings
      ⟨[.equality, .inequality], [0, 2], [⟨0, 0⟩, ⟨1, 0⟩], 2, 2⟩ =
        some (rolesAfter (1 + .ofNat n)) := by
    intro n
    rw [replicate_succ, foldlM_cons]
    exact foldlM_rolesAfter n 1
  have hlast := hrun (2 ^ 31 - 1)
  rw [show 2 ^ 31 - 1 + 1 = 2 ^ 31 by norm_num] at hlast
  exact ⟨_, _, rfl, hlast, not_sorted_rolesAfter (by decide +kernel)⟩

end GroundDisjunctionHeader

end Hermit
