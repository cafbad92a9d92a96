import Hermit.Graph
import Hermit.Library.Pointwise

/-! # Graphs with interned elements

Every element gets a number when it is first seen, and the successor sets hold the numbers.  Closing
a graph transitively replaces the sets one after the other, so later ones are closed over some that
are closed already.  Whatever the orders in which the hash maps and sets are traversed, the edges of
the closed graph are the paths of the graph before.
-/

namespace Hermit

open List Option Worklist Library

structure InternedGraph (α : Type*) [DecidableEq α] where
  elements : List α
  ids : AList fun _ : α => ℕ
  elems : List α
  successorsById : AList fun _ : ℕ => List ℕ

namespace InternedGraph

section operations

variable {α : Type*} [DecidableEq α]

def new : InternedGraph α := ⟨[], ∅, [], ∅⟩

variable (g : InternedGraph α)

/-- The number of an element, which may be a new one. -/
def intern (t : α) : ℕ × InternedGraph α :=
  match g.ids.lookup t with
  | some id => (id, g)
  | none =>
    (g.elems.length, { g with elems := g.elems ++ [t], ids := g.ids.insert t g.elems.length })

def idOf (t : α) : Option ℕ := g.ids.lookup t

def successorIds (id : ℕ) : List ℕ := (g.successorsById.lookup id).getD []

def addEdge (source target : α) : InternedGraph α :=
  let (fromId, g) := g.intern source
  let (toId, g) := g.intern target
  { g with
    successorsById := g.successorsById.insert fromId (insertSet (g.successorIds fromId) toId)
    elements := insertSet (insertSet g.elements source) target }

def internAll : List α → InternedGraph α → List ℕ × InternedGraph α
  | [], g => ([], g)
  | t :: ts, g =>
    let (id, g) := g.intern t
    let (ids, g) := internAll ts g
    (id :: ids, g)

/-- Add edges to the elements of a set, which is given in the order of its traversal. -/
def addEdges (source : α) (targets : List α) : InternedGraph α :=
  let (fromId, g) := g.intern source
  let (toIds, g) := internAll targets g
  { g with
    successorsById := g.successorsById.insert fromId (toIds.foldl insertSet (g.successorIds fromId))
    elements := targets.foldl insertSet (insertSet g.elements source) }

/-- Change the successor set of an element, if it has one. -/
def modifySuccessors (node : α) (f : List ℕ → List ℕ) : InternedGraph α :=
  match g.idOf node with
  | none => g
  | some id =>
    match g.successorsById.lookup id with
    | none => g
    | some successors => { g with successorsById := g.successorsById.insert id (f successors) }

def removeSuccessors (node : α) (toRemove : List α) : InternedGraph α :=
  g.modifySuccessors node fun successors => (toRemove.filterMap g.idOf).foldl List.erase successors

def removeEdge (node successor : α) : InternedGraph α :=
  match g.idOf successor with
  | none => g
  | some id => g.modifySuccessors node (·.erase id)

def clearSuccessors (node : α) : InternedGraph α := g.modifySuccessors node fun _ => []

def successorContains (node target : α) : Bool :=
  match g.idOf node, g.idOf target with
  | some id, some targetId => (g.successorsById.lookup id).any (·.contains targetId)
  | _, _ => false

/-- Replace the successors of a key by what can be reached from it; the first traversal is that of
its successors, and the others are numbered by the nodes whose successors they go through. -/
def closeKey (order : HashOrder ℕ) (key : ℕ) : InternedGraph α :=
  let reachable := reachPush (fun id => order.arrange (id + 1) (g.successorIds id))
    (List.range g.elems.length) (order.arrange 0 (g.successorIds key))
  { g with successorsById := g.successorsById.insert key reachable }

def transitivelyClose (keyOrder : HashOrder ℕ) (setOrder : ℕ → HashOrder ℕ) : InternedGraph α :=
  (keyOrder.arrange 0 g.successorsById.keys).foldl (fun g key => g.closeKey (setOrder key) key) g

/-- The search for a node; a node without a successor set is only marked. -/
def visitUntil (order : HashOrder ℕ) (toId : ℕ) : ℕ → List ℕ → List ℕ → Option Bool
  | _, [], _ => some false
  | 0, _ :: _, _ => none
  | fuel + 1, current :: toVisit, result =>
    match g.successorsById.lookup current with
    | none =>
      visitUntil order toId fuel toVisit (if current ∈ result then result else current :: result)
    | some successors =>
      if successors.contains toId then some true
      else if current ∈ result then visitUntil order toId fuel toVisit result
      else visitUntil order toId fuel (toVisit ++ order.arrange current successors)
        (current :: result)

/-- How often the search can go on. -/
def visits : ℕ := 1 + ((List.range g.elems.length).map fun id => (g.successorIds id).length).sum

def isReachableSuccessor (order : HashOrder ℕ) (fromNode toNode : α) : Option Bool :=
  if fromNode = toNode then some true
  else
    match g.idOf fromNode, g.idOf toNode with
    | some fromId, some toId => g.visitUntil order toId g.visits [fromId] []
    | _, _ => some false

def getReachableSuccessors (order : HashOrder ℕ) (fromNode : α) : Option (List α) :=
  match g.idOf fromNode with
  | none => some [fromNode]
  | some fromId =>
    (reachQueue (fun id => order.arrange id (g.successorIds id))
      (List.range g.elems.length) fromId).mapM
      (g.elems[·]?)

end operations

/-! ## Numbers of elements -/

section numbered

variable {α : Type*} [DecidableEq α]

/-- The two maps between elements and numbers are inverse, and the sets hold numbers of elements. -/
structure Numbered (g : InternedGraph α) : Prop where
  lookup_iff : ∀ t id, g.ids.lookup t = some id ↔ g.elems[id]? = some t
  source_lt : ∀ id ∈ g.successorsById, id < g.elems.length
  target_lt : ∀ id, ∀ target ∈ g.successorIds id, target < g.elems.length

variable {g : InternedGraph α} {id id' : ℕ} {t t' : α}

theorem successorIds_eq_nil (h : id ∉ g.successorsById) : g.successorIds id = [] := by
  rw [successorIds, AList.lookup_eq_none.mpr h]
  rfl

theorem Numbered.lt_of_mem (h : g.Numbered) {target : ℕ} (htgt : target ∈ g.successorIds id) :
    id < g.elems.length := by
  apply h.source_lt
  by_contra hnot
  rw [successorIds_eq_nil hnot] at htgt
  cases htgt

theorem Numbered.exists_elem (_ : g.Numbered) (hlt : id < g.elems.length) : ∃ t,
    g.elems[id]? = some t :=
  ⟨_, getElem?_eq_getElem hlt⟩

theorem Numbered.id_unique (h : g.Numbered) (hid : g.elems[id]? = some t)
    (hid' : g.elems[id']? = some t) : id = id' :=
  some.inj (((h.lookup_iff t id).mpr hid).symm.trans ((h.lookup_iff t id').mpr hid'))

/-- An edge is one between the numbers. -/
theorem Numbered.successorContains_iff (h : g.Numbered) : g.successorContains t t' = true ↔
    ∃ id id', g.elems[id]? = some t ∧ g.elems[id']? = some t' ∧ id' ∈ g.successorIds id := by
  simp only [← h.lookup_iff]
  unfold successorContains idOf
  cases hid : g.ids.lookup t with
  | none => simp
  | some id =>
    cases hid' : g.ids.lookup t' with
    | none => simp
    | some id' =>
      have hmem : (g.successorsById.lookup id).any (·.contains id') = true ↔
          id' ∈ g.successorIds id := by
        unfold successorIds
        cases g.successorsById.lookup id <;> simp
      dsimp only
      rw [hmem]
      simp

theorem Numbered.transGen_iff (h : g.Numbered) :
    Relation.TransGen (fun a b => g.successorContains a b = true) t t' ↔
    ∃ id id', g.elems[id]? = some t ∧ g.elems[id']? = some t' ∧
      Relation.TransGen (fun a b => b ∈ g.successorIds a) id id' := by
  constructor
  · intro hpath
    induction hpath with
    | single hedge =>
      obtain ⟨id, id', hid, hid', hmem⟩ := h.successorContains_iff.mp hedge
      exact ⟨id, id', hid, hid', .single hmem⟩
    | tail _ hedge ih =>
      obtain ⟨id, id₁, hid, hid₁, hpath⟩ := ih
      obtain ⟨id₂, id', hid₂, hid', hmem⟩ := h.successorContains_iff.mp hedge
      obtain rfl := h.id_unique hid₁ hid₂
      exact ⟨id, id', hid, hid', hpath.tail hmem⟩
  · rintro ⟨id, id', hid, hid', hpath⟩
    induction hpath generalizing t' with
    | single hmem => exact .single (h.successorContains_iff.mpr ⟨id, _, hid, hid', hmem⟩)
    | tail hpath hmem ih =>
      obtain ⟨t₁, ht₁⟩ := h.exists_elem (h.lt_of_mem hmem)
      exact (ih ht₁).tail (h.successorContains_iff.mpr ⟨_, _, ht₁, hid', hmem⟩)

end numbered

/-! ## The closure -/

section closure

variable {α : Type*} [DecidableEq α] {g : InternedGraph α} {order : HashOrder ℕ} {key id : ℕ}

theorem successorIds_closeKey_self : (g.closeKey order key).successorIds key =
    reachPush (fun id => order.arrange (id + 1) (g.successorIds id))
    (List.range g.elems.length) (order.arrange 0 (g.successorIds key)) := by
  rw [closeKey, successorIds, AList.lookup_insert]
  rfl

theorem successorIds_closeKey_ne (hne : id ≠ key) :
    (g.closeKey order key).successorIds id = g.successorIds id := by
  rw [closeKey, successorIds, AList.lookup_insert_ne hne]
  rfl

/-- Closing a key makes all paths from it edges. -/
theorem Numbered.mem_closeKey (h : g.Numbered) (target : ℕ) :
    target ∈ (g.closeKey order key).successorIds key ↔
    Relation.TransGen (fun a b => b ∈ g.successorIds a) key target := by
  have hnext : ∀ id b, b ∈ order.arrange (id + 1) (g.successorIds id) ↔ b ∈ g.successorIds id :=
    fun id b => (order.perm _ _).mem_iff
  have hrelation : (fun a b => b ∈ order.arrange (a + 1) (g.successorIds a)) = fun a b =>
      b ∈ g.successorIds a := by
    funext a b
    exact propext (hnext a b)
  rw [successorIds_closeKey_self, mem_reachPush ?_ ?_, Worklist.Reach, hrelation,
    Relation.TransGen.head'_iff]
  · simp only [(order.perm _ _).mem_iff]
  · intro a _ b hb
    exact mem_range.mpr (h.target_lt a b ((hnext a b).mp hb))
  · intro a ha
    exact mem_range.mpr (h.target_lt key a ((order.perm _ _).mem_iff.mp ha))

theorem Numbered.closeKey (h : g.Numbered) (hkey : key ∈ g.successorsById) :
    (g.closeKey order key).Numbered where
  lookup_iff := h.lookup_iff
  source_lt := by
    intro id hid
    rcases AList.mem_insert _ |>.mp hid with rfl | hid
    · exact h.source_lt id hkey
    · exact h.source_lt id hid
  target_lt := by
    intro id target htgt
    by_cases hid : id = key
    · subst hid
      rw [h.mem_closeKey] at htgt
      obtain ⟨_, -, hmem⟩ := Relation.TransGen.tail'_iff.mp htgt
      exact h.target_lt _ target hmem
    · rw [successorIds_closeKey_ne hid] at htgt
      exact h.target_lt id target htgt

/-- A graph between another one and its closure, where some keys are closed already. -/
structure Between (g : InternedGraph α) (closed : Set ℕ) (g' : InternedGraph α) : Prop where
  numbered : g'.Numbered
  elems : g'.elems = g.elems
  keys : ∀ id, id ∈ g'.successorsById ↔ id ∈ g.successorsById
  edge : ∀ id, ∀ target ∈ g.successorIds id, target ∈ g'.successorIds id
  path : ∀ id, ∀ target ∈ g'.successorIds id,
    Relation.TransGen (fun a b => b ∈ g.successorIds a) id target
  closed : ∀ id ∈ closed, ∀ target, Relation.TransGen (fun a b => b ∈ g.successorIds a) id target →
    target ∈ g'.successorIds id

variable {closed : Set ℕ} {g' : InternedGraph α}

theorem Between.transGen_iff (h : Between g closed g') {target : ℕ} :
    Relation.TransGen (fun a b => b ∈ g'.successorIds a) id target ↔
      Relation.TransGen (fun a b => b ∈ g.successorIds a) id target := by
  constructor
  · intro hpath
    induction hpath with
    | single hedge => exact h.path _ _ hedge
    | tail _ hedge ih => exact ih.trans (h.path _ _ hedge)
  · exact Relation.TransGen.mono h.edge _ _

/-- Closing one more key. -/
theorem Between.closeKey (h : Between g closed g') (order : HashOrder ℕ)
    (hkey : key ∈ g'.successorsById) : Between g (insert key closed) (g'.closeKey order key) where
  numbered := h.numbered.closeKey hkey
  elems := h.elems
  keys := by
    intro id
    rw [← h.keys]
    refine (AList.mem_insert _).trans (or_iff_right_of_imp ?_)
    rintro rfl
    exact hkey
  edge := by
    intro id target htgt
    by_cases hid : id = key
    · subst hid
      exact (h.numbered.mem_closeKey target).mpr (.single (h.edge id target htgt))
    · rw [successorIds_closeKey_ne hid]
      exact h.edge id target htgt
  path := by
    intro id target htgt
    by_cases hid : id = key
    · subst hid
      exact h.transGen_iff.mp ((h.numbered.mem_closeKey target).mp htgt)
    · rw [successorIds_closeKey_ne hid] at htgt
      exact h.path id target htgt
  closed := by
    intro id hid target hpath
    by_cases hkey : id = key
    · subst hkey
      exact (h.numbered.mem_closeKey target).mpr (h.transGen_iff.mpr hpath)
    · rw [successorIds_closeKey_ne hkey]
      exact h.closed id (hid.resolve_left hkey) target hpath

theorem Between.foldl (h : Between g closed g') (setOrder : ℕ → HashOrder ℕ)
    (keys : List ℕ) (hkeys : ∀ key ∈ keys, key ∈ g.successorsById) :
    Between g (closed ∪ {key | key ∈ keys})
    (keys.foldl (fun g key => g.closeKey (setOrder key) key) g') := by
  induction keys generalizing closed g' with
  | nil => simpa using h
  | cons key keys ih =>
    obtain ⟨hkey, hrest⟩ := forall_mem_cons.mp hkeys
    have hunion : insert key closed ∪ {k | k ∈ keys} = closed ∪ {k | k ∈ key :: keys} := by
      ext k
      simp only [Set.mem_union, Set.mem_insert_iff, Set.mem_ofPred_eq, mem_cons]
      tauto
    rw [← hunion]
    exact ih (h.closeKey (setOrder key) ((h.keys key).mpr hkey)) hrest

/-- The edges of the closed graph are the paths of the graph. -/
theorem Numbered.transitivelyClose (h : g.Numbered) (keyOrder : HashOrder ℕ)
    (setOrder : ℕ → HashOrder ℕ) :
    (g.transitivelyClose keyOrder setOrder).Numbered ∧
    (g.transitivelyClose keyOrder setOrder).elems = g.elems ∧
      ∀ id target, target ∈ (g.transitivelyClose keyOrder setOrder).successorIds id ↔
        Relation.TransGen (fun a b => b ∈ g.successorIds a) id target := by
  have hst : Between g ∅ g :=
    ⟨h, rfl, fun _ => Iff.rfl, fun _ _ => id, fun _ _ hedge => .single hedge, fun _ hid =>
        absurd hid (Set.notMem_empty _)⟩
  have hmem : ∀ key, key ∈ keyOrder.arrange 0 g.successorsById.keys ↔
      key ∈ g.successorsById := fun key =>
    (keyOrder.perm _ _).mem_iff.trans AList.mem_keys
  have hcl := hst.foldl setOrder _ fun key hkey => (hmem key).mp hkey
  refine ⟨hcl.numbered, hcl.elems, fun id target =>
      ⟨hcl.path id target, fun hpath => ?_⟩⟩
  obtain ⟨_, hfst, -⟩ := Relation.TransGen.head'_iff.mp hpath
  refine hcl.closed id (.inr ((hmem id).mpr ?_)) target hpath
  by_contra hnot
  rw [successorIds_eq_nil hnot] at hfst
  cases hfst

end closure

/-! ## The searches -/

section searches

variable {α : Type*} [DecidableEq α] {g : InternedGraph α} {order : HashOrder ℕ} {fromId toId : ℕ}

/-- The nodes that were visited have no edge to the wanted one, and their successors are visited or
still to visit. -/
structure Searching (g : InternedGraph α) (fromId toId : ℕ) (toVisit result : List ℕ) : Prop where
  reachable : ∀ id ∈ toVisit, Relation.ReflTransGen (fun a b => b ∈ g.successorIds a) fromId id
  started : fromId ∈ toVisit ∨ fromId ∈ result
  missing : ∀ id ∈ result, toId ∉ g.successorIds id
  closed : ∀ id ∈ result, ∀ target ∈ g.successorIds id, target ∈ toVisit ∨ target ∈ result

variable {result toVisit : List ℕ}

theorem Searching.not_path (h : Searching g fromId toId [] result) :
    ¬ Relation.TransGen (fun a b => b ∈ g.successorIds a) fromId toId := by
  intro hpath
  obtain ⟨last, hlast, hedge⟩ := Relation.TransGen.tail'_iff.mp hpath
  have hres : last ∈ result := by
    clear hedge hpath
    induction hlast with
    | refl => exact h.started.resolve_left not_mem_nil
    | tail _ hstep ih => exact (h.closed _ ih _ hstep).resolve_left not_mem_nil
  exact h.missing last hres hedge

section

variable {current : ℕ} (h : Searching g fromId toId (current :: toVisit) result)
include h

/-- A visited node is passed over. -/
theorem Searching.skip (hcur : current ∈ result) : Searching g fromId toId toVisit result where
  reachable := fun id hid => h.reachable id (mem_cons_of_mem _ hid)
  started := by
    rcases h.started with hst | hst
    · rcases mem_cons.mp hst with rfl | hst
      · exact .inr hcur
      · exact .inl hst
    · exact .inr hst
  missing := h.missing
  closed := by
    intro id hid target htgt
    rcases h.closed id hid target htgt with hmem | hmem
    · rcases mem_cons.mp hmem with rfl | hmem
      · exact .inr hcur
      · exact .inl hmem
    · exact .inr hmem

theorem Searching.visit {successors : List ℕ} (hmissing : toId ∉ g.successorIds current)
    (hsuccs : ∀ id, id ∈ successors ↔ id ∈ g.successorIds current) :
    Searching g fromId toId (toVisit ++ successors) (current :: result) where
  reachable := by
    intro id hid
    rcases mem_append.mp hid with hid | hid
    · exact h.reachable id (mem_cons_of_mem _ hid)
    · exact (h.reachable current mem_cons_self).tail ((hsuccs id).mp hid)
  started := by
    rcases h.started with hst | hst
    · rcases mem_cons.mp hst with rfl | hst
      · exact .inr mem_cons_self
      · exact .inl (mem_append_left _ hst)
    · exact .inr (mem_cons_of_mem _ hst)
  missing := forall_mem_cons.mpr ⟨hmissing, h.missing⟩
  closed := by
    intro id hid target htgt
    rcases mem_cons.mp hid with rfl | hid
    · exact .inl (mem_append_right _ ((hsuccs target).mpr htgt))
    · rcases h.closed id hid target htgt with hmem | hmem
      · rcases mem_cons.mp hmem with rfl | hmem
        · exact .inr mem_cons_self
        · exact .inl (mem_append_left _ hmem)
      · exact .inr (mem_cons_of_mem _ hmem)

end

/-- The search ends, and finds the wanted node just if there is a path to it. -/
theorem Searching.visitUntil_spec (hg : g.Numbered) (h : Searching g fromId toId toVisit result)
    {fuel : ℕ} (hfuel : toVisit.length + outstanding g.successorIds
      (Finset.range g.elems.length) result ≤ fuel) :
    ∃ found, g.visitUntil order toId fuel toVisit result = some found ∧
      (found = true ↔ Relation.TransGen (fun a b => b ∈ g.successorIds a) fromId toId) := by
  induction fuel generalizing toVisit result with
  | zero =>
    obtain rfl : toVisit = [] := eq_nil_of_length_eq_zero (by omega)
    exact ⟨false, rfl, ⟨nofun, fun hpath => absurd hpath h.not_path⟩⟩
  | succ fuel ih =>
    cases toVisit with
    | nil => exact ⟨false, by rw [visitUntil], ⟨nofun, fun hpath => absurd hpath h.not_path⟩⟩
    | cons current toVisit =>
      rw [length_cons] at hfuel
      rw [visitUntil]
      split
      · rename_i hnone
        have hnil : g.successorIds current = [] := by rw [successorIds, hnone]; rfl
        split
        · rename_i hcur
          exact ih (h.skip hcur) (by omega)
        · have hvis : Searching g fromId toId (toVisit ++ []) (current :: result) :=
            h.visit (by rw [hnil]; exact not_mem_nil) fun id => by rw [hnil]
          rw [append_nil] at hvis
          refine ih hvis ((Nat.add_le_add_left (outstanding_cons_le _ _ _ _) _).trans ?_)
          omega
      · rename_i successors hsuccs
        have hids : g.successorIds current = successors := by rw [successorIds, hsuccs]; rfl
        split
        · rename_i hcont
          refine ⟨true, rfl, ⟨fun _ => ?_, fun _ => rfl⟩⟩
          have hedge : toId ∈ g.successorIds current := by
            rw [hids]
            exact contains_iff_mem.mp hcont
          exact Relation.TransGen.tail'_iff.mpr ⟨current, h.reachable current mem_cons_self, hedge⟩
        · rename_i hcont
          split
          · rename_i hcur
            exact ih (h.skip hcur) (by omega)
          · rename_i hnew
            have hmissing : toId ∉ g.successorIds current := by
              rw [hids]
              exact fun hmem => hcont (contains_iff_mem.mpr hmem)
            have hvis := h.visit hmissing fun id =>
                (order.perm current (g.successorIds current)).mem_iff
            rw [hids] at hvis
            have hlt : current ∈ Finset.range g.elems.length := Finset.mem_range.mpr
              (hg.source_lt current (AList.lookup_isSome.mp (by rw [hsuccs]; rfl)))
            have houtstanding := outstanding_cons g.successorIds hlt hnew
            apply ih hvis
            rw [length_append, (order.perm _ _).length_eq, ← hids]
            omega

/-- A path leads to a node just if the search finds it. -/
theorem Numbered.isReachableSuccessor_iff (hg : g.Numbered) (order : HashOrder ℕ) (a b : α) :
    ∃ found, g.isReachableSuccessor order a b = some found ∧
      (found = true ↔ Relation.ReflTransGen (fun a b => g.successorContains a b = true) a b) := by
  rw [isReachableSuccessor]
  by_cases heq : a = b
  · subst heq
    rw [if_pos rfl]
    exact ⟨true, rfl, fun _ => .refl, fun _ => rfl⟩
  · rw [if_neg heq]
    have hpath : Relation.ReflTransGen (fun a b => g.successorContains a b = true) a b ↔
        Relation.TransGen (fun a b => g.successorContains a b = true) a b := by
      rw [Relation.reflTransGen_iff_eq_or_transGen]
      exact or_iff_right fun hba => heq hba.symm
    rw [hpath, hg.transGen_iff]
    unfold idOf
    cases ha : g.ids.lookup a with
    | none =>
      refine ⟨false, rfl, nofun, ?_⟩
      rintro ⟨id, -, hid, -, -⟩
      rw [(hg.lookup_iff a id).mpr hid] at ha
      cases ha
    | some fromId =>
      have hfrom := (hg.lookup_iff a fromId).mp ha
      cases hb : g.ids.lookup b with
      | none =>
        refine ⟨false, rfl, nofun, ?_⟩
        rintro ⟨-, id, -, hid, -⟩
        rw [(hg.lookup_iff b id).mpr hid] at hb
        cases hb
      | some toId =>
        have hto := (hg.lookup_iff b toId).mp hb
        have hst : Searching g fromId toId [fromId] [] :=
          ⟨fun id hid => mem_singleton.mp hid ▸ .refl, .inl (mem_singleton_self _), nofun, nofun⟩
        have hle := outstanding_nil_le g.successorIds (List.range g.elems.length)
        have hrng : (List.range g.elems.length).toFinset = Finset.range g.elems.length := by
          ext id
          simp
        rw [hrng] at hle
        have hfuel : [fromId].length + outstanding g.successorIds
            (Finset.range g.elems.length) [] ≤ g.visits := by
          rw [visits, length_singleton]
          omega
        obtain ⟨found, hfnd, hiff⟩ : ∃ found,
          g.visitUntil order toId g.visits [fromId] [] = some found ∧
            (found = true ↔ Relation.TransGen (fun a b => b ∈ g.successorIds a) fromId toId) :=
          hst.visitUntil_spec hg hfuel
        refine ⟨found, hfnd, hiff.trans ⟨fun hpath => ⟨fromId, toId, hfrom, hto, hpath⟩, ?_⟩⟩
        rintro ⟨id, id', hid, hid', hpath⟩
        rwa [hg.id_unique hfrom hid, hg.id_unique hto hid']

/-- The search for all nodes finds those that some path leads to, the start among them. -/
theorem Numbered.mem_getReachableSuccessors (hg : g.Numbered) (order : HashOrder ℕ) (a : α) :
    ∃ reached, g.getReachableSuccessors order a = some reached ∧
      ∀ b, b ∈ reached ↔ Relation.ReflTransGen (fun a b => g.successorContains a b = true) a b := by
  unfold getReachableSuccessors idOf
  cases ha : g.ids.lookup a with
  | none =>
    refine ⟨[a], rfl, fun b => ?_⟩
    rw [mem_singleton, Relation.reflTransGen_iff_eq_or_transGen, hg.transGen_iff]
    refine ⟨.inl, fun h => h.resolve_right ?_⟩
    rintro ⟨id, -, hid, -, -⟩
    rw [(hg.lookup_iff a id).mpr hid] at ha
    cases ha
  | some fromId =>
    have hfrom := (hg.lookup_iff a fromId).mp ha
    have hlt : fromId < g.elems.length := (List.getElem?_eq_some_iff.mp hfrom).1
    have hnext : ∀ id b, b ∈ order.arrange id (g.successorIds id) ↔ b ∈ g.successorIds id :=
      fun id b => (order.perm _ _).mem_iff
    have hmem : ∀ id, id ∈ reachQueue (fun id => order.arrange id (g.successorIds id))
        (List.range g.elems.length) fromId ↔
          Relation.ReflTransGen (fun a b => b ∈ order.arrange a (g.successorIds a)) fromId id :=
      mem_reachQueue (fun id _ b hb => mem_range.mpr (hg.target_lt id b ((hnext id b).mp hb)))
          (mem_range.mpr hlt)
    simp only [hnext] at hmem
    have hbd : ∀ id ∈ reachQueue (fun id => order.arrange id (g.successorIds id))
        (List.range g.elems.length) fromId, id < g.elems.length := by
      intro id hid
      rcases Relation.reflTransGen_iff_eq_or_transGen.mp ((hmem id).mp hid) with rfl | hpath
      · exact hlt
      · obtain ⟨_, -, hedge⟩ := Relation.TransGen.tail'_iff.mp hpath
        exact hg.target_lt _ id hedge
    obtain ⟨reached, hreach, hiff⟩ := exists_mapM fun id hid =>
        hg.exists_elem (hbd id hid)
    refine ⟨reached, hreach, fun b => ?_⟩
    rw [hiff, Relation.reflTransGen_iff_eq_or_transGen, hg.transGen_iff]
    simp only [hmem, Relation.reflTransGen_iff_eq_or_transGen]
    constructor
    · rintro ⟨id, rfl | hpath, hid⟩
      · exact .inl (some.inj (hid.symm.trans hfrom))
      · exact .inr ⟨fromId, id, hfrom, hid, hpath⟩
    · rintro (rfl | ⟨id, id', hid, hid', hpath⟩)
      · exact ⟨fromId, .inl rfl, hfrom⟩
      · exact ⟨id', .inr (by rwa [hg.id_unique hfrom hid]), hid'⟩

end searches

/-! ## Building a graph -/

section built

variable {α : Type*} [DecidableEq α] {g : InternedGraph α} {R : α → α → Prop}
    {t t' source : α} {id : ℕ}

/-- The graph has the edges of a relation, each once. -/
structure Built (g : InternedGraph α) (R : α → α → Prop) : Prop where
  numbered : g.Numbered
  nodup : ∀ id, (g.successorIds id).Nodup
  edges : ∀ a b, g.successorContains a b = true ↔ R a b

theorem built_new : Built (new : InternedGraph α) fun _ _ => False :=
  ⟨⟨fun _ _ => ⟨nofun, nofun⟩, fun _ hid => absurd hid (AList.notMem_empty _), fun _ _ htgt =>
      absurd htgt not_mem_nil⟩,
    fun _ => nodup_nil, fun _ _ => ⟨nofun, False.elim⟩⟩

/-- Interning gives an element its number and keeps the numbers and the sets there are. -/
structure Interned (g : InternedGraph α) (t : α) (r : ℕ × InternedGraph α) : Prop where
  numbered : r.2.Numbered
  elem : r.2.elems[r.1]? = some t
  elems : g.elems <+: r.2.elems
  successorsById : r.2.successorsById = g.successorsById
  elements : r.2.elements = g.elements

theorem Numbered.intern (h : g.Numbered) (t : α) : Interned g t (g.intern t) := by
  unfold InternedGraph.intern
  cases hid : g.ids.lookup t with
  | some id => exact ⟨h, (h.lookup_iff t id).mp hid, prefix_rfl, rfl, rfl⟩
  | none =>
    refine ⟨⟨fun t' id => ?_, fun id hmem => ?_, fun id target hmem => ?_⟩, getElem?_concat_length,
      prefix_append _ _, rfl, rfl⟩
    · have hnew : ∀ id : ℕ, g.elems[id]? ≠ some t := by
        intro id hmem
        rw [(h.lookup_iff t id).mpr hmem] at hid
        cases hid
      by_cases heq : t' = t
      · subst heq
        rw [AList.lookup_insert, some_inj]
        constructor
        · rintro rfl
          exact getElem?_concat_length
        · intro hmem
          rcases getElem?_concat_eq_some hmem with hmem | ⟨hmem, -⟩
          · exact absurd hmem (hnew id)
          · exact hmem.symm
      · rw [AList.lookup_insert_ne heq, h.lookup_iff]
        constructor
        · exact getElem?_isPrefixOf (prefix_append _ _)
        · intro hmem
          rcases getElem?_concat_eq_some hmem with hmem | ⟨-, hmem⟩
          · exact hmem
          · exact absurd hmem heq
    · rw [length_append]
      exact Nat.lt_add_right _ (h.source_lt id hmem)
    · rw [length_append]
      exact Nat.lt_add_right _ (h.target_lt id target hmem)

theorem Built.intern (h : Built g R) (t : α) : Built (g.intern t).2 R ∧
    Interned g t (g.intern t) := by
  have hint := h.numbered.intern t
  have hids : ∀ id, (g.intern t).2.successorIds id = g.successorIds id := by
    intro id
    rw [successorIds, hint.successorsById]
    rfl
  refine ⟨⟨hint.numbered, fun id => ?_, fun a b => ?_⟩, hint⟩
  · rw [hids]
    exact h.nodup id
  · rw [← h.edges, hint.numbered.successorContains_iff, h.numbered.successorContains_iff]
    simp only [hids]
    constructor
    · rintro ⟨id, id', hid, hid', hmem⟩
      have hlt := h.numbered.lt_of_mem hmem
      have hlt' := h.numbered.target_lt id id' hmem
      obtain ⟨rest, hrest⟩ := hint.elems
      rw [← hrest, getElem?_append_left hlt] at hid
      rw [← hrest, getElem?_append_left hlt'] at hid'
      exact ⟨id, id', hid, hid', hmem⟩
    · rintro ⟨id, id', hid, hid', hmem⟩
      exact ⟨id, id', getElem?_isPrefixOf hint.elems hid, getElem?_isPrefixOf hint.elems hid', hmem⟩

/-- The successor set of an element is replaced; nothing else that is read changes. -/
theorem Built.replace (h : Built g R) {k : InternedGraph α} {successors : List ℕ}
    (hid : g.elems[id]? = some source) (helems : k.elems = g.elems) (hids : k.ids = g.ids)
    (hsuccs : k.successorsById = g.successorsById.insert id successors)
    (hnd : successors.Nodup)
    {P : α → Prop} (hP : ∀ target ∈ successors, ∃ b, g.elems[target]? = some b ∧ P b)
    (hP' : ∀ b, P b → ∃ target ∈ successors, g.elems[target]? = some b) :
    Built k fun a b => (a ≠ source ∧ R a b) ∨ (a = source ∧ P b) := by
  have hself : k.successorIds id = successors := by
    rw [successorIds, hsuccs, AList.lookup_insert]
    rfl
  have hoth : ∀ i, i ≠ id → k.successorIds i = g.successorIds i := by
    intro i hi
    rw [successorIds, hsuccs, AList.lookup_insert_ne hi]
    rfl
  have hlt := (List.getElem?_eq_some_iff.mp hid).1
  have hnumbered : k.Numbered := by
    refine ⟨fun t i => ?_, fun i hi => ?_, fun i target htgt => ?_⟩
    · rw [hids, helems]
      exact h.numbered.lookup_iff t i
    · rw [helems]
      rw [hsuccs] at hi
      rcases (AList.mem_insert _).mp hi with rfl | hi
      · exact hlt
      · exact h.numbered.source_lt i hi
    · rw [helems]
      by_cases hi : i = id
      · subst hi
        rw [hself] at htgt
        obtain ⟨b, hb, -⟩ := hP target htgt
        exact (List.getElem?_eq_some_iff.mp hb).1
      · rw [hoth i hi] at htgt
        exact h.numbered.target_lt i target htgt
  refine ⟨hnumbered, fun i => ?_, fun a b => ?_⟩
  · by_cases hi : i = id
    · rw [hi, hself]
      exact hnd
    · rw [hoth i hi]
      exact h.nodup i
  · rw [hnumbered.successorContains_iff, helems, ← h.edges, h.numbered.successorContains_iff]
    constructor
    · rintro ⟨i, j, hi, hj, hmem⟩
      by_cases heq : i = id
      · subst heq
        rw [hself] at hmem
        obtain ⟨b', hb', hPb⟩ := hP j hmem
        refine .inr ⟨some.inj (hi.symm.trans hid), ?_⟩
        rwa [some.inj (hj.symm.trans hb')]
      · rw [hoth i heq] at hmem
        refine .inl ⟨?_, i, j, hi, hj, hmem⟩
        rintro rfl
        exact heq (h.numbered.id_unique hi hid)
    · rintro (⟨hne, i, j, hi, hj, hmem⟩ | ⟨rfl, hPb⟩)
      · refine ⟨i, j, hi, hj, ?_⟩
        rw [hoth i]
        · exact hmem
        · rintro rfl
          exact hne (some.inj (hi.symm.trans hid))
      · obtain ⟨target, htgt, hb⟩ := hP' b hPb
        exact ⟨id, target, hid, hb, by rwa [hself]⟩

theorem Built.congr {R' : α → α → Prop} (h : Built g R) (hR : ∀ a b, R a b ↔ R' a b) : Built g R' :=
  ⟨h.numbered, h.nodup, fun a b => (h.edges a b).trans (hR a b)⟩

theorem Built.mem_successorIds (h : Built g R) (hid : g.elems[id]? = some source)
    {target : ℕ} {b : α}
    (hb : g.elems[target]? = some b) : target ∈ g.successorIds id ↔ R source b := by
  rw [← h.edges, h.numbered.successorContains_iff]
  constructor
  · intro hmem
    exact ⟨id, target, hid, hb, hmem⟩
  · rintro ⟨i, j, hi, hj, hmem⟩
    rwa [h.numbered.id_unique hid hi, h.numbered.id_unique hb hj]

theorem nodup_insertSet {l : List ℕ} (hl : l.Nodup) (x : ℕ) : (insertSet l x).Nodup :=
  nodup_foldl_insertSet [x] l hl

theorem Built.addEdge (h : Built g R) (source target : α) :
    Built (g.addEdge source target) fun a b => R a b ∨ (a = source ∧ b = target) := by
  obtain ⟨h₁, hsrc⟩ := h.intern source
  obtain ⟨h₂, htgt⟩ := h₁.intern target
  have hid := getElem?_isPrefixOf htgt.elems hsrc.elem
  have hbuilt := h₂.replace (k := g.addEdge source target) (P :=
    fun b => R source b ∨ b = target) hid rfl rfl rfl
    (nodup_insertSet (h₂.nodup _) _) (fun i hi => ?_) (fun b hb => ?_)
  · refine hbuilt.congr fun a b => ?_
    by_cases ha : a = source
    · subst ha
      simp
    · simp [ha]
  · rcases (mem_insertSet _ _ _).mp hi with hi | rfl
    · obtain ⟨b, hb⟩ := h₂.numbered.exists_elem (h₂.numbered.target_lt _ i hi)
      exact ⟨b, hb, .inl ((h₂.mem_successorIds hid hb).mp hi)⟩
    · exact ⟨target, htgt.elem, .inr rfl⟩
  · rcases hb with hb | rfl
    · obtain ⟨i, j, hi, hj, hmem⟩ :=
        h₂.numbered.successorContains_iff.mp ((h₂.edges source b).mpr hb)
      rw [h₂.numbered.id_unique hi hid] at hmem
      exact ⟨j, (mem_insertSet _ _ _).mpr (.inl hmem), hj⟩
    · exact ⟨_, (mem_insertSet _ _ _).mpr (.inr rfl), htgt.elem⟩

theorem Built.internAll (h : Built g R) (ts : List α) : Built (internAll ts g).2 R ∧
    g.elems <+: (InternedGraph.internAll ts g).2.elems ∧
      List.Forall₂ (fun t id => (InternedGraph.internAll ts g).2.elems[id]? = some t) ts
      (InternedGraph.internAll ts g).1 := by
  induction ts generalizing g with
  | nil => exact ⟨h, prefix_rfl, .nil⟩
  | cons t ts ih =>
    obtain ⟨h₁, hint⟩ := h.intern t
    obtain ⟨hrest, hbeg, hids⟩ := ih h₁
    exact ⟨hrest, hint.elems.trans hbeg, .cons (getElem?_isPrefixOf hbeg hint.elem) hids⟩

theorem Built.addEdges (h : Built g R) (source : α) (targets : List α) :
    Built (g.addEdges source targets) fun a b => R a b ∨ (a = source ∧ b ∈ targets) := by
  obtain ⟨h₁, hsrc⟩ := h.intern source
  obtain ⟨h₂, hbeg, htgts⟩ := h₁.internAll targets
  have hid := getElem?_isPrefixOf hbeg hsrc.elem
  have hbuilt := h₂.replace (k := g.addEdges source targets) (P :=
    fun b => R source b ∨ b ∈ targets) hid rfl rfl rfl
    (nodup_foldl_insertSet _ _ (h₂.nodup _)) (fun i hi => ?_) (fun b hb => ?_)
  · refine hbuilt.congr fun a b => ?_
    by_cases ha : a = source
    · subst ha
      simp
    · simp [ha]
  · rcases (mem_foldl_insertSet _ _ _).mp hi with hi | hi
    · obtain ⟨b, hb⟩ := h₂.numbered.exists_elem (h₂.numbered.target_lt _ i hi)
      exact ⟨b, hb, .inl ((h₂.mem_successorIds hid hb).mp hi)⟩
    · obtain ⟨b, hb, hi⟩ := exists_of_forall₂_right htgts hi
      exact ⟨b, hi, .inr hb⟩
  · rcases hb with hb | hb
    · obtain ⟨i, j, hi, hj, hmem⟩ :=
        h₂.numbered.successorContains_iff.mp ((h₂.edges source b).mpr hb)
      rw [h₂.numbered.id_unique hi hid] at hmem
      exact ⟨j, (mem_foldl_insertSet _ _ _).mpr (.inl hmem), hj⟩
    · obtain ⟨j, hj, hb⟩ := exists_of_forall₂_left htgts hb
      exact ⟨j, (mem_foldl_insertSet _ _ _).mpr (.inr hj), hb⟩

theorem Built.modifySuccessors (h : Built g R) (node : α) {f : List ℕ → List ℕ} {keep : α → Prop}
    (hnd : ∀ l, l.Nodup → (f l).Nodup) (hsub : ∀ l, f l ⊆ l)
    (hkeep : ∀ l, l.Nodup → ∀ id b, g.elems[id]? = some b → (id ∈ f l ↔ id ∈ l ∧ keep b)) :
    Built (g.modifySuccessors node f) fun a b => R a b ∧ (a = node → keep b) := by
  have hnone : (∀ b, ¬ R node b) → Built g fun a b => R a b ∧ (a = node → keep b) := by
    intro hno
    refine h.congr fun a b => ⟨fun hR => ⟨hR, ?_⟩, And.left⟩
    rintro rfl
    exact absurd hR (hno b)
  unfold InternedGraph.modifySuccessors idOf
  cases hid : g.ids.lookup node with
  | none =>
    apply hnone
    intro b hR
    obtain ⟨i, -, hi, -, -⟩ := h.numbered.successorContains_iff.mp ((h.edges node b).mpr hR)
    rw [(h.numbered.lookup_iff node i).mpr hi] at hid
    cases hid
  | some id =>
    have helem := (h.numbered.lookup_iff node id).mp hid
    dsimp only
    cases hsuccs : g.successorsById.lookup id with
    | none =>
      apply hnone
      intro b hR
      obtain ⟨i, j, hi, -, hmem⟩ := h.numbered.successorContains_iff.mp ((h.edges node b).mpr hR)
      rw [h.numbered.id_unique hi helem, successorIds, hsuccs] at hmem
      cases hmem
    | some successors =>
      have hids : g.successorIds id = successors := by
        rw [successorIds, hsuccs]
        rfl
      have hsuccessorsNodup : successors.Nodup := hids ▸ h.nodup id
      have hbuilt :=
        h.replace (k := { g with successorsById := g.successorsById.insert id (f successors) })
        (P := fun b => R node b ∧ keep b) helem rfl rfl rfl (hnd _ hsuccessorsNodup)
          (fun i hi => ?_) (fun b hb => ?_)
      · refine hbuilt.congr fun a b => ?_
        by_cases ha : a = node
        · subst ha
          simp
        · simp [ha]
      · have hi' : i ∈ g.successorIds id := hids ▸ hsub _ hi
        obtain ⟨b, hb⟩ := h.numbered.exists_elem (h.numbered.target_lt _ i hi')
        exact ⟨b, hb, (h.mem_successorIds helem hb).mp hi',
          ((hkeep _ hsuccessorsNodup i b hb).mp hi).2⟩
      · obtain ⟨i, j, hi, hj, hmem⟩ :=
          h.numbered.successorContains_iff.mp ((h.edges node b).mpr hb.1)
        rw [h.numbered.id_unique hi helem, hids] at hmem
        exact ⟨j, (hkeep _ hsuccessorsNodup j b hj).mpr ⟨hmem, hb.2⟩, hj⟩

theorem Built.removeSuccessors (h : Built g R) (node : α) (toRemove : List α) :
    Built (g.removeSuccessors node toRemove) fun a b => R a b ∧ (a = node → b ∉ toRemove) := by
  unfold InternedGraph.removeSuccessors
  simp only [← diff_eq_foldl]
  refine h.modifySuccessors node (fun l hl => hl.diff) (fun l => (diff_sublist l _).subset)
    fun l hl id b hb => ?_
  rw [hl.mem_sdiff_iff, mem_filterMap]
  refine and_congr_right fun _ =>
      not_congr ⟨?_, fun hmem => ⟨b, hmem, (h.numbered.lookup_iff b id).mpr hb⟩⟩
  rintro ⟨b', hmem, hb'⟩
  rwa [some.inj (hb.symm.trans ((h.numbered.lookup_iff b' id).mp hb'))]

theorem Built.removeEdge (h : Built g R) (node successor : α) :
    Built (g.removeEdge node successor) fun a b => R a b ∧ (a = node → b ≠ successor) := by
  unfold InternedGraph.removeEdge idOf
  cases hid : g.ids.lookup successor with
  | none =>
    refine h.congr fun a b => ⟨fun hR => ⟨hR, ?_⟩, And.left⟩
    rintro - rfl
    obtain ⟨-, j, -, hj, -⟩ := h.numbered.successorContains_iff.mp ((h.edges a b).mpr hR)
    rw [(h.numbered.lookup_iff b j).mpr hj] at hid
    cases hid
  | some removed =>
    have helem := (h.numbered.lookup_iff successor removed).mp hid
    refine h.modifySuccessors node (fun l hl => hl.erase removed) (fun l => erase_subset)
      fun l hl id b hb => ?_
    rw [hl.mem_erase_iff, and_comm]
    refine and_congr_right fun _ => not_congr ⟨?_, ?_⟩
    · rintro rfl
      exact some.inj (hb.symm.trans helem)
    · rintro rfl
      exact h.numbered.id_unique hb helem

theorem Built.clearSuccessors (h : Built g R) (node : α) :
    Built (g.clearSuccessors node) fun a b => R a b ∧ (a = node → False) :=
  h.modifySuccessors node (fun _ _ => nodup_nil) (fun _ => nil_subset _) fun l _ id b _ => by simp

end built

/-- The operations by which graphs are built; a set is given in the order of its traversal. -/
inductive Operation (α : Type*) where
  | addEdge (source target : α)
  | addEdges (source : α) (targets : List α)
  | removeEdge (node successor : α)
  | removeSuccessors (node : α) (toRemove : List α)
  | clearSuccessors (node : α)

section runs

variable {α : Type*} [DecidableEq α]

def Operation.apply (g : InternedGraph α) : Operation α → InternedGraph α
  | .addEdge source target => g.addEdge source target
  | .addEdges source targets => g.addEdges source targets
  | .removeEdge node successor => g.removeEdge node successor
  | .removeSuccessors node toRemove => g.removeSuccessors node toRemove
  | .clearSuccessors node => g.clearSuccessors node

/-- What an operation means for the edges. -/
def Operation.edges (R : α → α → Prop) : Operation α → α → α → Prop
  | .addEdge source target => fun a b => R a b ∨ (a = source ∧ b = target)
  | .addEdges source targets => fun a b => R a b ∨ (a = source ∧ b ∈ targets)
  | .removeEdge node successor => fun a b => R a b ∧ (a = node → b ≠ successor)
  | .removeSuccessors node toRemove => fun a b => R a b ∧ (a = node → b ∉ toRemove)
  | .clearSuccessors node => fun a b => R a b ∧ (a = node → False)

theorem Built.apply {g : InternedGraph α} {R : α → α → Prop} (h : Built g R) (op : Operation α) :
    Built (op.apply g) (op.edges R) := by
  cases op with
  | addEdge source target => exact h.addEdge source target
  | addEdges source targets => exact h.addEdges source targets
  | removeEdge node successor => exact h.removeEdge node successor
  | removeSuccessors node toRemove => exact h.removeSuccessors node toRemove
  | clearSuccessors node => exact h.clearSuccessors node

/-- A graph has the edges that its operations add and do not remove again. -/
theorem Built.run {g : InternedGraph α} {R : α → α → Prop} (h : Built g R)
    (ops : List (Operation α)) :
    Built (ops.foldl Operation.apply g) (ops.foldl Operation.edges R) := by
  induction ops generalizing g R with
  | nil => exact h
  | cons op ops ih => exact ih (h.apply op)

/-- Whatever operations built a graph, and whatever the orders of all traversals: the edges of the
closed graph are the paths with an edge at least; closing it again changes no edge; and both
searches in it find just the nodes that paths of the graph before led to, the empty path included.
-/
theorem transitivelyClose_edges (ops : List (Operation α)) (keyOrder : HashOrder ℕ)
    (setOrder : ℕ → HashOrder ℕ) :
    ∃ g closed : InternedGraph α, g = ops.foldl Operation.apply new ∧
    closed = g.transitivelyClose keyOrder setOrder ∧ (∀ a b, closed.successorContains a b = true ↔
        Relation.TransGen (fun a b => g.successorContains a b = true) a b) ∧
      (∀ keyOrder' setOrder' a b,
        (closed.transitivelyClose keyOrder' setOrder').successorContains a b =
        closed.successorContains a b) ∧
      (∀ order a b, ∃ found, closed.isReachableSuccessor order a b = some found ∧
        (found = true ↔ Relation.ReflTransGen (fun a b => g.successorContains a b = true) a b)) ∧
      ∀ order a, ∃ reached, closed.getReachableSuccessors order a = some reached ∧
        ∀ b, b ∈ reached ↔ Relation.ReflTransGen (fun a b => g.successorContains a b = true) a b :=
  by
  have hg : (ops.foldl Operation.apply (new : InternedGraph α)).Numbered :=
    (built_new.run ops).numbered
  have hclose : ∀ {g : InternedGraph α}, g.Numbered → ∀ keyOrder setOrder a b,
      (g.transitivelyClose keyOrder setOrder).successorContains a b = true ↔
        Relation.TransGen (fun a b => g.successorContains a b = true) a b := by
    intro g hg keyOrder setOrder a b
    obtain ⟨hcl, helems, hpaths⟩ := hg.transitivelyClose keyOrder setOrder
    rw [hcl.successorContains_iff, hg.transGen_iff, helems]
    simp only [hpaths]
  have hedges := hclose hg keyOrder setOrder
  have hcl := (hg.transitivelyClose keyOrder setOrder).1
  have hrelation : (fun a b => ((ops.foldl Operation.apply new).transitivelyClose keyOrder
    setOrder).successorContains a b = true) = Relation.TransGen fun a b =>
          (ops.foldl Operation.apply (new : InternedGraph α)).successorContains a b = true := by
    funext a b
    exact propext (hedges a b)
  refine ⟨_, _, rfl, rfl, hedges, fun keyOrder' setOrder' a b => ?_, fun order a b => ?_,
    fun order a => ?_⟩
  · rw [Bool.eq_iff_iff, hclose hcl, hrelation, hedges]
    exact ⟨fun h => by rwa [Relation.transGen_eq_self] at h, .single⟩
  · obtain ⟨found, hfnd, hiff⟩ := hcl.isReachableSuccessor_iff order a b
    rw [hrelation, Relation.reflTransGen_transGen] at hiff
    exact ⟨found, hfnd, hiff⟩
  · obtain ⟨reached, hreach, hiff⟩ := hcl.mem_getReachableSuccessors order a
    rw [hrelation, Relation.reflTransGen_transGen] at hiff
    exact ⟨reached, hreach, hiff⟩

end runs

end InternedGraph

end Hermit
