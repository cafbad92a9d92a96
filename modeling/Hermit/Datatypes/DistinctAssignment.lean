import Hermit.Library.Matching

/-! # Distinct values for the nodes of a clique

Nodes that must all differ take values by a matching, which grows in phases.  A phase lays the
nodes out in layers along the values and their owners, from the nodes without a value on, and
then looks for paths through the layers to free values, depth first with a stack.  A phase whose
layers meet a free value gives a value to one more node at least; otherwise no larger matching
exists.
-/

namespace Hermit.Datatypes

open Library List Option Function

variable {n : ℕ} (lists : Fin n → List ℕ)

/-! ## Layers -/

/-- The layers of a phase.  Nodes that are not reached have none. -/
structure Layering (n : ℕ) where
  found : Bool
  layer : Fin n → Option ℕ
  queue : List (Fin n)

/-- Nodes without a value come first. -/
def startLayers (m : Matching (Fin n) ℕ) : Layering n where
  found := false
  layer := fun i => if m.value i = none then some 0 else none
  queue := (List.finRange n).filter fun i => m.value i = none

/-- Follow one value to its owner. -/
def layerValue (m : Matching (Fin n) ℕ) (below : ℕ) (s : Layering n) (v : ℕ) : Layering n :=
  match m.owner v with
  | none => { s with found := true }
  | some j =>
    if s.layer j = none then
      { s with layer := Function.update s.layer j (some (below + 1)), queue := s.queue ++ [j] }
    else s

/-- Breadth first over the queue. -/
def layers (m : Matching (Fin n) ℕ) : ℕ → Layering n → Option (Layering n)
  | 0, s => if s.queue = [] then some s else none
  | fuel + 1, s =>
    match s.queue with
    | [] => some s
    | i :: queue => do
      let below ← s.layer i
      layers m fuel ((lists i).foldl (layerValue m below) { s with queue := queue })

/-! ## Augmenting paths -/

structure Augmenting (n : ℕ) where
  matching : Matching (Fin n) ℕ
  layer : Fin n → Option ℕ
  nextCandidate : Fin n → ℕ

/-- Go on to the next candidate of a node. -/
def Augmenting.advance (s : Augmenting n) (i : Fin n) : Augmenting n :=
  { s with nextCandidate := Function.update s.nextCandidate i (s.nextCandidate i + 1) }

/-- A dead end in this phase. -/
def Augmenting.leave (s : Augmenting n) (i : Fin n) : Augmenting n :=
  { s with layer := Function.update s.layer i none }

/-- Each node of the stack takes the value it tried last. -/
def flip : List (Fin n) → Augmenting n → Option (Augmenting n)
  | [], s => some s
  | node :: stack, s => do
    let value ← (lists node)[s.nextCandidate node - 1]?
    flip stack
      { s with matching := s.matching.take node value, layer := Function.update s.layer node none }

/-- Whether one node is in the layer next to that of another. -/
def nextLayer (s : Augmenting n) (i j : Fin n) : Bool :=
  match s.layer i, s.layer j with
  | some d, some e => e = d + 1
  | _, _ => false

/-- Depth first from the top of the stack until a free value is met or no node is left. -/
def augment : ℕ → List (Fin n) → Augmenting n → Option (Augmenting n)
  | _, [], s => some s
  | 0, _ :: _, _ => none
  | fuel + 1, i :: stack, s =>
    match (lists i)[s.nextCandidate i]? with
    | none => augment fuel stack (s.leave i)
    | some v =>
      match s.matching.owner v with
      | none => flip lists (i :: stack) (s.advance i)
      | some j =>
        if nextLayer s i j then augment fuel (j :: i :: stack) (s.advance i)
        else augment fuel (i :: stack) (s.advance i)

/-- Steps enough for one search: every candidate is tried once, and every node leaves the stack. -/
def augmentFuel : ℕ := 2 * ((List.finRange n).map fun i => (lists i).length).sum + 1

/-- Look for a path from each node without a value. -/
def augmentAll : List (Fin n) → Augmenting n → Option (Augmenting n)
  | [], s => some s
  | root :: roots, s => do
    if s.matching.value root ≠ none then augmentAll roots s
    else
      let s ← augment lists (augmentFuel lists) [root] s
      augmentAll roots s

def phases : ℕ → Matching (Fin n) ℕ → Option Bool
  | 0, _ => none
  | fuel + 1, m => do
    let s ← layers lists m n (startLayers m)
    if s.found then
      let a ← augmentAll lists (List.finRange n) ⟨m, s.layer, fun _ => 0⟩
      phases fuel a.matching
    else return (List.finRange n).all fun i => (m.value i).isSome

/-- Whether all nodes can take different values of their lists. -/
def hasDistinctAssignment (valueCount : ℕ) : Option Bool :=
  if valueCount < n then some false else phases lists (n + 1) Matching.empty

/-! ## The layers of a phase -/

section layers

variable {lists} {m : Matching (Fin n) ℕ} {s s' : Layering n} {done : List (Fin n)}

/-- Layers so far: nodes without a value come first, the others next to a node with a value of
theirs.  The nodes with a layer were treated or wait in the queue. -/
structure Layered (lists : Fin n → List ℕ) (m : Matching (Fin n) ℕ) (s : Layering n)
    (done : List (Fin n)) :
    Prop where
  start : ∀ i, m.value i = none → s.layer i = some 0
  zero : ∀ i, s.layer i = some 0 → m.value i = none
  parent : ∀ j d, s.layer j = some (d + 1) → ∃ i v,
    s.layer i = some d ∧ v ∈ lists i ∧ m.owner v = some j
  found : s.found → ∃ i v, s.layer i ≠ none ∧ v ∈ lists i ∧ m.owner v = none
  queued : ∀ i, s.layer i ≠ none ↔ i ∈ done ++ s.queue
  nodup : (done ++ s.queue).Nodup

/-- A value was followed to its owner, or found to be free. -/
def Followed (m : Matching (Fin n) ℕ) (s : Layering n) (v : ℕ) : Prop :=
  (m.owner v = none → s.found) ∧ ∀ j, m.owner v = some j → s.layer j ≠ none

/-- Nothing is forgotten. -/
structure Layering.Grows (s s' : Layering n) : Prop where
  found : s.found → s'.found
  layer : ∀ {j d}, s.layer j = some d → s'.layer j = some d

theorem Layering.Grows.refl (s : Layering n) : s.Grows s := ⟨id, id⟩

theorem Layering.Grows.trans {s'' : Layering n} (h : s.Grows s') (h' : s'.Grows s'') :
    s.Grows s'' :=
  ⟨fun hf => h'.found (h.found hf), fun hl => h'.layer (h.layer hl)⟩

theorem Followed.grows {v : ℕ} (hv : Followed m s v) (h : s.Grows s') : Followed m s' v := by
  refine ⟨fun hnone => h.found (hv.1 hnone), fun j hj => ?_⟩
  obtain ⟨d, hd⟩ := ne_none_iff_exists'.mp (hv.2 j hj)
  rw [h.layer hd]
  exact some_ne_none d

theorem layered_start : Layered lists m (startLayers m) [] where
  start := fun i hi => if_pos hi
  zero := by
    intro i hi
    by_contra hne
    rw [startLayers] at hi
    dsimp only at hi
    rw [if_neg hne] at hi
    cases hi
  parent := by
    intro j d hj
    by_cases hnone : m.value j = none <;> simp [startLayers, hnone] at hj
  found := nofun
  queued := by
    intro i
    by_cases hnone : m.value i = none <;> simp [startLayers, hnone]
  nodup := (nodup_finRange n).filter _

/-- Following a value of a node with a layer. -/
theorem Layered.layerValue (h : Layered lists m s done) {i : Fin n} {below v : ℕ}
    (hi : s.layer i = some below) (hv : v ∈ lists i) :
    Layered lists m (layerValue m below s v) done ∧ Followed m (layerValue m below s v) v ∧
      s.Grows (layerValue m below s v) := by
  unfold Datatypes.layerValue
  cases howner : m.owner v with
  | none =>
    refine ⟨{ h with found := fun _ => ⟨i, v, ?_, hv, howner⟩ }, ⟨fun _ => rfl, ?_⟩,
      ⟨fun _ => rfl, id⟩⟩
    · rw [hi]
      exact some_ne_none below
    · intro j hj
      rw [howner] at hj
      cases hj
  | some j =>
    dsimp only
    by_cases hj : s.layer j = none
    · rw [if_pos hj]
      have hne : ∀ {k d}, s.layer k = some d → k ≠ j := by
        rintro k d hk rfl
        rw [hj] at hk
        cases hk
      have hgrow : ∀ {k d}, s.layer k = some d →
          Function.update s.layer j (some (below + 1)) k = some d := by
        intro k d hk
        rw [update_of_ne (hne hk), hk]
      have hself : Function.update s.layer j (some (below + 1)) j = some (below + 1) :=
        update_self ..
      refine ⟨?_, ⟨?_, ?_⟩, ⟨id, hgrow⟩⟩
      · exact {
          start := fun k hk => hgrow (h.start k hk)
          zero := by
            intro k hk
            dsimp only at hk
            by_cases heq : k = j
            · subst heq
              rw [hself] at hk
              cases hk
            · rw [update_of_ne heq] at hk
              exact h.zero k hk
          parent := by
            intro k d hk
            dsimp only at hk
            by_cases heq : k = j
            · subst heq
              rw [hself] at hk
              obtain rfl : below = d := Nat.succ.inj (some.inj hk)
              exact ⟨i, v, hgrow hi, hv, howner⟩
            · rw [update_of_ne heq] at hk
              obtain ⟨i', v', hi', hv', howner'⟩ := h.parent k d hk
              exact ⟨i', v', hgrow hi', hv', howner'⟩
          found := by
            intro hf
            obtain ⟨i', v', hi', hv', howner'⟩ := h.found hf
            obtain ⟨d, hd⟩ := ne_none_iff_exists'.mp hi'
            exact ⟨i', v', fun hnone => some_ne_none d ((hgrow hd).symm.trans hnone), hv', howner'⟩
          queued := by
            intro k
            dsimp only
            rw [← append_assoc, mem_append, mem_singleton, ← h.queued]
            by_cases heq : k = j
            · subst heq
              rw [hself]
              exact ⟨fun _ => .inr rfl, fun _ => some_ne_none _⟩
            · rw [update_of_ne heq]
              exact ⟨.inl, fun hk => hk.resolve_right heq⟩
          nodup := by
            dsimp only
            rw [← append_assoc]
            refine nodup_append.mpr ⟨h.nodup, nodup_singleton j, fun k hk k' hk' => ?_⟩
            rw [mem_singleton.mp hk']
            rintro rfl
            exact (h.queued k).mpr hk hj }
      · intro hnone
        rw [howner] at hnone
        cases hnone
      · intro k hk
        rw [howner] at hk
        dsimp only
        rw [← some.inj hk, hself]
        exact some_ne_none _
    · rw [if_neg hj]
      refine ⟨h, ⟨?_, ?_⟩, .refl s⟩
      · intro hnone
        rw [howner] at hnone
        cases hnone
      · intro k hk
        rw [howner] at hk
        rwa [← some.inj hk]

theorem Layered.foldl_layerValue {i : Fin n} {below : ℕ} {vs : List ℕ} (hvs : ∀ v ∈ vs, v ∈ lists i)
    (h : Layered lists m s done) (hi : s.layer i = some below) :
    Layered lists m (vs.foldl (Datatypes.layerValue m below) s) done ∧
      (∀ v ∈ vs, Followed m (vs.foldl (Datatypes.layerValue m below) s) v) ∧
      s.Grows (vs.foldl (Datatypes.layerValue m below) s) := by
  induction vs generalizing s with
  | nil => exact ⟨h, nofun, .refl s⟩
  | cons v vs ih =>
    obtain ⟨hv, hvs⟩ := forall_mem_cons.mp hvs
    obtain ⟨hstep, hfol, hgrow⟩ := h.layerValue hi hv
    obtain ⟨hrest, hfol', hgrow'⟩ := ih hvs hstep (hgrow.layer hi)
    exact ⟨hrest, forall_mem_cons.mpr ⟨hfol.grows hgrow', hfol'⟩, hgrow.trans hgrow'⟩

/-- All nodes with a layer are treated in the end. -/
theorem Layered.layers {fuel : ℕ} (h : Layered lists m s done) (hfuel : n ≤ done.length + fuel)
    (hdone : ∀ i ∈ done, ∀ v ∈ lists i, Followed m s v) :
    ∃ s' done', layers lists m fuel s = some s' ∧ Layered lists m s' done' ∧
      ∀ i, s'.layer i ≠ none → ∀ v ∈ lists i, Followed m s' v := by
  have hend : s.queue = [] → ∀ i, s.layer i ≠ none → ∀ v ∈ lists i, Followed m s v := by
    intro hnil i hi
    rw [h.queued, hnil, append_nil] at hi
    exact hdone i hi
  induction fuel generalizing s done with
  | zero =>
    have hlen := h.nodup.length_le_card
    rw [length_append, Fintype.card_fin] at hlen
    have hnil : s.queue = [] := length_eq_zero_iff.mp (by omega)
    exact ⟨s, done, by rw [Datatypes.layers, if_pos hnil], h, hend hnil⟩
  | succ fuel ih =>
    rw [Datatypes.layers]
    cases hqueue : s.queue with
    | nil => exact ⟨s, done, rfl, h, hend hqueue⟩
    | cons i queue =>
      have hmem : i ∈ done ++ s.queue := by
        rw [hqueue]
        exact mem_append_right done mem_cons_self
      obtain ⟨below, hblw⟩ := ne_none_iff_exists'.mp ((h.queued i).mpr hmem)
      have hmoved : done ++ s.queue = (done ++ [i]) ++ queue := by
        rw [hqueue, append_assoc, singleton_append]
      have hst : Layered lists m { s with queue := queue } (done ++ [i]) := { h with
        queued := hmoved ▸ h.queued
        nodup := hmoved ▸ h.nodup }
      obtain ⟨hlayered, hfol, hgrow⟩ := hst.foldl_layerValue (fun v hv => hv) hblw
      dsimp only
      rw [hblw, bind_eq_bind, bind_some]
      have hdone' : ∀ k ∈ done ++ [i], ∀ v ∈ lists k, Followed m
          ((lists i).foldl (Datatypes.layerValue m below) { s with queue := queue }) v := by
        intro k hk v hv
        rcases mem_append.mp hk with hk | hk
        · exact Followed.grows (s := { s with queue := queue }) (hdone k hk v hv) hgrow
        · rw [mem_singleton.mp hk] at hv
          exact hfol v hv
      refine ih hlayered ?_ hdone' ?_
      · rw [length_append, length_singleton]
        omega
      · intro hnil k hk
        rw [hlayered.queued, hnil, append_nil] at hk
        exact hdone' k hk

end layers

/-! ## Paths -/

section paths

variable {lists} {s s' : Augmenting n}

/-- The stack of a search, from its top: every node but the first has the value that the node
below it tried last, and is in the next layer. -/
inductive Chain (lists : Fin n → List ℕ) (s : Augmenting n) : List (Fin n) → Prop
  | root {i : Fin n} : s.matching.value i = none → Chain lists s [i]
  | push {a b : Fin n} {rest : List (Fin n)} {d v : ℕ} : Chain lists s (b :: rest) →
    0 < s.nextCandidate b →
      (lists b)[s.nextCandidate b - 1]? = some v → s.matching.value a = some v →
        s.layer b = some d →
      s.layer a = some (d + 1) → Chain lists s (a :: b :: rest)

variable {rest : List (Fin n)} {a : Fin n}

/-- The chain does not depend on what its top will try next. -/
theorem Chain.congr (h : Chain lists s (a :: rest))
    (hval : ∀ k ∈ a :: rest, s'.matching.value k = s.matching.value k)
    (hlayer : ∀ k ∈ a :: rest, s'.layer k = s.layer k)
    (hnext : ∀ k ∈ rest, s'.nextCandidate k = s.nextCandidate k) : Chain lists s' (a :: rest) := by
  induction rest generalizing a with
  | nil =>
    cases h with
    | root hfree => exact .root ((hval a mem_cons_self).trans hfree)
  | cons b rest ih =>
    cases h with
    | push hrest hpos hv hval' hlayer' hlayer'' =>
      have hb : s'.nextCandidate b = s.nextCandidate b := hnext b mem_cons_self
      refine .push (ih hrest (fun k hk => hval k (mem_cons_of_mem a hk))
        (fun k hk => hlayer k (mem_cons_of_mem a hk)) fun k hk => hnext k (mem_cons_of_mem b hk))
        (by rwa [hb]) (by rwa [hb]) ((hval a mem_cons_self).trans hval')
        ((hlayer b (mem_cons_of_mem a mem_cons_self)).trans hlayer')
        ((hlayer a mem_cons_self).trans hlayer'')

theorem Chain.layer_lt {a b : Fin n} (h : Chain lists s (a :: rest)) (hb : b ∈ rest) :
    ∃ d e, s.layer a = some d ∧ s.layer b = some e ∧ e < d := by
  induction rest generalizing a with
  | nil => cases hb
  | cons c rest ih =>
    cases h with
    | push hrest _ _ _ hc ha =>
      rcases mem_cons.mp hb with rfl | hb
      · exact ⟨_, _, ha, hc, Nat.lt_succ_self _⟩
      · obtain ⟨d, e, hd, he, hlt⟩ := ih hrest hb
        obtain rfl := some.inj (hc.symm.trans hd)
        exact ⟨_, e, ha, he, by omega⟩

theorem Chain.not_mem (h : Chain lists s (a :: rest)) : a ∉ rest := by
  intro ha
  obtain ⟨d, e, hd, he, hlt⟩ := h.layer_lt ha
  rw [hd] at he
  have := some.inj he
  omega

/-- Whom a matching gives values, a larger one does as well, and someone else too. -/
def Larger (m m' : Matching (Fin n) ℕ) : Prop :=
  (∀ i, m.value i ≠ none → m'.value i ≠ none) ∧ ∃ i, m.value i = none ∧ m'.value i ≠ none

theorem Larger.mono {m m' m'' : Matching (Fin n) ℕ} (h : Larger m m')
    (hkept : ∀ i, m'.value i ≠ none → m''.value i ≠ none) : Larger m m'' := by
  obtain ⟨hall, i, hi, hi'⟩ := h
  exact ⟨fun k hk => hkept k (hall k hk), i, hi, hkept i hi'⟩

abbrev Candidate (lists : Fin n → List ℕ) (i : Fin n) (v : ℕ) : Prop := v ∈ lists i

/-- Flipping the path of the stack from a free value gives a value to the node at the bottom. -/
theorem Chain.flip (h : Chain lists s (a :: rest)) {v : ℕ}
    (hv : (lists a)[s.nextCandidate a - 1]? = some v)
    (hvalid : s.matching.ValidBut (Candidate lists) v) :
    ∃ s', flip lists (a :: rest) s = some s' ∧ s'.matching.Valid (Candidate lists) ∧
      Larger s.matching s'.matching := by
  induction rest generalizing a v s with
  | nil =>
    cases h with
    | root hfree =>
      refine ⟨{ s with matching := s.matching.take a v, layer := Function.update s.layer a none },
          ?_,
        hvalid.take_free (mem_of_getElem? hv) hfree, ?_, a, hfree, ?_⟩
      · rw [Datatypes.flip, hv]
        rfl
      · intro i hi
        by_cases heq : i = a
        · subst heq
          rw [Matching.value_take_self]
          exact some_ne_none v
        · rwa [Matching.value_take_of_ne v heq]
      · rw [Matching.value_take_self]
        exact some_ne_none v
  | cons b rest ih =>
    have hnm := h.not_mem
    cases h with
    | @push _ _ _ d w hrest hpos hw hval _ _ =>
      have hne : ∀ k ∈ b :: rest, k ≠ a := fun k hk heq => hnm (heq ▸ hk)
      have hchain : Chain lists { s with
          matching := s.matching.take a v, layer := Function.update s.layer a none } (b :: rest) :=
        hrest.congr (fun k hk => Matching.value_take_of_ne v (hne k hk))
          (fun k hk => update_of_ne (hne k hk) ..) fun k _ => rfl
      obtain ⟨s', hs', hvalid', hkept, i, hi, hi'⟩ := ih hchain hw
        (hvalid.take_swap (mem_of_getElem? hv) hval)
      have hia : i ≠ a := by
        rintro rfl
        rw [Matching.value_take_self] at hi
        cases hi
      refine ⟨s', ?_, hvalid', ?_, i, ?_, hi'⟩
      · rw [Datatypes.flip, hv]
        exact hs'
      · intro k hk
        apply hkept
        by_cases heq : k = a
        · subst heq
          rw [Matching.value_take_self]
          exact some_ne_none v
        · rwa [Matching.value_take_of_ne v heq]
      · rwa [Matching.value_take_of_ne v hia] at hi

/-! ## Searches -/

section

variable (s : Augmenting n)

@[simp] theorem Augmenting.nextCandidate_advance_self (i : Fin n) :
    (s.advance i).nextCandidate i = s.nextCandidate i + 1 := update_self ..

theorem Augmenting.nextCandidate_advance_of_ne {i k : Fin n} (h : k ≠ i) :
    (s.advance i).nextCandidate k = s.nextCandidate k := update_of_ne h ..

@[simp] theorem Augmenting.layer_leave_self (i : Fin n) : (s.leave i).layer i = none :=
  update_self ..

theorem Augmenting.layer_leave_of_ne {i k : Fin n} (h : k ≠ i) :
    (s.leave i).layer k = s.layer k := update_of_ne h ..

end

theorem Augmenting.layer_leave_of_none {s : Augmenting n} {k : Fin n} (h : s.layer k = none)
    (i : Fin n) :
    (s.leave i).layer k = none := by
  by_cases heq : k = i
  · rw [heq, layer_leave_self]
  · rwa [layer_leave_of_ne s heq]

theorem Chain.leave (h : Chain lists s (a :: rest)) (hne : rest ≠ []) :
    Chain lists (s.leave a) rest := by
  have hnm := h.not_mem
  cases h with
  | root => exact absurd rfl hne
  | push hrest =>
    refine hrest.congr (fun _ _ => rfl) (fun k hk => s.layer_leave_of_ne ?_) fun _ _ => rfl
    rintro rfl
    exact hnm hk

theorem Chain.advance (h : Chain lists s (a :: rest)) : Chain lists (s.advance a) (a :: rest) := by
  refine h.congr (fun _ _ => rfl) (fun _ _ => rfl) fun k hk => s.nextCandidate_advance_of_ne ?_
  rintro rfl
  exact h.not_mem hk

theorem nextLayer_eq_true {i j : Fin n} (h : nextLayer s i j = true) :
    ∃ d, s.layer i = some d ∧ s.layer j = some (d + 1) := by
  unfold nextLayer at h
  cases hi : s.layer i with
  | none =>
    rw [hi] at h
    cases h
  | some d =>
    cases hj : s.layer j with
    | none =>
      rw [hi, hj] at h
      cases h
    | some e =>
      rw [hi, hj] at h
      exact ⟨d, rfl, by rw [of_decide_eq_true h]⟩

/-- The candidates that were not tried yet. -/
def untried (lists : Fin n → List ℕ) (s : Augmenting n) : ℕ :=
  ((List.finRange n).map fun i => (lists i).length - s.nextCandidate i).sum

theorem sum_map_lt {l : List (Fin n)} (hl : l.Nodup) {i : Fin n} (hi : i ∈ l) {f g : Fin n → ℕ}
    (hne : ∀ k, k ≠ i → g k = f k) (hlt : g i < f i) : (l.map g).sum < (l.map f).sum := by
  induction l with
  | nil => cases hi
  | cons a l ih =>
    obtain ⟨ha, hl⟩ := nodup_cons.mp hl
    rw [map_cons, map_cons, sum_cons, sum_cons]
    rcases mem_cons.mp hi with rfl | hi
    · have hrest : l.map g = l.map f := map_congr_left fun k hk => hne k fun heq => ha (heq ▸ hk)
      rw [hrest]
      omega
    · have hrest := ih hl hi
      rw [hne a fun heq => ha (heq ▸ hi)]
      omega

theorem untried_advance_lt {i : Fin n} (hi : s.nextCandidate i < (lists i).length) :
    untried lists (s.advance i) < untried lists s := by
  refine sum_map_lt (nodup_finRange n) (mem_finRange i) (fun k hk => ?_) ?_
  · rw [s.nextCandidate_advance_of_ne hk]
  · rw [s.nextCandidate_advance_self]
    omega

/-- What a search without success knows: nodes whose layer is gone have tried all candidates,
and what was tried has an owner, who was visited if it is in the next layer. -/
structure Explored (lists : Fin n → List ℕ) (layer : Fin n → Option ℕ) (s : Augmenting n)
    (stack : List (Fin n)) : Prop where
  layer_eq : ∀ i, s.layer i = layer i ∨ s.layer i = none ∧ (lists i).length ≤ s.nextCandidate i
  tried : ∀ i t v, t < s.nextCandidate i → (lists i)[t]? = some v → ∃ j,
    s.matching.owner v = some j ∧
    ∀ d, layer i = some d → layer j = some (d + 1) → s.layer j = none ∨ j ∈ stack

section explored

variable {layer : Fin n → Option ℕ} {stack : List (Fin n)} {i : Fin n}

theorem Explored.leave (h : Explored lists layer s (i :: stack))
    (hi : (lists i).length ≤ s.nextCandidate i) :
    Explored lists layer (s.leave i) stack where
  layer_eq := by
    intro k
    by_cases heq : k = i
    · subst heq
      exact .inr ⟨s.layer_leave_self k, hi⟩
    · rw [s.layer_leave_of_ne heq]
      exact h.layer_eq k
  tried := by
    intro k t v ht hv
    obtain ⟨j, hj, hvis⟩ := h.tried k t v ht hv
    refine ⟨j, hj, fun d hd hd' => ?_⟩
    rcases hvis d hd hd' with hnone | hmem
    · exact .inl (Augmenting.layer_leave_of_none hnone i)
    · rcases mem_cons.mp hmem with rfl | hmem
      · exact .inl (s.layer_leave_self j)
      · exact .inr hmem

/-- One more candidate is tried, and its owner is on the stack or need not be. -/
theorem Explored.advance (h : Explored lists layer s (i :: stack)) {v : ℕ} {j : Fin n}
    {stack' : List (Fin n)}
    (hv : (lists i)[s.nextCandidate i]? = some v) (howner : s.matching.owner v = some j)
    (hsub : ∀ k ∈ i :: stack, k ∈ stack')
    (hvis : ∀ d, layer i = some d → layer j = some (d + 1) → s.layer j = none ∨ j ∈ stack') :
    Explored lists layer (s.advance i) stack' where
  layer_eq := by
    intro k
    refine (h.layer_eq k).imp_right fun hk => ⟨hk.1, hk.2.trans ?_⟩
    by_cases heq : k = i
    · subst heq
      rw [s.nextCandidate_advance_self]
      omega
    · rw [s.nextCandidate_advance_of_ne heq]
  tried := by
    intro k t w ht hw
    by_cases hold : t < s.nextCandidate k
    · obtain ⟨j', hj', hvis'⟩ := h.tried k t w hold hw
      exact ⟨j', hj', fun d hd hd' => (hvis' d hd hd').imp_right (hsub j')⟩
    · have hki : k = i := by
        by_contra hne
        rw [s.nextCandidate_advance_of_ne hne] at ht
        exact hold ht
      subst hki
      rw [s.nextCandidate_advance_self] at ht
      obtain rfl : t = s.nextCandidate k := by omega
      obtain rfl := some.inj (hv.symm.trans hw)
      exact ⟨j, howner, hvis⟩

/-- An owner in the next layer that is not pushed has lost its layer. -/
theorem Explored.layer_eq_none (h : Explored lists layer s stack) {j : Fin n} {d : ℕ}
    (hi : s.nextCandidate i < (lists i).length) (hnext : ¬ nextLayer s i j = true)
    (hd : layer i = some d) (hd' : layer j = some (d + 1)) : s.layer j = none := by
  rcases h.layer_eq j with hj | ⟨hj, -⟩
  · rcases h.layer_eq i with hi' | ⟨-, hle⟩
    · refine absurd ?_ hnext
      rw [nextLayer, hi', hj, hd, hd']
      exact decide_eq_true rfl
    · omega
  · exact hj

theorem Explored.finished (h : Explored lists layer s []) : Explored lists layer s [] ∧
    ∀ k, k ∈ ([] : List (Fin n)) ∨ s.layer k = none → s.layer k = none :=
  ⟨h, fun _ hk => hk.resolve_left not_mem_nil⟩

/-- A search ends with a larger matching, or has tried everything within reach. -/
theorem augment_spec (layer : Fin n → Option ℕ) {fuel : ℕ}
    (hfuel : 2 * untried lists s + stack.length ≤ fuel)
    (hstack : stack ≠ [] → Chain lists s stack) (hvalid : s.matching.Valid (Candidate lists)) :
    ∃ s', augment lists fuel stack s = some s' ∧ s'.matching.Valid (Candidate lists) ∧
      (Larger s.matching s'.matching ∨ s'.matching = s.matching ∧
        (Explored lists layer s stack → Explored lists layer s' [] ∧
          ∀ k, k ∈ stack ∨ s.layer k = none → s'.layer k = none)) := by
  induction fuel generalizing s stack with
  | zero =>
    obtain rfl : stack = [] := length_eq_zero_iff.mp (by omega)
    exact ⟨s, by rw [augment.eq_def], hvalid, .inr ⟨rfl, Explored.finished⟩⟩
  | succ fuel ih =>
    cases stack with
    | nil => exact ⟨s, by rw [augment.eq_def], hvalid, .inr ⟨rfl, Explored.finished⟩⟩
    | cons i stack =>
      have hchain := hstack (cons_ne_nil i stack)
      rw [length_cons] at hfuel
      rw [augment]
      cases hcand : (lists i)[s.nextCandidate i]? with
      | none =>
        obtain ⟨s', hs', hvalid', hcases⟩ :=
            ih (show 2 * untried lists (s.leave i) + stack.length ≤ fuel by
          change 2 * untried lists s + stack.length ≤ fuel
          omega) hchain.leave hvalid
        refine ⟨s', hs', hvalid', hcases.imp_right fun hrest => ⟨hrest.1, fun h => ?_⟩⟩
        obtain ⟨hend, hnone⟩ := hrest.2 (h.leave (List.getElem?_eq_none_iff.mp hcand))
        refine ⟨hend, fun k hk => hnone k ?_⟩
        rcases hk with hk | hk
        · rcases mem_cons.mp hk with rfl | hk
          · exact .inr (s.layer_leave_self k)
          · exact .inl hk
        · exact .inr (Augmenting.layer_leave_of_none hk i)
      | some v =>
        have hlt : s.nextCandidate i < (lists i).length := (List.getElem?_eq_some_iff.mp hcand).1
        have huntried := untried_advance_lt hlt
        have hlast : (lists i)[(s.advance i).nextCandidate i - 1]? = some v := by
          rw [s.nextCandidate_advance_self, Nat.add_sub_cancel, hcand]
        dsimp only
        cases howner : s.matching.owner v with
        | none =>
          obtain ⟨s', hs', hvalid', hlrg⟩ := hchain.advance.flip hlast
            (Matching.Valid.validBut (m := (s.advance i).matching) hvalid howner)
          exact ⟨s', hs', hvalid', .inl hlrg⟩
        | some j =>
          dsimp only
          by_cases hlayer : nextLayer s i j = true
          · rw [if_pos hlayer]
            obtain ⟨d, hd, hd'⟩ := nextLayer_eq_true hlayer
            obtain ⟨s', hs', hvalid', hcases⟩ := ih
              (show 2 * untried lists (s.advance i) + (j :: i :: stack).length ≤ fuel by
                rw [length_cons, length_cons]
                omega)
              (fun _ => .push hchain.advance (by rw [s.nextCandidate_advance_self]; omega) hlast
                (hvalid.value_owner howner) hd hd') hvalid
            refine ⟨s', hs', hvalid', hcases.imp_right fun hrest => ⟨hrest.1, fun h => ?_⟩⟩
            obtain ⟨hend, hnone⟩ := hrest.2 (h.advance hcand howner
              (fun k hk => mem_cons_of_mem j hk) fun _ _ _ => .inr mem_cons_self)
            exact ⟨hend, fun k hk => hnone k (hk.imp_left (mem_cons_of_mem j))⟩
          · rw [if_neg hlayer]
            obtain ⟨s', hs', hvalid', hcases⟩ := ih
              (show 2 * untried lists (s.advance i) + (i :: stack).length ≤ fuel by
                rw [length_cons]
                omega)
              (fun _ => hchain.advance) hvalid
            refine ⟨s', hs', hvalid', hcases.imp_right fun hrest => ⟨hrest.1, fun h => ?_⟩⟩
            exact hrest.2 (h.advance hcand howner (fun k hk => hk)
              fun d hd hd' => .inl (h.layer_eq_none hlt hlayer hd hd'))

theorem untried_le (s : Augmenting n) : 2 * untried lists s + 1 ≤ augmentFuel lists := by
  have hle : untried lists s ≤ ((List.finRange n).map fun i => (lists i).length).sum :=
    sum_le_sum fun i _ => Nat.sub_le ..
  unfold augmentFuel
  omega

variable (roots : List (Fin n)) (hvalid : s.matching.Valid (Candidate lists))
include roots hvalid

/-- Whoever has a value keeps one during a phase. -/
theorem augmentAll_kept :
    ∃ s', augmentAll lists roots s = some s' ∧ s'.matching.Valid (Candidate lists) ∧
      ∀ i, s.matching.value i ≠ none → s'.matching.value i ≠ none := by
  induction roots generalizing s with
  | nil => exact ⟨s, rfl, hvalid, fun _ => id⟩
  | cons root roots ih =>
    rw [augmentAll]
    by_cases hfree : s.matching.value root = none
    · rw [if_neg (not_not_intro hfree)]
      obtain ⟨s₁, hs₁, hvalid₁, hcases⟩ :=
        augment_spec s.layer (show 2 * untried lists s + [root].length ≤ _ from
        untried_le s) (fun _ => .root hfree) hvalid
      obtain ⟨s', hs', hvalid', hkept⟩ := ih hvalid₁
      refine ⟨s', by rwa [hs₁, bind_eq_bind, bind_some], hvalid', fun i hi => hkept i ?_⟩
      rcases hcases with hlrg | ⟨hsame, -⟩
      · exact hlrg.1 i hi
      · rwa [hsame]
    · rw [if_pos hfree]
      exact ih hvalid

/-- The searches of a phase end with a larger matching, or have tried everything within reach of
the nodes without a value. -/
theorem augmentAll_spec (h : Explored lists layer s []) :
    ∃ s', augmentAll lists roots s = some s' ∧ s'.matching.Valid (Candidate lists) ∧
      (Larger s.matching s'.matching ∨ s'.matching = s.matching ∧ Explored lists layer s' [] ∧
        ∀ k, s.layer k = none ∨ k ∈ roots ∧ s.matching.value k = none → s'.layer k = none) := by
  induction roots generalizing s with
  | nil => exact ⟨s, rfl, hvalid, .inr ⟨rfl, h, fun k hk => hk.resolve_right fun hmem =>
    not_mem_nil hmem.1⟩⟩
  | cons root roots ih =>
    rw [augmentAll]
    by_cases hfree : s.matching.value root = none
    · rw [if_neg (not_not_intro hfree)]
      obtain ⟨s₁, hs₁, hvalid₁, hcases⟩ :=
        augment_spec layer (show 2 * untried lists s + [root].length ≤ _ from
        untried_le s) (fun _ => .root hfree) hvalid
      rw [hs₁, bind_eq_bind, bind_some]
      rcases hcases with hlrg | ⟨hsame, hexp⟩
      · obtain ⟨s', hs', hvalid', hkept⟩ := augmentAll_kept roots hvalid₁
        exact ⟨s', hs', hvalid', .inl (hlrg.mono hkept)⟩
      · obtain ⟨hend, hnone⟩ := hexp ⟨h.layer_eq, fun i t v ht hv =>
          (h.tried i t v ht hv).imp fun j hj => ⟨hj.1, fun d hd hd' =>
            .inl ((hj.2 d hd hd').resolve_right not_mem_nil)⟩⟩
        obtain ⟨s', hs', hvalid', hcases⟩ := ih hvalid₁ hend
        rw [hsame] at hcases
        refine ⟨s', hs', hvalid', hcases.imp_right fun hrest =>
            ⟨hrest.1, hrest.2.1, fun k hk => hrest.2.2 k ?_⟩⟩
        rcases hk with hk | ⟨hk, hval⟩
        · exact .inl (hnone k (.inr hk))
        · rcases mem_cons.mp hk with rfl | hk
          · exact .inl (hnone k (.inl mem_cons_self))
          · exact .inr ⟨hk, hval⟩
    · rw [if_pos hfree]
      obtain ⟨s', hs', hvalid', hcases⟩ := ih hvalid h
      refine ⟨s', hs', hvalid', hcases.imp_right fun hrest =>
          ⟨hrest.1, hrest.2.1, fun k hk => hrest.2.2 k ?_⟩⟩
      refine hk.imp_right fun hk => ⟨?_, hk.2⟩
      rcases mem_cons.mp hk.1 with rfl | hmem
      · exact absurd hk.2 hfree
      · exact hmem

end explored

end paths

section phases

variable {lists} {m : Matching (Fin n) ℕ}

/-- A phase that meets a free value makes the matching larger. -/
theorem larger_of_found {s : Layering n} {done : List (Fin n)} (hvalid : m.Valid (Candidate lists))
    (hlayered : Layered lists m s done) (hfnd : s.found) :
    ∃ a, augmentAll lists (List.finRange n) ⟨m, s.layer, fun _ => 0⟩ = some a ∧
      a.matching.Valid (Candidate lists) ∧ Larger m a.matching := by
  have hst : Explored lists s.layer ⟨m, s.layer, fun _ => 0⟩ [] := ⟨fun _ => .inl rfl, nofun⟩
  obtain ⟨a, ha, hvalid', hcases⟩ :=
    augmentAll_spec (List.finRange n) (s := ⟨m, s.layer, fun _ => 0⟩) hvalid hst
  refine ⟨a, ha, hvalid', ?_⟩
  rcases hcases with hlrg | ⟨hsame, hexp, hnone⟩
  · exact hlrg
  · exfalso
    dsimp only at hsame hnone
    -- Without success every node with a layer was visited, layer by layer.
    have hvis : ∀ d i, s.layer i = some d → a.layer i = none := by
      intro d
      induction d with
      | zero =>
        intro i hi
        exact hnone i (.inr ⟨mem_finRange i, hlayered.zero i hi⟩)
      | succ d ih =>
        intro j hj
        obtain ⟨i, v, hi, hv, howner⟩ := hlayered.parent j d hj
        obtain ⟨t, ht⟩ := mem_iff_getElem?.mp hv
        rcases hexp.layer_eq i with heq | ⟨-, hle⟩
        · rw [ih i hi, hi] at heq
          cases heq
        · have hlt := (List.getElem?_eq_some_iff.mp ht).1
          obtain ⟨j', hj', hvis⟩ := hexp.tried i t v (by omega) ht
          rw [hsame, howner] at hj'
          obtain rfl := some.inj hj'
          exact (hvis d hi hj).resolve_right not_mem_nil
    obtain ⟨i, v, hi, hv, howner⟩ := hlayered.found hfnd
    obtain ⟨d, hd⟩ := ne_none_iff_exists'.mp hi
    obtain ⟨t, ht⟩ := mem_iff_getElem?.mp hv
    rcases hexp.layer_eq i with heq | ⟨-, hle⟩
    · rw [hvis d i hd, hd] at heq
      cases heq
    · have hlt := (List.getElem?_eq_some_iff.mp ht).1
      obtain ⟨j, hj, -⟩ := hexp.tried i t v (by omega) ht
      rw [hsame, howner] at hj
      cases hj

/-- How many nodes have a value. -/
def matchedCount (m : Matching (Fin n) ℕ) : ℕ := (Finset.univ.filter fun i => m.value i ≠ none).card

theorem Larger.matchedCount_lt {m m' : Matching (Fin n) ℕ} (h : Larger m m') :
    matchedCount m < matchedCount m' := by
  obtain ⟨hall, i, hi, hi'⟩ := h
  apply Finset.card_lt_card
  rw [Finset.ssubset_iff_of_subset]
  · exact ⟨i, by simpa using hi', by simpa using hi⟩
  · intro k hk
    rw [Finset.mem_filter] at hk ⊢
    exact ⟨hk.1, hall k hk.2⟩

theorem matchedCount_le (m : Matching (Fin n) ℕ) : matchedCount m ≤ n := by
  unfold matchedCount
  exact (Finset.card_filter_le _ _).trans (by rw [Finset.card_univ, Fintype.card_fin])

/-- Phases end, and tell whether all nodes can take different values. -/
theorem phases_spec {fuel : ℕ} (hfuel : n < matchedCount m + fuel)
    (hvalid : m.Valid (Candidate lists)) :
    ∃ b, phases lists fuel m = some b ∧
      (b = true ↔ ∃ f : Fin n → ℕ, Function.Injective f ∧ ∀ i, f i ∈ lists i) := by
  induction fuel generalizing m with
  | zero =>
    have := matchedCount_le m
    omega
  | succ fuel ih =>
    have hst : Layered lists m (startLayers m) [] := layered_start
    obtain ⟨s, done, hs, hlayered, hfol⟩ := hst.layers
      (show n ≤ ([] : List (Fin n)).length + n by simp) nofun
    rw [phases, hs, bind_eq_bind, bind_some]
    cases hfnd : s.found with
    | true =>
      obtain ⟨a, ha, hvalid', hlrg⟩ := larger_of_found hvalid hlayered hfnd
      rw [if_pos rfl, ha, bind_eq_bind, bind_some]
      have hlt := hlrg.matchedCount_lt
      exact ih (by omega) hvalid'
    | false =>
      refine ⟨_, rfl, ?_⟩
      rw [List.all_eq_true]
      constructor
      · intro hall
        refine hvalid.exists_choice fun i hi => ?_
        have hsome := hall i (mem_finRange i)
        rw [hi] at hsome
        cases hsome
      · intro hch i _
        by_contra hnone
        rw [Bool.not_eq_true, isSome_eq_false_iff, isNone_iff_eq_none] at hnone
        have hcl : ∀ k v, s.layer k ≠ none → v ∈ lists k → ∃ j,
            m.owner v = some j ∧ s.layer j ≠ none := by
          intro k v hk hv
          obtain ⟨hfree, howned⟩ := hfol k hk v hv
          cases howner : m.owner v with
          | none =>
            rw [hfree howner] at hfnd
            cases hfnd
          | some j => exact ⟨j, rfl, howned j howner⟩
        have hreach : s.layer i ≠ none := by
          rw [hlayered.start i hnone]
          exact some_ne_none 0
        exact hvalid.not_exists_choice hcl hreach hnone hch

end phases

/-- The matching decides whether all nodes can take different values of their lists. -/
theorem hasDistinctAssignment_spec {valueCount : ℕ} (hvals : ∀ i, ∀ v ∈ lists i, v < valueCount) :
    ∃ b, hasDistinctAssignment lists valueCount = some b ∧
      (b = true ↔ ∃ f : Fin n → ℕ, Function.Injective f ∧ ∀ i, f i ∈ lists i) := by
  unfold hasDistinctAssignment
  by_cases hlt : valueCount < n
  · rw [if_pos hlt]
    refine ⟨false, rfl, nofun, ?_⟩
    rintro ⟨f, hf, hlists⟩
    have hcard := Fintype.card_le_of_injective
      (fun i => (⟨f i, hvals i _ (hlists i)⟩ : Fin valueCount))
      fun i j hij => hf (Fin.mk.inj hij)
    rw [Fintype.card_fin, Fintype.card_fin] at hcard
    omega
  · rw [if_neg hlt]
    exact phases_spec (by omega) Matching.valid_empty

end Hermit.Datatypes
