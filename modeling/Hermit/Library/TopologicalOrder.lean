import Hermit.Library.Looping

/-! # Topological orders

The nodes of a finite graph are listed so that each comes after all nodes below it.  Nodes wait
with the number of nodes below them that are not listed yet, and are ready when there is none left.
-/

namespace Hermit.TopologicalOrder

open List

variable {α : Type*} [DecidableEq α]

structure Listing (α : Type*) where
  pending : α → ℕ
  ready : List α
  order : List α

/-- One of the nodes below `p` has been listed.  The count never runs below zero. -/
def release (s : Listing α) (p : α) : Option (Listing α) :=
  match s.pending p with
  | 0 => none
  | count + 1 =>
    some { s with
      pending := Function.update s.pending p count
      ready := if count = 0 then s.ready ++ [p] else s.ready }

/-- List the first node that is ready. -/
def takeReady (above : α → List α) (s : Listing α) : Option (Listing α) :=
  match s.ready with
  | [] => none
  | n :: ready => (above n).foldlM release { s with ready := ready, order := s.order ++ [n] }

def listAll (nodes : List α) (below above : α → List α) (fuel : ℕ) : Option (List α) :=
  (loopWhile (fun s => !s.ready.isEmpty) (takeReady above) fuel
    ⟨fun n => (below n).length, nodes.filter fun n => (below n).length = 0, []⟩).map Listing.order

/-- `below` and `above` are the two directions of one graph. -/
structure Inverse (nodes : List α) (below above : α → List α) : Prop where
  nodup : nodes.Nodup
  nodup_below : ∀ n, (below n).Nodup
  nodup_above : ∀ n, (above n).Nodup
  mem_above : ∀ n p, p ∈ above n ↔ n ∈ below p
  mem_nodes : ∀ n p, p ∈ above n → p ∈ nodes

/-- The nodes below `n` that are not listed yet. -/
def waitingFor (below : α → List α) (order : List α) (n : α) : List α :=
  (below n).filter (· ∉ order)

/-- Every node of the list comes after the nodes below it. -/
def Ascending (below : α → List α) (order : List α) : Prop :=
  ∀ front n rest, order = front ++ n :: rest → ∀ c ∈ below n, c ∈ front

structure Valid (nodes : List α) (below : α → List α) (s : Listing α) : Prop where
  nodup : (s.order ++ s.ready).Nodup
  pending : ∀ n, s.pending n = (waitingFor below s.order n).length
  mem_iff : ∀ n, n ∈ s.order ++ s.ready ↔ n ∈ nodes ∧ waitingFor below s.order n = []
  ascending : Ascending below s.order

variable {nodes : List α} {below above : α → List α}

omit [DecidableEq α] in
theorem Ascending.append {order : List α} (h : Ascending below order) {n : α}
    (hn : ∀ c ∈ below n, c ∈ order) :
    Ascending below (order ++ [n]) := by
  intro front m rest heq
  rcases eq_nil_or_concat rest with rfl | ⟨rest, last, rfl⟩
  · obtain ⟨rfl, hlast⟩ := append_inj' heq rfl
    obtain rfl := (List.cons.inj hlast).1
    exact hn
  · rw [concat_eq_append, ← cons_append, ← append_assoc] at heq
    obtain ⟨rfl, -⟩ := append_inj' heq rfl
    exact h front m rest rfl

/-- Listing one more node shortens what the nodes above it wait for. -/
theorem length_waitingFor (hinv : Inverse nodes below above) {order : List α} {n : α}
    (hn : n ∉ order) (p : α) :
    (waitingFor below order p).length =
      (waitingFor below (order ++ [n]) p).length + if p ∈ above n then 1 else 0 := by
  have hfilt : waitingFor below (order ++ [n]) p = (waitingFor below order p).erase n := by
    rw [waitingFor, waitingFor, List.Nodup.erase_eq_filter ((hinv.nodup_below p).filter _),
      filter_filter]
    apply filter_congr
    intro c _
    rw [Bool.eq_iff_iff]
    simp [and_comm]
  have hmem : n ∈ waitingFor below order p ↔ p ∈ above n := by
    rw [waitingFor, mem_filter, hinv.mem_above]
    simp [hn]
  rw [hfilt, length_erase]
  by_cases hp : p ∈ above n
  · rw [if_pos (hmem.mpr hp), if_pos hp]
    have := length_pos_of_mem (hmem.mpr hp)
    omega
  · rw [if_neg (mt hmem.mp hp), if_neg hp]
    rfl

/-- The nodes above a listed one lose one of the nodes they wait for. -/
theorem foldlM_release {s : Listing α} {ps : List α} (hps : ps.Nodup)
    (hpositive : ∀ p ∈ ps, 0 < s.pending p) :
    ps.foldlM release s = some { s with
      pending := fun n => s.pending n - if n ∈ ps then 1 else 0
      ready := s.ready ++ ps.filter fun p => s.pending p = 1 } := by
  induction ps generalizing s with
  | nil => simp
  | cons p ps ih =>
    obtain ⟨count, hcount⟩ : ∃ count, s.pending p = count + 1 := ⟨s.pending p - 1, by
      have := hpositive p mem_cons_self
      omega⟩
    obtain ⟨hp, hps⟩ := nodup_cons.mp hps
    have hne : ∀ q ∈ ps, q ≠ p := by
      rintro q hq rfl
      exact hp hq
    have hrelease : release s p = some { s with
        pending := Function.update s.pending p count
        ready := if count = 0 then s.ready ++ [p] else s.ready } := by
      rw [release, hcount]
    rw [foldlM_cons, hrelease, Option.bind_eq_bind, Option.bind_some, ih hps]
    · congr 2
      · funext n
        by_cases hn : n = p
        · subst hn
          simp [hp, hcount]
        · simp [hn]
      · have hfilt : (ps.filter fun q => Function.update s.pending p count q = 1) = ps.filter
            fun q => s.pending q = 1 := by
          apply filter_congr
          intro q hq
          rw [Function.update_of_ne (hne q hq)]
        rw [hfilt, filter_cons, hcount]
        by_cases hzero : count = 0
        · simp [hzero]
        · simp [hzero]
    · intro q hq
      dsimp only
      rw [Function.update_of_ne (hne q hq)]
      exact hpositive q (mem_cons_of_mem _ hq)

theorem Valid.takeReady (hinv : Inverse nodes below above) {s : Listing α} (h : Valid nodes below s)
    (hready : s.ready ≠ []) :
    ∃ s', takeReady above s = some s' ∧ Valid nodes below s' ∧
    s'.order.length = s.order.length + 1 := by
  obtain ⟨n, ready, hspl⟩ := exists_cons_of_ne_nil hready
  have hnd := h.nodup
  rw [hspl] at hnd
  have hn : n ∉ s.order := by
    intro hmem
    exact (nodup_append.mp hnd).2.2 n hmem n mem_cons_self rfl
  have hlen := length_waitingFor hinv hn
  have hpositive : ∀ p ∈ above n, 0 < s.pending p := by
    intro p hp
    rw [h.pending, hlen, if_pos hp]
    omega
  have hemp : waitingFor below s.order n = [] := by
    refine ((h.mem_iff n).mp ?_).2
    rw [hspl]
    exact mem_append_right _ mem_cons_self
  refine ⟨_, by
      rw [TopologicalOrder.takeReady, hspl]
      exact foldlM_release (hinv.nodup_above n) hpositive, ?_, length_append⟩
  have hmemOld : ∀ m, m ∈ s.order ∨ m = n ∨ m ∈ ready ↔
      m ∈ nodes ∧ waitingFor below s.order m = [] := by
    intro m
    rw [← h.mem_iff, hspl, mem_append, mem_cons]
  have hone : ∀ m, s.pending m = 1 ∧ m ∈ above n ↔
      waitingFor below s.order m ≠ [] ∧ waitingFor below (s.order ++ [n]) m = [] := by
    intro m
    rw [← length_pos_iff, ← length_eq_zero_iff, h.pending, hlen]
    by_cases hm : m ∈ above n
    · simp only [hm, if_true, and_true]
      omega
    · simp only [hm, if_false, and_false, false_iff]
      omega
  constructor
  · rw [append_assoc, singleton_append, ← cons_append, ← append_assoc]
    refine nodup_append.mpr ⟨hnd, (hinv.nodup_above n).filter _, ?_⟩
    rintro m hm _ hm' rfl
    rw [mem_filter, decide_eq_true_iff, and_comm, hone] at hm'
    exact hm'.1 ((hmemOld m).mp (by simpa using hm)).2
  · intro m
    dsimp only
    rw [h.pending, hlen]
    omega
  · intro m
    simp only [mem_append, mem_singleton, mem_filter, decide_eq_true_iff]
    rw [and_comm, hone]
    constructor
    · intro hm
      have hcases : (m ∈ s.order ∨ m = n ∨ m ∈ ready) ∨
          waitingFor below s.order m ≠ [] ∧ waitingFor below (s.order ++ [n]) m = [] := by tauto
      rcases hcases with hm | hm
      · obtain ⟨hnodes, hwait⟩ := (hmemOld m).mp hm
        refine ⟨hnodes, length_eq_zero_iff.mp ?_⟩
        have := hlen m
        rw [hwait] at this
        dsimp only [length_nil] at this
        omega
      · exact ⟨hinv.mem_nodes n m ((hone m).mpr hm).2, hm.2⟩
    · rintro ⟨hnodes, hwait⟩
      by_cases hold : waitingFor below s.order m = []
      · have := (hmemOld m).mpr ⟨hnodes, hold⟩
        tauto
      · exact .inr (.inr ⟨hold, hwait⟩)
  · apply h.ascending.append
    intro c hc
    by_contra hmem
    have : c ∈ waitingFor below s.order n := mem_filter.mpr ⟨hc, decide_eq_true hmem⟩
    rw [hemp] at this
    exact not_mem_nil this

theorem valid_start (hinv : Inverse nodes below above) :
    Valid nodes below ⟨fun n => (below n).length, nodes.filter fun n => (below n).length = 0, []⟩ :=
  by
  have hwait : ∀ n, waitingFor below [] n = below n := by
    intro n
    simp [waitingFor]
  constructor
  · exact hinv.nodup.filter _
  · intro n
    rw [hwait]
  · intro n
    simp [hwait]
  · intro front n rest heq
    simp at heq

/-- In a graph without cycles every node is listed once, after the nodes below it. -/
theorem exists_listAll_eq (hinv : Inverse nodes below above) (rank : α → ℕ)
    (hrank : ∀ n, ∀ p ∈ above n, rank n < rank p) (hblw : ∀ p ∈ nodes, ∀ c ∈ below p, c ∈ nodes) :
    ∃ order, (∀ fuel, nodes.length ≤ fuel → listAll nodes below above fuel = some order) ∧
      order.Nodup ∧ (∀ n, n ∈ order ↔ n ∈ nodes) ∧ Ascending below order := by
  have hbd : ∀ s, Valid nodes below s → (s.order ++ s.ready).length ≤ nodes.length := by
    intro s hs
    have hsub : s.order ++ s.ready ⊆ nodes := fun n hn => ((hs.mem_iff n).mp hn).1
    exact (subperm_of_subset hs.nodup hsub).length_le
  have hround : ∀ s, Valid nodes below s → (!s.ready.isEmpty) = true → ∃ s',
    takeReady above s = some s' ∧
      Valid nodes below s' ∧ nodes.length - s'.order.length < nodes.length - s.order.length := by
    intro s hs hrun
    have hready : s.ready ≠ [] := by simpa using hrun
    obtain ⟨s', hstep, hs', hlen⟩ := hs.takeReady hinv hready
    have hle := hbd s hs
    rw [length_append] at hle
    have hpos := length_pos_iff.mpr hready
    exact ⟨s', hstep, hs', by omega⟩
  obtain ⟨s, hs, hend, hfuel⟩ :=
    exists_loopWhile_eq (fun s : Listing α => !s.ready.isEmpty) (takeReady above)
    (Valid nodes below) (fun s => nodes.length - s.order.length) hround (valid_start hinv)
  have hready : s.ready = [] := by simpa using hend
  have hmem : ∀ n, n ∈ s.order ↔ n ∈ nodes ∧ waitingFor below s.order n = [] := by
    intro n
    rw [← hs.mem_iff, hready, append_nil]
  have hall : ∀ k n, rank n = k → n ∈ nodes → n ∈ s.order := by
    intro k
    induction k using Nat.strongRecOn with
    | ind k ih =>
      intro n hk hn
      rw [hmem]
      refine ⟨hn, filter_eq_nil_iff.mpr fun c hc => ?_⟩
      have hlt := hrank c n ((hinv.mem_above c n).mpr hc)
      have := ih (rank c) (hk ▸ hlt) c rfl (hblw n hn c hc)
      simp [this]
  refine ⟨s.order, fun fuel hle => ?_, ?_, fun n => ⟨fun hn => ((hmem n).mp hn).1, hall _ n rfl⟩,
    hs.ascending⟩
  · rw [listAll, hfuel fuel (by simpa using hle)]
    rfl
  · have := hs.nodup
    rwa [hready, append_nil] at this

end Hermit.TopologicalOrder
