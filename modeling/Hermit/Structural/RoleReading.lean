import Hermit.Library.Reading
import Hermit.Owl.Semantics
import Hermit.Structural.RoleCompleteness

/-! # What the automata of the inclusion manager read

In a model of the role box an accepted word leads along its property.  Conversely an
interpretation of the simple inclusions alone becomes a model of the role box when
every property relates the pairs along its derivable words, and the automaton of a
property accepts a word along which they are related as well.
-/

namespace Hermit

open RoleBox Automata Automaton

/-! ## Only non-simple properties are stored -/

section stored

variable {simple : List Inclusion} {complex : List Chain}

/-- The properties with an automaton have chains below them. -/
def RoleBox.Memo.OnlyNonSimple (rb : RoleBox) (memo : Memo) : Prop :=
  ∀ r a, memo.find r = some a → r ∈ rb.nonSimple

variable {memo : Memo} {rb : RoleBox} {property : ObjectPropExpr} {result : Automaton × Memo}

theorem RoleBox.Memo.OnlyNonSimple.insert (h : memo.OnlyNonSimple rb)
    {r : ObjectPropExpr} (hr : r ∈ rb.nonSimple) (a : Automaton) :
    Memo.OnlyNonSimple rb { memo with complete := memo.complete.insert r a } := by
  intro s b hs
  by_cases hsr : s = r
  · rw [hsr]
    exact hr
  · rw [Memo.find, AList.lookup_insert_ne hsr] at hs
    exact h s b hs

section

variable {recurse : ObjectPropExpr → Memo → Option (Automaton × Memo)} {state : Automaton × Memo}
  (hrec : ∀ r ∈ rb.nonSimple, ∀ m p, m.OnlyNonSimple rb → recurse r m = some p →
    p.2.OnlyNonSimple rb)
  (hstate : state.2.OnlyNonSimple rb)
include hrec hstate

theorem onlyNonSimple_spliceTransition {t : Transition}
    (h : rb.spliceTransition property recurse state t = some result) :
    result.2.OnlyNonSimple rb := by
  unfold spliceTransition at h
  split at h
  · cases h
    exact hstate
  next role _ =>
    split at h
    · cases h
      exact hstate
    · split at h
      next hns =>
        simp only [Bool.and_eq_true, decide_eq_true_eq] at hns
        split at h
        · cases h
        next smaller memo hcall =>
          cases h
          have hsmaller := hrec role hns.2 _ _ hstate hcall
          exact hsmaller
      · cases h
        exact hstate

theorem onlyNonSimple_foldlM {ts : List Transition}
    (h : ts.foldlM (rb.spliceTransition property recurse) state = some result) :
    result.2.OnlyNonSimple rb := by
  induction ts generalizing state with
  | nil =>
    cases h
    exact hstate
  | cons t ts ih =>
    rw [List.foldlM_cons, Option.bind_eq_bind, Option.bind_eq_some_iff] at h
    obtain ⟨mid, hmid, h⟩ := h
    exact ih (onlyNonSimple_spliceTransition hrec hstate hmid) h

end

theorem onlyNonSimple_completeAutomaton (fuel : ℕ) (building : List ObjectPropExpr)
    (hns : property ∈ (new simple complex).nonSimple)
    (hmemo : memo.OnlyNonSimple (new simple complex))
    (h : (new simple complex).completeAutomaton fuel building property memo = some result) :
    result.2.OnlyNonSimple (new simple complex) := by
  induction fuel generalizing building property memo result with
  | zero => cases h
  | succ fuel ih =>
    rw [completeAutomaton] at h
    split at h
    · cases h
      exact hmemo
    · split at h
      · split at h
        · cases h
          exact hmemo
        · split at h
          · cases h
          next automaton memo' hcall =>
            cases h
            exact (ih building (inverse_mem_nonSimple hns) hmemo hcall).insert hns _
      · split at h
        · cases h
          exact hmemo
        · split at h
          · cases h
          next automaton memo' hcall =>
            cases h
            have hfold := onlyNonSimple_foldlM (fun r hr m p hm hp => ih _ hr hm hp) hmemo hcall
            exact Memo.OnlyNonSimple.insert hfold hns _

theorem onlyNonSimple_completeAll (h : (new simple complex).completeAll = some memo) :
    memo.OnlyNonSimple (new simple complex) := by
  have hfold (rs : List ObjectPropExpr) (hrs : ∀ r ∈ rs, r ∈ (new simple complex).nonSimple)
      (start : Memo) (hst : start.OnlyNonSimple (new simple complex))
      (h : rs.foldlM (fun memo property =>
        ((new simple complex).completeAutomaton (new simple complex).fuel [] property memo).map
          (·.2)) start = some memo) : memo.OnlyNonSimple (new simple complex) := by
    induction rs generalizing start with
    | nil =>
      cases h
      exact hst
    | cons r rs ih =>
      simp only [List.foldlM_cons, Option.bind_eq_bind, Option.bind_eq_some_iff,
        Option.map_eq_some_iff] at h
      obtain ⟨mid, ⟨p, hcall, rfl⟩, h⟩ := h
      exact ih (fun s hs => hrs s (List.mem_cons_of_mem _ hs)) p.2
        (onlyNonSimple_completeAutomaton _ _ (hrs r List.mem_cons_self) hst hcall) h
  exact hfold _ (fun r hr => (mem_sortDedup _ _ _).mp hr) ⟨∅, false⟩ (fun r a ha => by cases ha) h

end stored

/-- A property that relates everything. -/
def IsTop (r : ObjectPropExpr) : Prop :=
  r = topObjectProperty ∨ r = inverseProperty topObjectProperty

/-- What the automata of a manager read, in terms of the grammar of the role box. -/
structure InclusionManager.Reads (manager : InclusionManager) (simple : List Inclusion)
    (complex : List Chain) : Prop where
  single : ∀ r a, manager.automataByProperty.lookup r = some a → a.Single
  sound : ∀ r a, manager.automataByProperty.lookup r = some a →
    (∀ w ∈ a.language, Derives simple complex r w) ∨ IsTop r
  complete : ∀ r a, manager.automataByProperty.lookup r = some a →
    (∀ w, Derives simple complex r w → ∃ w' ∈ a.language, List.Forall₂ (Below simple) w w') ∨
      IsTop r ∧ [r] ∈ a.language
  stored : ∀ r ∈ (new simple complex).nonSimple, ∃ a, manager.automataByProperty.lookup r = some a

theorem topAutomaton_single : topAutomaton.Single := by
  have hwellFormed : topAutomaton.WellFormed := by
    unfold Automaton.WellFormed
    decide
  refine Automaton.Single.mk_of_unique hwellFormed (i := 0) (t := 1) (fun s => ?_) (fun s => ?_)
  · rcases s with _ | _ | s
    · decide
    · decide
    · simp [topAutomaton, Automaton.isInitial, Automaton.addState, Automaton.empty]
  · rcases s with _ | _ | s
    · decide
    · decide
    · simp [topAutomaton, Automaton.isTerminal, Automaton.addState, Automaton.empty]

theorem mem_language_topAutomaton : [topObjectProperty] ∈ topAutomaton.language := by
  rw [Automaton.mem_language]
  refine ⟨0, 1, [some topObjectProperty], by decide, by decide, rfl, .singleton _ ?_⟩
  rw [Automaton.mem_toNFA_step]
  decide

/-- The automata of a regular role box. -/
theorem reads_of_createAutomata {order : HashOrder ObjectPropExpr} {fuel : ℕ}
    {axioms axioms' : OwlAxioms} {manager : InclusionManager}
    (hlong : ∀ c ∈ axioms.complexObjectPropertyInclusions, 2 ≤ c.subObjectProperties.length)
    (h : createAutomata order fuel axioms = some (.ok (manager, axioms')))
    (hreg : manager.irregular = false) :
    manager.Reads axioms.simpleObjectPropertyInclusions axioms.chains := by
  have hlong' : ChainsLong axioms.chains := by
    intro c hc
    obtain ⟨i, hi, rfl⟩ := List.mem_map.mp hc
    exact hlong i hi
  obtain ⟨memo, hmemo, rfl⟩ := createAutomata_eq_ok h
  obtain ⟨hval, htotal⟩ := completeAll_spec hlong' hmemo
  have hfinished : Finished _ _ memo := ⟨hval, hreg, htotal⟩
  have hlook : ∀ r a, (addTopAutomaton memo.complete).lookup r = some a →
      memo.find r = some a ∨ IsTop r ∧ a.Single ∧ [r] ∈ a.language := by
    intro r a ha
    unfold addTopAutomaton at ha
    split_ifs at ha
    · exact .inl ha
    · by_cases htop : r = topObjectProperty
      · subst htop
        rw [AList.lookup_insert] at ha
        cases ha
        exact .inr ⟨.inl rfl, topAutomaton_single, mem_language_topAutomaton⟩
      · rw [AList.lookup_insert_ne htop] at ha
        by_cases hinv : r = inverseProperty topObjectProperty
        · subst hinv
          rw [AList.lookup_insert] at ha
          cases ha
          refine .inr ⟨.inr rfl, topAutomaton_single.mirroredCopy, ?_⟩
          exact (Automaton.mem_language_mirroredCopy _).mpr mem_language_topAutomaton
        · rw [AList.lookup_insert_ne hinv] at ha
          exact .inl ha
  refine ⟨fun r a ha => ?_, fun r a ha => ?_, fun r a ha => ?_, fun r hr => ?_⟩
  · rcases hlook r a ha with hfind | ⟨-, hsgl, -⟩
    · exact hval.single r a hfind
    · exact hsgl
  · rcases hlook r a ha with hfind | ⟨htop, -, -⟩
    · exact .inl fun w hw => hval.sound r a hfind hw
    · exact .inr htop
  · rcases hlook r a ha with hfind | ⟨htop, -, hlet⟩
    · refine .inl fun w hw => ?_
      have hns := onlyNonSimple_completeAll hmemo r a hfind
      have hmem := derived_le (hfinished.grammarClosed hlong') r hw
      rwa [coveredLanguage, storedLanguage_of_find hns hfind] at hmem
    · exact .inr ⟨htop, hlet⟩
  · obtain ⟨a, ha⟩ := htotal r hr
    exact ⟨a, by rw [lookup_addTopAutomaton _ _ htotal hr, ha]⟩

/-! ## Models of the role box -/

namespace Interp

variable {Dom Val : Type*} {I J : Interp Dom Val} {simple : List Inclusion}
  {complex : List Chain}

variable (I) in
/-- The simple inclusions hold. -/
def RespectsSimple (simple : List Inclusion) : Prop :=
  ∀ i ∈ simple, ∀ x y, I.role i.1 x y → I.role i.2 x y

variable (I) in
/-- The chains hold. -/
def RespectsChains (complex : List Chain) : Prop :=
  ∀ c ∈ complex, ∀ x y, I.chain c.1 x y → I.role c.2 x y

theorem chain_iff_along (w : List ObjectPropExpr) (x y : Dom) :
    I.chain w x y ↔ Along I.role w x y := by
  induction w generalizing x with
  | nil => exact Iff.rfl
  | cons r w ih => exact exists_congr fun z => and_congr_right fun _ => ih z

theorem along_mirrorWord (w : List ObjectPropExpr) (x y : Dom) :
    Along I.role (mirrorWord w) x y ↔ Along I.role w y x :=
  along_reverse_map inverseProperty I.role_inverseProperty w x y

variable {x y : Dom} {w : List ObjectPropExpr} {r : ObjectPropExpr}

theorem RespectsSimple.told (h : I.RespectsSimple simple) {sub sup : ObjectPropExpr}
    (htold : ToldInclusion simple sub sup) (hxy : I.role sub x y) : I.role sup x y := by
  rcases htold with hmem | hmem
  · exact h _ hmem x y hxy
  · have hinv := h _ hmem y x ((I.role_inverseProperty sub y x).mpr hxy)
    exact (I.role_inverseProperty sup y x).mp hinv

theorem RespectsSimple.below (h : I.RespectsSimple simple) {a b : ObjectPropExpr}
    (hab : Below simple a b) (hxy : I.role a x y) : I.role b x y := by
  induction hab with
  | refl => exact hxy
  | tail _ hstep ih => exact h.told hstep ih

theorem RespectsChains.told (h : I.RespectsChains complex) {subs : List ObjectPropExpr}
    {sup : ObjectPropExpr} (htold : ToldChain complex subs sup) (hxy : Along I.role subs x y) :
    I.role sup x y := by
  rcases htold with hmem | hmem
  · exact h _ hmem x y ((chain_iff_along subs x y).mpr hxy)
  · have hchain : I.chain (mirrorWord subs) y x :=
      (chain_iff_along _ y x).mpr ((along_mirrorWord subs y x).mpr hxy)
    exact (I.role_inverseProperty sup y x).mp (h _ hmem y x hchain)

/-- A derivable word leads along the word it was derived from. -/
theorem RespectsSimple.along_of_derivesWord (h : I.RespectsSimple simple)
    (hchains : I.RespectsChains complex)
    {u : List ObjectPropExpr} (hder : DerivesWord simple complex u w)
    (hxy : Along I.role w x y) : Along I.role u x y := by
  induction hder generalizing x with
  | nil => exact hxy
  | letter _ ih =>
    obtain ⟨z, hz, hy⟩ := hxy
    exact ⟨z, hz, ih hy⟩
  | inclusion htold _ ih =>
    obtain ⟨z, hz, hy⟩ := ih hxy
    exact ⟨z, h.told htold hz, hy⟩
  | chain htold _ ih =>
    obtain ⟨z, hz, hy⟩ := (along_append _ _ x y).mp (ih hxy)
    exact ⟨z, hchains.told htold hz, hy⟩

theorem role_of_isTop (h : IsTop r) (x y : Dom) : I.role r x y := by
  rcases h with rfl | rfl
  · exact I.objectProperties_top x y
  · exact I.objectProperties_top y x

variable {manager : InclusionManager}

/-- The words that the automaton of a property accepts lead along the property. -/
theorem RespectsSimple.role_of_mem_language (h : I.RespectsSimple simple)
    (hchains : I.RespectsChains complex) (hreads : manager.Reads simple complex)
    {a : Automaton} (ha : manager.automataByProperty.lookup r = some a)
    (hw : w ∈ a.language) (hxy : Along I.role w x y) : I.role r x y := by
  rcases hreads.sound r a ha with hsound | htop
  · exact (along_singleton r x y).mp (h.along_of_derivesWord hchains (hsound w hw) hxy)
  · exact role_of_isTop htop x y

/-- A pair along a derivable word of a property with an automaton is one along an accepted
word. -/
theorem RespectsSimple.exists_mem_language (h : J.RespectsSimple simple)
    (hreads : manager.Reads simple complex) {a : Automaton}
    (ha : manager.automataByProperty.lookup r = some a)
    (hw : Derives simple complex r w) (hxy : Along J.role w x y) :
    ∃ w' ∈ a.language, Along J.role w' x y := by
  rcases hreads.complete r a ha with hcompl | ⟨htop, hlet⟩
  · obtain ⟨w', hw', hblw⟩ := hcompl w hw
    have hletters : ∀ r s, Below simple r s → ∀ x y, J.role r x y → J.role s x y :=
      fun r s hrs x y hrole => h.below hrs hrole
    exact ⟨w', hw', Along.of_forall₂ hletters hblw hxy⟩
  · exact ⟨[r], hlet, (along_singleton r x y).mpr (role_of_isTop htop x y)⟩

/-- A pair along a derivable word of a simple property is one of the property itself. -/
theorem RespectsSimple.role_of_derives_simple (h : J.RespectsSimple simple)
    (hr : r ∉ (new simple complex).nonSimple)
    (hw : Derives simple complex r w) (hxy : Along J.role w x y) : J.role r x y := by
  obtain ⟨s, rfl, hblw⟩ := exists_below_of_derives_simple hr hw
  exact h.below hblw ((along_singleton s x y).mp hxy)

/-- Every property relates the pairs along its derivable words.  The bottom property stays
empty by assumption. -/
def closed (J : Interp Dom Val) (simple : List Inclusion) (complex : List Chain)
    (hbot : ∀ w, Derives simple complex (.objectProperty bottomObjectRole) w →
      ∀ x y, ¬ Along J.role w x y) : Interp Dom Val :=
  { J with
    objectProperties := fun p x y =>
      ∃ w ∈ derived simple complex (.objectProperty p), Along J.role w x y
    objectProperties_top := fun x y =>
      ⟨[topObjectProperty], (grammarClosed_derived simple).letter _,
        (along_singleton _ x y).mpr (J.objectProperties_top x y)⟩
    objectProperties_bottom := fun x y ⟨w, hw, hxy⟩ => hbot w hw x y hxy }

section closed

variable {hbot : ∀ w, Derives simple complex (.objectProperty bottomObjectRole) w →
  ∀ x y, ¬ Along J.role w x y}

theorem role_closed (r : ObjectPropExpr) (x y : Dom) : (J.closed simple complex hbot).role r x y ↔
      ∃ w ∈ derived simple complex r, Along J.role w x y := by
  cases r with
  | objectProperty p => exact Iff.rfl
  | inverseObjectProperty p =>
    have hmirror : derived simple complex (.inverseObjectProperty p) =
        mirrorLanguage (derived simple complex (.objectProperty p)) :=
      mirrored_derived (.objectProperty p)
    rw [hmirror]
    constructor
    · rintro ⟨w, hw, hxy⟩
      exact ⟨mirrorWord w, by simpa using hw, (along_mirrorWord w x y).mpr hxy⟩
    · rintro ⟨w, hw, hxy⟩
      exact ⟨mirrorWord w, hw, (along_mirrorWord w y x).mpr hxy⟩

theorem role_closed_of_role {r : ObjectPropExpr} {x y : Dom} (h : J.role r x y) :
    (J.closed simple complex hbot).role r x y :=
  (role_closed r x y).mpr ⟨[r], (grammarClosed_derived simple).letter r,
    (along_singleton r x y).mpr h⟩

theorem respectsSimple_closed : (J.closed simple complex hbot).RespectsSimple simple := by
  intro i hi x y hxy
  obtain ⟨w, hw, hxy⟩ := (role_closed i.1 x y).mp hxy
  exact (role_closed i.2 x y).mpr
    ⟨w, (grammarClosed_derived simple).inclusion i.1 i.2 (.inl hi) hw, hxy⟩

theorem respectsChains_closed : (J.closed simple complex hbot).RespectsChains complex := by
  intro c hc x y hxy
  rw [chain_iff_along] at hxy
  have hwords : Along (fun r x y => ∃ w ∈ derived simple complex r, Along J.role w x y) c.1 x y :=
      by
    refine Along.of_forall₂ (fun a b hab x y hrole => ?_) (List.forall₂_same.mpr fun r _ => rfl) hxy
    subst hab
    exact (role_closed a x y).mp hrole
  obtain ⟨w, hw, hxy⟩ := exists_mem_prod_of_along (derived simple complex) hwords
  exact (role_closed c.2 x y).mpr
    ⟨w, (grammarClosed_derived simple).chain c.1 c.2 (.inl hc) hw, hxy⟩

/-- Closing does not change a simple property. -/
theorem RespectsSimple.role_closed_iff (h : J.RespectsSimple simple) {r : ObjectPropExpr}
    (hr : r ∉ (new simple complex).nonSimple) (x y : Dom) :
    (J.closed simple complex hbot).role r x y ↔ J.role r x y := by
  refine ⟨fun hxy => ?_, role_closed_of_role⟩
  obtain ⟨w, hw, hxy⟩ := (role_closed r x y).mp hxy
  exact h.role_of_derives_simple hr hw hxy

end closed

end Interp

end Hermit
