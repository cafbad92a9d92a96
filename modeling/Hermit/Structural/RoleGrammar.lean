import Hermit.Structural.RoleBox
import Hermit.Structural.AutomatonLanguage

/-! # The grammar of the told inclusions

A property derives the words that its told inclusions, closed under inverse,
allow.  The derivable words are the least family of languages closed under the
inclusions, and every such family is compared with them through that.
-/

namespace Hermit

open List hiding le_antisymm
open Worklist

open Automaton

/-! ## Languages under mirroring -/

/-- The words whose mirror images are in `L`. -/
def mirrorLanguage (L : Language ObjectPropExpr) : Language ObjectPropExpr :=
  {w | mirrorWord w ∈ L}

variable {w : List ObjectPropExpr}

@[simp] theorem mem_mirrorLanguage {L : Language ObjectPropExpr} :
    w ∈ mirrorLanguage L ↔ mirrorWord w ∈ L := Iff.rfl

@[simp] theorem mirrorLanguage_mirrorLanguage (L : Language ObjectPropExpr) :
    mirrorLanguage (mirrorLanguage L) = L := by
  ext w
  simp

theorem mirrorLanguage_mono {L M : Language ObjectPropExpr} (h : L ≤ M) :
    mirrorLanguage L ≤ mirrorLanguage M :=
  fun _ hw => h hw

theorem mirrorLanguage_one : mirrorLanguage 1 = 1 := by
  ext w
  simp [mirrorWord, Language.mem_one]

theorem mirrorLanguage_singleton (r : ObjectPropExpr) :
    mirrorLanguage {[r]} = {[inverseProperty r]} := by
  ext w
  constructor
  · intro (hw : mirrorWord w = [r])
    rw [← mirrorWord_mirrorWord w, hw]
    rfl
  · rintro rfl
    simp [mirrorWord]
    rfl

theorem mirrorLanguage_mul (L M : Language ObjectPropExpr) :
    mirrorLanguage (L * M) = mirrorLanguage M * mirrorLanguage L := by
  ext w
  simp only [mem_mirrorLanguage, Language.mem_mul]
  constructor
  · rintro ⟨u, hu, v, hv, huv⟩
    refine ⟨mirrorWord v, by simpa using hv, mirrorWord u, by simpa using hu, ?_⟩
    rw [← mirrorWord_append, huv, mirrorWord_mirrorWord]
  · rintro ⟨u, hu, v, hv, rfl⟩
    exact ⟨mirrorWord v, hv, mirrorWord u, hu, (mirrorWord_append u v).symm⟩

/-- A family of languages that mirrors along with the inverse. -/
def Mirrored (D : ObjectPropExpr → Language ObjectPropExpr) : Prop :=
  ∀ r, D (inverseProperty r) = mirrorLanguage (D r)

theorem mirrorLanguage_prod {D E : ObjectPropExpr → Language ObjectPropExpr}
    (h : ∀ r, E (inverseProperty r) = mirrorLanguage (D r)) (u : List ObjectPropExpr) :
    mirrorLanguage (u.map D).prod = ((mirrorWord u).map E).prod := by
  induction u with
  | nil => simp [mirrorLanguage_one, mirrorWord]
  | cons r u ih =>
    rw [map_cons, prod_cons, mirrorLanguage_mul, ih, ← h]
    simp [mirrorWord]

/-! ## Derivations -/

/-- A told inclusion, or the inverse of one. -/
def ToldInclusion (simple : List Inclusion) (sub sup : ObjectPropExpr) : Prop :=
  (sub, sup) ∈ simple ∨ (inverseProperty sub, inverseProperty sup) ∈ simple

/-- A told chain inclusion, or the inverse of one. -/
def ToldChain (complex : List Chain) (subs : List ObjectPropExpr) (sup : ObjectPropExpr) : Prop :=
  (subs, sup) ∈ complex ∨ (mirrorWord subs, inverseProperty sup) ∈ complex

/-- The reflexive-transitive closure of the simple inclusions, closed under inverse. -/
def Below (simple : List Inclusion) : ObjectPropExpr → ObjectPropExpr → Prop :=
  Relation.ReflTransGen (ToldInclusion simple)

/-- Replace the first property of the word by an inclusion into it, or read it off. -/
inductive DerivesWord (simple : List Inclusion) (complex : List Chain) :
    List ObjectPropExpr → List ObjectPropExpr → Prop
  | nil : DerivesWord simple complex [] []
  | letter {r u w} : DerivesWord simple complex u w → DerivesWord simple complex (r :: u) (r :: w)
  | inclusion {sub sup u w} : ToldInclusion simple sub sup →
      DerivesWord simple complex (sub :: u) w → DerivesWord simple complex (sup :: u) w
  | chain {subs sup u w} : ToldChain complex subs sup →
      DerivesWord simple complex (subs ++ u) w → DerivesWord simple complex (sup :: u) w

/-- The words that a property derives. -/
def Derives (simple : List Inclusion) (complex : List Chain) (r : ObjectPropExpr)
    (w : List ObjectPropExpr) : Prop :=
  DerivesWord simple complex [r] w

def derived (simple : List Inclusion) (complex : List Chain) (r : ObjectPropExpr) :
    Language ObjectPropExpr :=
  {w | Derives simple complex r w}

variable {simple : List Inclusion} {complex : List Chain}

theorem ToldInclusion.inverse {sub sup : ObjectPropExpr} (h : ToldInclusion simple sub sup) :
    ToldInclusion simple (inverseProperty sub) (inverseProperty sup) := by
  rcases h with h | h
  · exact .inr (by simpa using h)
  · exact .inl h

theorem ToldChain.inverse {subs : List ObjectPropExpr} {sup : ObjectPropExpr}
    (h : ToldChain complex subs sup) :
    ToldChain complex (mirrorWord subs) (inverseProperty sup) := by
  rcases h with h | h
  · exact .inr (by simpa using h)
  · exact .inl h

variable {a b : ObjectPropExpr}

theorem Below.inverse (h : Below simple a b) :
    Below simple (inverseProperty a) (inverseProperty b) := by
  induction h with
  | refl => exact .refl
  | tail _ hbc ih => exact ih.tail hbc.inverse

/-- A family of languages closed under the inclusions. -/
structure GrammarClosed (simple : List Inclusion) (complex : List Chain)
    (D : ObjectPropExpr → Language ObjectPropExpr) : Prop where
  letter : ∀ r, [r] ∈ D r
  inclusion : ∀ sub sup, ToldInclusion simple sub sup → D sub ≤ D sup
  chain : ∀ subs sup, ToldChain complex subs sup → (subs.map D).prod ≤ D sup

section

variable {D : ObjectPropExpr → Language ObjectPropExpr}

theorem DerivesWord.mem_prod (hD : GrammarClosed simple complex D) {u w : List ObjectPropExpr}
    (h : DerivesWord simple complex u w) : w ∈ (u.map D).prod := by
  induction h with
  | nil => simp [Language.mem_one]
  | @letter r u w _ ih =>
    rw [map_cons, prod_cons]
    exact Language.append_mem_mul (hD.letter r) ih
  | @inclusion sub sup u w hincl _ ih =>
    rw [map_cons, prod_cons] at ih ⊢
    exact mul_le_mul_left (hD.inclusion sub sup hincl) _ ih
  | @chain subs sup u w hchain _ ih =>
    rw [map_append, prod_append] at ih
    rw [map_cons, prod_cons]
    exact mul_le_mul_left (hD.chain subs sup hchain) _ ih

/-- The derivable words are the least closed family. -/
theorem derived_le (hD : GrammarClosed simple complex D) (r : ObjectPropExpr) :
    derived simple complex r ≤ D r := by
  intro w hw
  have h := DerivesWord.mem_prod hD hw
  rwa [map_singleton, prod_singleton] at h

end

theorem DerivesWord.append {u v z : List ObjectPropExpr} (h : DerivesWord simple complex u w)
    (h' : DerivesWord simple complex v z) : DerivesWord simple complex (u ++ v) (w ++ z) := by
  induction h with
  | nil => exact h'
  | letter _ ih => exact .letter ih
  | inclusion hincl _ ih => exact .inclusion hincl ih
  | chain hchain _ ih =>
    rw [append_assoc] at ih
    exact .chain hchain ih

theorem derivesWord_of_mem_prod {u : List ObjectPropExpr}
    (h : w ∈ (u.map (derived simple complex)).prod) : DerivesWord simple complex u w := by
  induction u generalizing w with
  | nil =>
    rw [map_nil, prod_nil, Language.mem_one] at h
    subst h
    exact .nil
  | cons r u ih =>
    rw [map_cons, prod_cons, Language.mem_mul] at h
    obtain ⟨v, hv, z, hz, rfl⟩ := h
    exact DerivesWord.append hv (ih hz)

variable (simple) in
theorem grammarClosed_derived : GrammarClosed simple complex (derived simple complex) where
  letter _ := .letter .nil
  inclusion _ _ h _ hw := .inclusion h hw
  chain subs sup h w hw := .chain h (by simpa using derivesWord_of_mem_prod hw)

theorem mirrored_derived : Mirrored (derived simple complex) := by
  -- the mirror images of the derivable words form a closed family themselves
  have hcl : GrammarClosed simple complex
      fun r => mirrorLanguage (derived simple complex (inverseProperty r)) := by
    refine ⟨?_, ?_, ?_⟩
    · intro r
      exact (grammarClosed_derived simple).letter _
    · intro sub sup h
      exact mirrorLanguage_mono ((grammarClosed_derived simple).inclusion _ _ h.inverse)
    · intro subs sup h
      have hle := mirrorLanguage_mono ((grammarClosed_derived simple).chain _ _ h.inverse)
      rwa [mirrorLanguage_prod (E :=
        fun r => mirrorLanguage (derived simple complex (inverseProperty r)))
        (by simp), mirrorWord_mirrorWord] at hle
  intro r
  apply le_antisymm
  · simpa using derived_le hcl (inverseProperty r)
  · have h := mirrorLanguage_mono (derived_le hcl r)
    simpa using h

theorem derived_mono (h : Below simple a b) :
    derived simple complex a ≤ derived simple complex b := by
  induction h with
  | refl => exact le_rfl
  | tail _ hbc ih => exact ih.trans ((grammarClosed_derived simple).inclusion _ _ hbc)

/-! ## What the role box holds -/

namespace RoleBox

theorem mem_pushInclusion (l : List Inclusion) (i j : Inclusion) :
    j ∈ pushInclusion l i ↔ j ∈ l ∨ (j = i ∧ j.1 ≠ j.2) := by
  unfold pushInclusion
  split
  · rename_i h
    rw [mem_append, mem_singleton]
    constructor
    · rintro (hj | rfl)
      · exact .inl hj
      · exact .inr ⟨rfl, h.1⟩
    · rintro (hj | ⟨rfl, -⟩)
      · exact .inl hj
      · exact .inr rfl
  · rename_i h
    constructor
    · exact .inl
    · rintro (hj | ⟨rfl, hne⟩)
      · exact hj
      · by_contra hmem
        exact h ⟨hne, hmem⟩

theorem mem_closeInclusions (simple : List Inclusion) (sub sup : ObjectPropExpr) :
    (sub, sup) ∈ closeInclusions simple ↔ ToldInclusion simple sub sup ∧ sub ≠ sup := by
  have hfold (acc : List Inclusion) : (sub, sup) ∈ simple.foldl
      (fun acc i => pushInclusion (pushInclusion acc i) (inverseProperty i.1, inverseProperty i.2))
        acc ↔
        (sub, sup) ∈ acc ∨ (ToldInclusion simple sub sup ∧ sub ≠ sup) := by
    induction simple generalizing acc with
    | nil => simp [ToldInclusion]
    | cons i simple ih =>
      obtain ⟨a, b⟩ := i
      rw [foldl_cons, ih, mem_pushInclusion, mem_pushInclusion]
      have hinv (x y : ObjectPropExpr) : x = inverseProperty y ↔ inverseProperty x = y := by
        rw [← inverseProperty_inj, inverseProperty_inverseProperty]
      simp only [ToldInclusion, mem_cons, Prod.mk.injEq, ne_eq, hinv]
      tauto
  rw [closeInclusions, hfold]
  simp

theorem mem_closeChains (complex : List Chain) (subs : List ObjectPropExpr) (sup : ObjectPropExpr) :
    (subs, sup) ∈ closeChains complex ↔ ToldChain complex subs sup := by
  have hfold (acc : List Chain) : (subs, sup) ∈ complex.foldl
      (fun acc chain => insertSet (insertSet acc chain) (mirrorChain chain)) acc ↔
        (subs, sup) ∈ acc ∨ ToldChain complex subs sup := by
    induction complex generalizing acc with
    | nil => simp [ToldChain]
    | cons c complex ih =>
      obtain ⟨v, r⟩ := c
      rw [foldl_cons, ih, mem_insertSet, mem_insertSet]
      have hmirror : (subs, sup) = mirrorChain (v, r) ↔
          (mirrorWord subs, inverseProperty sup) = (v, r) := by
        have hword : v.reverse.map inverseProperty = mirrorWord v := by
          rw [mirrorWord, map_reverse]
        rw [mirrorChain, hword, Prod.mk.injEq, Prod.mk.injEq]
        constructor
        · rintro ⟨rfl, rfl⟩
          simp
        · rintro ⟨rfl, rfl⟩
          simp
      rw [hmirror]
      simp only [ToldChain, mem_cons]
      tauto
  rw [closeChains, hfold]
  simp

variable (inclusions : List Inclusion)

theorem mem_direct (a b : ObjectPropExpr) : b ∈ direct inclusions a ↔ (a, b) ∈ inclusions := by
  simp [direct]

theorem inclusion_mem_roles {inclusions : List Inclusion} (chains : List Chain)
    {a b : ObjectPropExpr} (h : (a, b) ∈ inclusions) :
    a ∈ roles inclusions chains ∧ b ∈ roles inclusions chains := by
  simp only [roles, mem_dedup, mem_append, mem_flatMap, mem_cons, not_mem_nil, or_false]
  exact ⟨.inl ⟨_, h, .inl rfl⟩, .inl ⟨_, h, .inr rfl⟩⟩

theorem chain_mem_roles {chains : List Chain} {c : Chain}
    (h : c ∈ chains) : c.2 ∈ roles inclusions chains := by
  simp only [roles, mem_dedup, mem_append, mem_flatMap]
  exact .inr ⟨c, h, by simp⟩

theorem lookup_closeSupers (rs : List ObjectPropExpr)
    (r : ObjectPropExpr) : (closeSupers inclusions rs).lookup r =
      if r ∈ rs then some (reachPush (direct inclusions) rs [r]) else none := by
  have hfold (todo : List ObjectPropExpr) (acc : AList fun _ : ObjectPropExpr =>
      List ObjectPropExpr) :
      (todo.foldl (fun supers role =>
        supers.insert role (reachPush (direct inclusions) rs [role])) acc).lookup r =
        if r ∈ todo then some (reachPush (direct inclusions) rs [r]) else acc.lookup r :=
          by
    induction todo generalizing acc with
    | nil => simp
    | cons s todo ih =>
      rw [foldl_cons, ih]
      by_cases hr : r ∈ todo
      · simp [hr]
      · by_cases hrs : r = s
        · subst hrs
          simp
        · simp [hr, hrs, AList.lookup_insert_ne]
  rw [closeSupers, hfold]
  simp

theorem reach_direct_iff (a b : ObjectPropExpr) :
    Relation.ReflTransGen (fun a b => b ∈ direct (closeInclusions simple) a) a b ↔
      Below simple a b := by
  constructor
  · intro h
    induction h with
    | refl => exact .refl
    | tail _ hbc ih =>
      rw [mem_direct, mem_closeInclusions] at hbc
      exact ih.tail hbc.1
  · intro h
    induction h with
    | refl => exact .refl
    | @tail b c _ hbc ih =>
      by_cases hne : b = c
      · exact hne ▸ ih
      · refine ih.tail ?_
        rw [mem_direct, mem_closeInclusions]
        exact ⟨hbc, hne⟩

variable {r : ObjectPropExpr}

theorem mem_reach_direct (hr : r ∈ roles (closeInclusions simple) (closeChains complex))
    (s : ObjectPropExpr) :
    s ∈ reachPush (direct (closeInclusions simple))
        (roles (closeInclusions simple) (closeChains complex)) [r] ↔ Below simple r s := by
  rw [mem_reachPush ?_ (by simpa using hr)]
  · rw [← reach_direct_iff]
    simp [Worklist.Reach]
  · intro a _ b hb
    exact (inclusion_mem_roles _ ((mem_direct _ a b).mp hb)).2

theorem isSubProperty_iff (a b : ObjectPropExpr) :
    (new simple complex).isSubProperty a b = true ↔ Below simple a b := by
  have hsupers : (new simple complex).supers =
      closeSupers (closeInclusions simple) (roles (closeInclusions simple) (closeChains complex)) :=
        rfl
  rw [isSubProperty, hsupers, lookup_closeSupers]
  split
  · rename_i hr
    simp only [Option.any_some, mem_reach_direct hr, Bool.or_eq_true, decide_eq_true_eq]
    constructor
    · rintro (rfl | h)
      · exact .refl
      · exact h
    · exact .inr
  · rename_i hr
    simp only [Option.any_none, Bool.or_false, decide_eq_true_eq]
    constructor
    · rintro rfl
      exact .refl
    · rw [← reach_direct_iff]
      intro h
      -- a property without an inclusion is below itself only
      rcases Relation.ReflTransGen.cases_head h with h | ⟨c, hc, -⟩
      · exact h
      · exact absurd (inclusion_mem_roles _ ((mem_direct _ a c).mp hc)).1 hr

theorem equivalent_iff (a b : ObjectPropExpr) :
    (new simple complex).equivalent a b = true ↔ Below simple a b ∧ Below simple b a := by
  rw [equivalent, Bool.and_eq_true, isSubProperty_iff, isSubProperty_iff]

theorem mem_nonSimple_iff (r : ObjectPropExpr) : r ∈ (new simple complex).nonSimple ↔ ∃ subs sup,
    ToldChain complex subs sup ∧ Below simple sup r := by
  have hns : (new simple complex).nonSimple = ((closeChains complex).flatMap fun c =>
      ((closeSupers (closeInclusions simple)
        (roles (closeInclusions simple) (closeChains complex))).lookup c.2).getD []).dedup := rfl
  rw [hns, mem_dedup, mem_flatMap]
  constructor
  · rintro ⟨⟨subs, sup⟩, hc, hr⟩
    rw [lookup_closeSupers, if_pos (chain_mem_roles _ hc), Option.getD_some,
      mem_reach_direct (chain_mem_roles _ hc)] at hr
    exact ⟨subs, sup, (mem_closeChains complex subs sup).mp hc, hr⟩
  · rintro ⟨subs, sup, hc, hr⟩
    rw [← mem_closeChains] at hc
    refine ⟨(subs, sup), hc, ?_⟩
    rw [lookup_closeSupers, if_pos (chain_mem_roles _ hc), Option.getD_some,
      mem_reach_direct (chain_mem_roles _ hc)]
    exact hr

theorem inverse_mem_nonSimple (h : r ∈ (new simple complex).nonSimple) :
    inverseProperty r ∈ (new simple complex).nonSimple := by
  rw [mem_nonSimple_iff] at h ⊢
  obtain ⟨subs, sup, hc, hr⟩ := h
  exact ⟨_, _, hc.inverse, hr.inverse⟩

theorem nonSimple_of_below {s : ObjectPropExpr} (h : r ∈ (new simple complex).nonSimple)
    (hrs : Below simple r s) : s ∈ (new simple complex).nonSimple := by
  rw [mem_nonSimple_iff] at h ⊢
  obtain ⟨subs, sup, hc, hr⟩ := h
  exact ⟨subs, sup, hc, hr.trans hrs⟩

theorem chains_new (subs : List ObjectPropExpr) (sup : ObjectPropExpr) :
    (subs, sup) ∈ (new simple complex).chains ↔ ToldChain complex subs sup :=
  mem_closeChains complex subs sup

theorem inclusions_new (sub sup : ObjectPropExpr) :
    (sub, sup) ∈ (new simple complex).inclusions ↔ ToldInclusion simple sub sup ∧ sub ≠ sup :=
  mem_closeInclusions simple sub sup

end RoleBox

end Hermit
