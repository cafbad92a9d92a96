import Hermit.Structural.DefinitorialUnfolding

/-! # The negation normal form under two readings

Where every complement name denotes the complement of its class, the normal form
is exact.  Where the names only approximate a second reading from below, the
normal form still does, since it is monotone in them.
-/

namespace Hermit.DefinitorialUnfolding

open Interp

variable {Dom Val : Type*}

/-! ## Expressions of the supported fragment -/

theorem allSupported_iff (operands : List ClassExpr) :
    allSupported operands = true ↔ ∀ d ∈ operands, isSupported d = true := by
  induction operands with
  | nil => simp [allSupported]
  | cons d ds ih => simp [allSupported, ih]

theorem mem_collectAll (operands : List ClassExpr) (c : Iri) :
    c ∈ collectAll operands ↔ ∃ d ∈ operands, c ∈ collectClasses d := by
  induction operands with
  | nil => simp [collectAll]
  | cons d ds ih => simp [collectAll, ih]

theorem mem_nnfAll (definitions : Definitions) (operands : List ClassExpr) (negated : Bool)
    (e : ClassExpr) :
    e ∈ nnfAll definitions operands negated ↔ ∃ d ∈ operands, e = nnf definitions d negated := by
  induction operands with
  | nil => simp [nnfAll]
  | cons d ds ih => simp [nnfAll, ih]

/-- Two readings of the same domain that share their roles. -/
def SameRoles (I J : Interp Dom Val) : Prop :=
  ∀ r x y, I.role r x y ↔ J.role r x y

variable {J : Interp Dom Val}

/-- A supported expression means the same in readings that share its roles and class names. -/
theorem expr_congr {I : Interp Dom Val} (hroles : SameRoles I J) (ce : ClassExpr)
    (hsup : isSupported ce = true) (hcls : ∀ c ∈ collectClasses ce, I.classes c = J.classes c)
    (x : Dom) : x ∈ I.expr ce ↔ x ∈ J.expr ce := by
  induction ce generalizing x with
  | «class» c => simp [hcls c (by simp [collectClasses])]
  | objectIntersectionOf operands ih =>
    simp only [isSupported, allSupported_iff] at hsup
    simp only [mem_expr_intersection]
    refine forall₂_congr fun d hd => ih d hd (hsup d hd) (fun c hc => hcls c ?_) x
    simp only [collectClasses, mem_collectAll]
    exact ⟨d, hd, hc⟩
  | objectUnionOf operands ih =>
    simp only [isSupported, allSupported_iff] at hsup
    simp only [mem_expr_union]
    refine exists_congr fun d => and_congr_right fun hd =>
      ih d hd (hsup d hd) (fun c hc => hcls c ?_) x
    simp only [collectClasses, mem_collectAll]
    exact ⟨d, hd, hc⟩
  | objectComplementOf operand ih =>
    simp only [mem_expr_complement]
    exact not_congr (ih hsup hcls x)
  | objectSomeValuesFrom ope bce ih =>
    have hbce : isSupported bce = true := by
      cases ope <;> simp_all [isSupported]
    simp only [mem_expr_some]
    exact exists_congr fun y => and_congr (hroles ope x y) (ih hbce hcls y)
  | objectAllValuesFrom ope bce ih =>
    have hbce : isSupported bce = true := by
      cases ope <;> simp_all [isSupported]
    simp only [mem_expr_all]
    exact forall_congr' fun y => imp_congr (hroles ope x y) (ih hbce hcls y)
  | _ => simp [isSupported] at hsup

/-- Membership in a set, or in its complement when `negated`. -/
def polar (negated : Bool) (p : Prop) : Prop := if negated then ¬ p else p

@[simp] theorem polar_true (p : Prop) : polar true p ↔ ¬ p := by simp [polar]
@[simp] theorem polar_false (p : Prop) : polar false p ↔ p := by simp [polar]

theorem polar_not (negated : Bool) (p : Prop) : polar (!negated) p ↔ polar negated (¬ p) := by
  cases negated <;> simp [polar]

/-- The built-in classes keep their meaning under both polarities. -/
theorem nnf_class_builtIn (I : Interp Dom Val) (definitions : Definitions) {c : Iri}
    (hc : isBuiltIn c = true) (negated : Bool) (x : Dom) :
    x ∈ I.expr (nnf definitions (.class c) negated) ↔ polar negated (x ∈ I.classes c) := by
  have hne : owlThing ≠ owlNothing := by decide
  simp only [isBuiltIn, Bool.or_eq_true, beq_iff_eq] at hc
  rcases hc with rfl | rfl <;> cases negated <;>
    simp [nnf, isBuiltIn, hne.symm, I.classes_thing, I.classes_nothing]

variable {definitions : Definitions}

/-- In a reading where every complement name denotes the complement of its class, the
negation normal form denotes the expression or its complement. -/
theorem mem_nnf_iff (hcompl : ∀ c ∈ definitions, J.classes (complement c) = (J.classes c)ᶜ)
    (ce : ClassExpr) (hsup : isSupported ce = true) (negated : Bool) (x : Dom) :
    x ∈ J.expr (nnf definitions ce negated) ↔ polar negated (x ∈ J.expr ce) := by
  induction ce generalizing negated x with
  | «class» c =>
    by_cases hb : isBuiltIn c = true
    · simpa using nnf_class_builtIn J definitions hb negated x
    · cases negated
      · simp [nnf, hb]
      · by_cases hc : c ∈ definitions
        · simp [nnf, hb, hc, hcompl c hc]
        · simp [nnf, hb, hc]
  | objectIntersectionOf operands ih =>
    simp only [isSupported, allSupported_iff] at hsup
    cases negated
    · simp only [nnf, Bool.not_false, if_true, mem_expr_intersection, mem_nnfAll,
        forall_exists_index, and_imp, polar_false]
      constructor
      · intro h d hd
        exact (ih d hd (hsup d hd) false x).mp (h _ d hd rfl)
      · rintro h _ d hd rfl
        exact (ih d hd (hsup d hd) false x).mpr (h d hd)
    · simp only [nnf, Bool.not_true, Bool.false_eq_true, if_false, mem_expr_union,
        mem_nnfAll, mem_expr_intersection, polar_true, not_forall]
      constructor
      · rintro ⟨_, ⟨d, hd, rfl⟩, hx⟩
        exact ⟨d, hd, (ih d hd (hsup d hd) true x).mp hx⟩
      · rintro ⟨d, hd, hx⟩
        exact ⟨_, ⟨d, hd, rfl⟩, (ih d hd (hsup d hd) true x).mpr hx⟩
  | objectUnionOf operands ih =>
    simp only [isSupported, allSupported_iff] at hsup
    cases negated
    · simp only [nnf, Bool.false_eq_true, if_false, mem_expr_union, mem_nnfAll, polar_false]
      constructor
      · rintro ⟨_, ⟨d, hd, rfl⟩, hx⟩
        exact ⟨d, hd, (ih d hd (hsup d hd) false x).mp hx⟩
      · rintro ⟨d, hd, hx⟩
        exact ⟨_, ⟨d, hd, rfl⟩, (ih d hd (hsup d hd) false x).mpr hx⟩
    · simp only [nnf, if_true, mem_expr_intersection, mem_nnfAll, forall_exists_index,
        and_imp, mem_expr_union, polar_true, not_exists, not_and]
      constructor
      · intro h d hd
        exact (ih d hd (hsup d hd) true x).mp (h _ d hd rfl)
      · rintro h _ d hd rfl
        exact (ih d hd (hsup d hd) true x).mpr (h d hd)
  | objectComplementOf operand ih =>
    rw [nnf, ih hsup, polar_not, mem_expr_complement]
  | objectSomeValuesFrom ope bce ih | objectAllValuesFrom ope bce ih =>
    have hbce : isSupported bce = true := by
      cases ope <;> simp_all [isSupported]
    cases negated <;> simp [nnf, ih hbce]
  | _ => simp [isSupported] at hsup

/-- The negation normal form is monotone in the defined classes and their complement
names: they never occur under a complement. -/
theorem polar_of_mem_nnf {I : Interp Dom Val}
    (hroles : SameRoles I J) (ce : ClassExpr) (hsup : isSupported ce = true)
    (hprim : ∀ c, c ∉ definitions → I.classes c = J.classes c)
    (hpos : ∀ c ∈ collectClasses ce, c ∈ definitions → I.classes c ⊆ J.classes c)
    (hneg : ∀ c ∈ collectClasses ce, c ∈ definitions → I.classes (complement c) ⊆ (J.classes c)ᶜ)
    (negated : Bool) (x : Dom) (hx : x ∈ I.expr (nnf definitions ce negated)) :
    polar negated (x ∈ J.expr ce) := by
  induction ce generalizing negated x with
  | «class» c =>
    have hmem : c ∈ collectClasses (.class c) := by simp [collectClasses]
    by_cases hb : isBuiltIn c = true
    · rw [nnf_class_builtIn I definitions hb] at hx
      rw [mem_expr_class]
      have hne : owlThing ≠ owlNothing := by decide
      simp only [isBuiltIn, Bool.or_eq_true, beq_iff_eq] at hb
      rcases hb with rfl | rfl
      · simpa [J.classes_thing, I.classes_thing] using hx
      · simpa [J.classes_nothing, I.classes_nothing] using hx
    · by_cases hc : c ∈ definitions
      · cases negated
        · simp only [nnf, hb, Bool.false_eq_true, if_false, Bool.not_false, if_true,
            mem_expr_class] at hx
          simpa using hpos c hmem hc hx
        · simp only [nnf, hb, Bool.false_eq_true, if_false, Bool.not_true, hc, if_true,
            mem_expr_class] at hx
          simpa using hneg c hmem hc hx
      · cases negated <;> simpa [nnf, hb, hc, hprim c hc] using hx
  | objectIntersectionOf operands ih =>
    simp only [isSupported, allSupported_iff] at hsup
    have hop (d : ClassExpr) (hd : d ∈ operands) (negated : Bool)
        (hxd : x ∈ I.expr (nnf definitions d negated)) : polar negated (x ∈ J.expr d) := by
      have hsub : ∀ c ∈ collectClasses d, c ∈ collectClasses (.objectIntersectionOf operands) := by
        intro c hc
        simp only [collectClasses, mem_collectAll]
        exact ⟨d, hd, hc⟩
      exact ih d hd (hsup d hd) (fun c hc => hpos c (hsub c hc)) (fun c hc => hneg c (hsub c hc))
        negated x hxd
    cases negated
    · simp only [nnf, Bool.not_false, if_true, mem_expr_intersection, mem_nnfAll,
        forall_exists_index, and_imp] at hx
      simp only [polar_false, mem_expr_intersection]
      intro d hd
      simpa using hop d hd false (hx _ d hd rfl)
    · simp only [nnf, Bool.not_true, Bool.false_eq_true, if_false, mem_expr_union, mem_nnfAll] at hx
      obtain ⟨_, ⟨d, hd, rfl⟩, hxd⟩ := hx
      simp only [polar_true, mem_expr_intersection, not_forall]
      exact ⟨d, hd, by simpa using hop d hd true hxd⟩
  | objectUnionOf operands ih =>
    simp only [isSupported, allSupported_iff] at hsup
    have hop (d : ClassExpr) (hd : d ∈ operands) (negated : Bool)
        (hxd : x ∈ I.expr (nnf definitions d negated)) : polar negated (x ∈ J.expr d) := by
      have hsub : ∀ c ∈ collectClasses d, c ∈ collectClasses (.objectUnionOf operands) := by
        intro c hc
        simp only [collectClasses, mem_collectAll]
        exact ⟨d, hd, hc⟩
      exact ih d hd (hsup d hd) (fun c hc => hpos c (hsub c hc)) (fun c hc => hneg c (hsub c hc))
        negated x hxd
    cases negated
    · simp only [nnf, Bool.false_eq_true, if_false, mem_expr_union, mem_nnfAll] at hx
      obtain ⟨_, ⟨d, hd, rfl⟩, hxd⟩ := hx
      simp only [polar_false, mem_expr_union]
      exact ⟨d, hd, by simpa using hop d hd false hxd⟩
    · simp only [nnf, if_true, mem_expr_intersection, mem_nnfAll, forall_exists_index,
        and_imp] at hx
      simp only [polar_true, mem_expr_union, not_exists, not_and]
      intro d hd
      simpa using hop d hd true (hx _ d hd rfl)
  | objectComplementOf operand ih =>
    rw [nnf] at hx
    have h := ih hsup hpos hneg (!negated) x hx
    rwa [polar_not] at h
  | objectSomeValuesFrom ope bce ih =>
    have hbce : isSupported bce = true := by
      cases ope <;> simp_all [isSupported]
    cases negated
    · simp only [nnf, Bool.not_false, if_true, mem_expr_some] at hx
      obtain ⟨y, hr, hy⟩ := hx
      simp only [polar_false, mem_expr_some]
      exact ⟨y, (hroles ope x y).mp hr, by simpa using ih hbce hpos hneg false y hy⟩
    · simp only [nnf, Bool.not_true, Bool.false_eq_true, if_false, mem_expr_all] at hx
      simp only [polar_true, mem_expr_some, not_exists, not_and]
      intro y hr
      simpa using ih hbce hpos hneg true y (hx y ((hroles ope x y).mpr hr))
  | objectAllValuesFrom ope bce ih =>
    have hbce : isSupported bce = true := by
      cases ope <;> simp_all [isSupported]
    cases negated
    · simp only [nnf, Bool.false_eq_true, if_false, mem_expr_all] at hx
      simp only [polar_false, mem_expr_all]
      intro y hr
      simpa using ih hbce hpos hneg false y (hx y ((hroles ope x y).mpr hr))
    · simp only [nnf, if_true, mem_expr_some] at hx
      obtain ⟨y, hr, hy⟩ := hx
      simp only [polar_true, mem_expr_all, not_forall]
      exact ⟨y, (hroles ope x y).mp hr, by simpa using ih hbce hpos hneg true y hy⟩
  | _ => simp [isSupported] at hsup

end Hermit.DefinitorialUnfolding
